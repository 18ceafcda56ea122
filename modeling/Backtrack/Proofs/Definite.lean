import Backtrack.Proofs.Lexicon
import Backtrack.Proofs.Yields

/-!
# Definite parsers

A parser is definite on the texts below a length if on each of them it has no outcome, or exactly
one, which leaves less of the text and no layout in front of that, or ends in a fault of an allowed
kind.  The combinators of the shipped grammars keep parsers definite.  A rule that refers to itself
only behind a token is definite on texts of every length: its nesting never runs out, unless that
is among the allowed faults.
-/

namespace Backtrack.Parser

variable {τ α β : Type} {allowed : Fault → Prop} {bound : Nat} {p : Parser α}

/-- How a definite parser runs on texts of less than `bound` characters. -/
def Definite (allowed : Fault → Prop) (bound : Nat) (p : Parser α) : Prop :=
  ∀ inp, inp.length < bound →
    p inp = .ok [] ∨
    (∃ value rest, p inp = .ok [(value, rest)] ∧ rest.length < inp.length ∧
      skipLayout rest = rest) ∨
    ∃ fault, p inp = .error fault ∧ allowed fault

theorem Definite.mono (h : Definite allowed bound p) {lower : Nat} (hle : lower ≤ bound) :
    Definite allowed lower p := fun inp hinp ↦ h inp (Nat.lt_of_lt_of_le hinp hle)

theorem Definite.ok_or_error (h : Definite allowed bound p) {inp : Text}
    (hinp : inp.length < bound) :
    (∃ outcomes, p inp = .ok outcomes) ∨ ∃ fault, p inp = .error fault ∧ allowed fault := by
  rcases h inp hinp with hnil | ⟨value, rest, hsingle, -⟩ | hfault
  · exact .inl ⟨[], hnil⟩
  · exact .inl ⟨[(value, rest)], hsingle⟩
  · exact .inr hfault

theorem definite_zero : Definite allowed 0 p := fun _ hinp ↦ absurd hinp (Nat.not_lt_zero _)

theorem definite_accept (L : Lexicon τ) (choose : τ → Option α) :
    Definite allowed bound (L.accept choose) := by
  intro inp _
  rcases L.accept_cases choose inp with hnil | ⟨token, value, rest, hnext, -, hsingle⟩
  · exact .inl hnil
  · have hlt := Lexicon.length_of_next hnext
    exact .inr (.inl ⟨value, rest, hsingle, hlt, Lexicon.skipLayout_of_next hnext⟩)

theorem definite_symbol {text : Text} (h : text ≠ []) : Definite allowed bound (symbol text) := by
  intro inp _
  rw [symbol_apply]
  by_cases hprefix : text.isPrefixOf inp
  · have hinp := (List.isPrefixOf_iff_prefix.mp hprefix).length_le
    have htext := List.length_pos_iff.mpr h
    have hskip := length_skipLayout_le (inp.drop text.length)
    rw [List.length_drop] at hskip
    refine .inr (.inl ⟨text, skipLayout (inp.drop text.length), ?_, ?_, ?_⟩)
    · rw [if_pos hprefix]
    · omega
    · exact skipLayout_skipLayout _
  · exact .inl (by rw [if_neg hprefix])

theorem Definite.map (h : Definite allowed bound p) (f : α → β) :
    Definite allowed bound (p.map f) := by
  intro inp hinp
  rcases h inp hinp with hnil | ⟨value, rest, hsingle, hrest⟩ | ⟨fault, hfault, hallowed⟩
  · exact .inl (map_of_nil hnil f)
  · exact .inr (.inl ⟨f value, rest, map_of_single hsingle f, hrest⟩)
  · exact .inr (.inr ⟨fault, map_of_error hfault f, hallowed⟩)

/-- What is run after a definite parser runs on shorter texts. -/
theorem Definite.bind_succ (h : Definite allowed (bound + 1) p) {f : α → Parser β}
    (hf : ∀ value, Definite allowed bound (f value)) : Definite allowed (bound + 1) (p.bind f) := by
  intro inp hinp
  rcases h inp hinp with hnil | ⟨value, rest, hsingle, hlt, -⟩ | ⟨fault, hfault, hallowed⟩
  · exact .inl (bind_of_nil hnil f)
  · rw [bind_of_single hsingle]
    rcases hf value rest (by omega) with hnil | ⟨w, last, hsingle, hlast, hbare⟩ | hfault
    · exact .inl hnil
    · exact .inr (.inl ⟨w, last, hsingle, Nat.lt_trans hlast hlt, hbare⟩)
    · exact .inr (.inr hfault)
  · exact .inr (.inr ⟨fault, bind_of_error hfault f, hallowed⟩)

theorem Definite.bind (h : Definite allowed bound p) {f : α → Parser β}
    (hf : ∀ value, Definite allowed bound (f value)) : Definite allowed bound (p.bind f) := by
  cases bound with
  | zero => exact definite_zero
  | succ bound => exact h.bind_succ fun value ↦ (hf value).mono (Nat.le_succ bound)

theorem definite_firstOf {ps : List (Parser α)} (h : ∀ p ∈ ps, Definite allowed bound p) :
    Definite allowed bound (firstOf ps) := by
  induction ps with
  | nil => exact fun inp _ ↦ .inl (firstOf_nil inp)
  | cons p ps ih =>
    intro inp hinp
    have hp := h p List.mem_cons_self inp hinp
    rcases hp with hnil | ⟨value, rest, hsingle, hrest⟩ | ⟨fault, hfault, hallowed⟩
    · rw [firstOf_cons_of_nil hnil]
      exact ih (fun q hq ↦ h q (List.mem_cons_of_mem p hq)) inp hinp
    · exact .inr (.inl ⟨value, rest, firstOf_cons_of_cons hsingle ps, hrest⟩)
    · exact .inr (.inr ⟨fault, firstOf_cons_of_error hfault ps, hallowed⟩)

theorem Definite.first (h : Definite allowed bound p) : Definite allowed bound (first p) := by
  intro inp hinp
  rcases h inp hinp with hnil | ⟨value, rest, hsingle, hrest⟩ | ⟨fault, hfault, hallowed⟩
  · exact .inl (first_of_ok hnil)
  · exact .inr (.inl ⟨value, rest, first_of_ok hsingle, hrest⟩)
  · exact .inr (.inr ⟨fault, first_of_error hfault, hallowed⟩)

theorem definite_middle {left : Parser β} {right : Parser τ}
    (hleft : Definite allowed (bound + 1) left) (hp : Definite allowed bound p)
    (hright : Definite allowed bound right) :
    Definite allowed (bound + 1) (middle left p right) := by
  rw [middle_eq_bind]
  exact hleft.bind_succ fun _ ↦ hp.bind fun value ↦ hright.map fun _ ↦ value

/-! ## Chains -/

section Chains

variable {op : Parser (Operation α)}

theorem definite_chainStep (hop : Definite allowed (bound + 1) op)
    (hp : Definite allowed bound p) : Definite allowed (bound + 1) (chainStep p op) :=
  (hop.bind_succ fun f ↦ hp.map fun y ↦ (f, y)).first

theorem definite_chainStep_succeed (hp : Definite allowed bound p) (f : Operation α) :
    Definite allowed bound (chainStep p (succeed f)) := by
  intro inp hinp
  rw [chainStep_of_single (succeed_apply f inp)]
  rcases hp inp hinp with hnil | ⟨value, rest, hsingle, hrest⟩ | ⟨fault, hfault, hallowed⟩
  · exact .inl (by rw [hnil]; rfl)
  · exact .inr (.inl ⟨(f, value), rest, by rw [hsingle]; rfl, hrest⟩)
  · exact .inr (.inr ⟨fault, by rw [hfault]; rfl, hallowed⟩)

/-- The operators that `op` yields end in allowed faults only. -/
def RaisesOnly (allowed : Fault → Prop) (op : Parser (Operation α)) : Prop :=
  ∀ inp f rest, Yields op inp (f, rest) → ∀ x y fault, f x y = .error fault → allowed fault

theorem foldSteps_cases (hstep : Definite allowed bound (chainStep p op))
    (hop : RaisesOnly allowed op) {inp : Text} (hinp : inp.length < bound)
    (hbare : skipLayout inp = inp) (x : α) :
    (∃ value rest, foldSteps (chainStep p op) x inp = .ok (value, rest) ∧
      rest.length ≤ inp.length ∧ skipLayout rest = rest) ∨
    ∃ fault, foldSteps (chainStep p op) x inp = .error fault ∧ allowed fault := by
  induction hlen : inp.length using Nat.strongRecOn generalizing inp x with
  | ind n ih =>
    rcases hstep inp hinp with hnil | ⟨⟨f, y⟩, rest, hsingle, hlt, hrest⟩ | ⟨fault, hfault, hallowed⟩
    · exact .inl ⟨x, inp, foldSteps_of_nil hnil, by omega, hbare⟩
    · rw [foldSteps_of_cons hsingle hlt]
      obtain ⟨mid, hf, -⟩ := yields_chainStep (yields_of_single hsingle)
      cases hz : f x y with
      | error fault => exact .inr ⟨fault, rfl, hop inp f mid hf x y fault hz⟩
      | ok z =>
        rw [ok_bind]
        rcases ih _ (hlen ▸ hlt) (Nat.lt_trans hlt hinp) hrest z rfl with
          ⟨value, last, hfold, hle, hlast⟩ | hfault
        · exact .inl ⟨value, last, hfold, by omega, hlast⟩
        · exact .inr hfault
    · exact .inr ⟨fault, foldSteps_of_error hfault, hallowed⟩

theorem groupRight_cases (hstep : Definite allowed bound (chainStep p op))
    (hop : RaisesOnly allowed op) {inp : Text} (hinp : inp.length < bound)
    (hbare : skipLayout inp = inp) (x : α) :
    (∃ value rest, groupRight (chainStep p op) x inp = .ok (value, rest) ∧
      rest.length ≤ inp.length ∧ skipLayout rest = rest) ∨
    ∃ fault, groupRight (chainStep p op) x inp = .error fault ∧ allowed fault := by
  induction hlen : inp.length using Nat.strongRecOn generalizing inp x with
  | ind n ih =>
    rcases hstep inp hinp with hnil | ⟨⟨f, y⟩, rest, hsingle, hlt, hrest⟩ | ⟨fault, hfault, hallowed⟩
    · exact .inl ⟨x, inp, groupRight_of_nil hnil, by omega, hbare⟩
    · rw [groupRight_of_cons hsingle hlt]
      obtain ⟨mid, hf, -⟩ := yields_chainStep (yields_of_single hsingle)
      rcases ih _ (hlen ▸ hlt) (Nat.lt_trans hlt hinp) hrest y rfl with
        ⟨z, last, hgroup, hle, hlast⟩ | ⟨fault, hfault, hallowed⟩
      · rw [hgroup]
        simp only [ok_bind]
        cases hvalue : f x z with
        | error fault => exact .inr ⟨fault, rfl, hop inp f mid hf x z fault hvalue⟩
        | ok value => exact .inl ⟨value, last, rfl, by omega, hlast⟩
      · rw [hfault]
        exact .inr ⟨fault, rfl, hallowed⟩
    · exact .inr ⟨fault, groupRight_of_error hfault, hallowed⟩

theorem definite_chainl1 (hp : Definite allowed bound p)
    (hstep : Definite allowed bound (chainStep p op)) (hop : RaisesOnly allowed op) :
    Definite allowed bound (chainl1 p op) := by
  intro inp hinp
  rcases hp inp hinp with hnil | ⟨x, mid, hsingle, hlt, hbare⟩ | ⟨fault, hfault, hallowed⟩
  · exact .inl (chainl1_of_nil hnil)
  · rw [chainl1_of_single hsingle]
    rcases foldSteps_cases hstep hop (Nat.lt_trans hlt hinp) hbare x with
      ⟨value, rest, hfold, hle, hrest⟩ | ⟨fault, hfault, hallowed⟩
    · exact .inr (.inl ⟨value, rest, by rw [hfold]; rfl, Nat.lt_of_le_of_lt hle hlt, hrest⟩)
    · exact .inr (.inr ⟨fault, by rw [hfault]; rfl, hallowed⟩)
  · exact .inr (.inr ⟨fault, chainl1_of_error hfault, hallowed⟩)

theorem definite_chainr1 (hp : Definite allowed bound p)
    (hstep : Definite allowed bound (chainStep p op)) (hop : RaisesOnly allowed op) :
    Definite allowed bound (chainr1 p op) := by
  intro inp hinp
  rcases hp inp hinp with hnil | ⟨x, mid, hsingle, hlt, hbare⟩ | ⟨fault, hfault, hallowed⟩
  · exact .inl (chainr1_of_nil hnil)
  · rw [chainr1_of_single hsingle]
    rcases groupRight_cases hstep hop (Nat.lt_trans hlt hinp) hbare x with
      ⟨value, rest, hgroup, hle, hrest⟩ | ⟨fault, hfault, hallowed⟩
    · exact .inr (.inl ⟨value, rest, by rw [hgroup]; rfl, Nat.lt_of_le_of_lt hle hlt, hrest⟩)
    · exact .inr (.inr ⟨fault, by rw [hfault]; rfl, hallowed⟩)
  · exact .inr (.inr ⟨fault, chainr1_of_error hfault, hallowed⟩)

/-- A right chain that starts with an operand and an operator has the value of the rest of it. -/
theorem chainr1_of_step (hp : Definite allowed bound p) {f : Operation α} {x : α}
    {inp mid after rest : Text} {result : Except Fault α} (hx : p inp = .ok [(x, mid)])
    (hf : op mid = .ok [(f, after)]) (hlt : after.length < mid.length) (hafter : after.length < bound)
    (hresult : chainr1 p op after = only result rest) :
    chainr1 p op inp = only (do
      let y ← result
      f x y) rest := by
  rw [chainr1_of_single hx]
  rcases hp after hafter with hnil | ⟨y, last, hy, hlast, -⟩ | ⟨fault, hfault, -⟩
  · rw [chainr1_of_nil hnil] at hresult
    cases result <;> simp at hresult
  · have hstep : chainStep p op mid = .ok [((f, y), last)] := by
      rw [chainStep_of_single hf, hy]
      rfl
    rw [chainr1_of_single hy] at hresult
    rw [groupRight_of_cons hstep (Nat.lt_trans hlast hlt), eq_of_singleton_eq_only hresult]
    cases result with
    | error fault => rfl
    | ok z => simp only [ok_map, ok_bind]; cases f x z <;> rfl
  · have hstep : chainStep p op mid = .error fault := by
      rw [chainStep_of_single hf, hfault]
      rfl
    rw [chainr1_of_error hfault] at hresult
    rw [groupRight_of_error hstep]
    cases result with
    | error other => cases hresult; rfl
    | ok z => contradiction

end Chains

/-! ## Recursion -/

section Recursion

variable {body : Parser α → Parser α}

/-- With `n` activations a rule gets by on texts of less than `n` characters. -/
theorem definite_nested
    (hbody : ∀ n q, Definite allowed n q → Definite allowed (n + 1) (body q)) (n : Nat) :
    Definite allowed n (nested body n) := by
  induction n with
  | zero => exact definite_zero
  | succ n ih =>
    intro inp hinp
    rw [nested_succ]
    exact hbody n (nested body n) ih inp hinp

theorem definite_recursive
    (hbody : ∀ n q, Definite allowed n q → Definite allowed (n + 1) (body q)) :
    Definite allowed bound (recursive body) := fun inp _ ↦
  definite_nested hbody (inp.length + 1) inp (Nat.lt_succ_self _)

end Recursion

end Backtrack.Parser
