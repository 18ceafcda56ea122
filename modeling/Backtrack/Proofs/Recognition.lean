import Backtrack.Proofs.Lexicon
import Backtrack.Proofs.Yields

/-!
# Recognition of token languages

A parser recognises a relation between lists of tokens and values if each of its outcomes is read by
a list of tokens that is related to its value.  There is one lemma for each combinator of the token
parsers; a chain recognises what the grouping of its operands recognises.
-/

namespace Backtrack.Lexicon

open Backtrack.Parser

variable {τ α β : Type} {L : Lexicon τ} {p : Parser α}

variable (L) in
/-- Every outcome of `p` is read by tokens that `R` relates to its value. -/
def Recognizes (p : Parser α) (R : List τ → α → Prop) : Prop :=
  ∀ inp value rest, Yields p inp (value, rest) → ∃ tokens, L.Reads inp tokens rest ∧ R tokens value

theorem Recognizes.mono {R S : List τ → α → Prop} (h : L.Recognizes p R)
    (himp : ∀ tokens value, R tokens value → S tokens value) : L.Recognizes p S := by
  intro inp value rest hyields
  obtain ⟨tokens, hreads, hR⟩ := h inp value rest hyields
  exact ⟨tokens, hreads, himp tokens value hR⟩

theorem recognizes_succeed (value : α) :
    L.Recognizes (succeed value) fun tokens v ↦ tokens = [] ∧ v = value := by
  intro inp v rest h
  cases eq_of_yields_single (succeed_apply value inp) h
  exact ⟨[], rfl, rfl, rfl⟩

theorem recognizes_accept (choose : τ → Option α) :
    L.Recognizes (L.accept choose) fun tokens value ↦
      ∃ token, tokens = [token] ∧ choose token = some value := by
  intro inp value rest h
  rcases accept_cases L choose inp with hnil | ⟨token, v, after, hnext, hvalue, hsingle⟩
  · exact absurd h (not_yields_of_nil hnil _)
  · cases eq_of_yields_single hsingle h
    exact ⟨[token], reads_singleton.mpr hnext, token, rfl, hvalue⟩

theorem Recognizes.map {R : List τ → α → Prop} {S : List τ → β → Prop} (h : L.Recognizes p R)
    {f : α → β} (himp : ∀ tokens value, R tokens value → S tokens (f value)) :
    L.Recognizes (p.map f) S := by
  intro inp value rest hyields
  obtain ⟨v, hv, hvalue⟩ := yields_map hyields
  cases hvalue
  obtain ⟨tokens, hreads, hR⟩ := h inp v rest hv
  exact ⟨tokens, hreads, himp tokens v hR⟩

theorem Recognizes.bind {R : List τ → α → Prop} {Q : α → List τ → β → Prop}
    {S : List τ → β → Prop} {f : α → Parser β} (hp : L.Recognizes p R)
    (hf : ∀ value, L.Recognizes (f value) (Q value))
    (himp : ∀ ts v us w, R ts v → Q v us w → S (ts ++ us) w) : L.Recognizes (p.bind f) S := by
  intro inp value rest hyields
  obtain ⟨v, mid, hv, hw⟩ := yields_bind hyields
  obtain ⟨ts, hts, hR⟩ := hp inp v mid hv
  obtain ⟨us, hus, hQ⟩ := hf v mid value rest hw
  exact ⟨ts ++ us, reads_append.mpr ⟨mid, hts, hus⟩, himp ts v us value hR hQ⟩

theorem recognizes_firstOf {ps : List (Parser α)} {R : List τ → α → Prop}
    (h : ∀ p ∈ ps, L.Recognizes p R) : L.Recognizes (firstOf ps) R := by
  intro inp value rest hyields
  obtain ⟨p, hp, hv⟩ := yields_firstOf hyields
  exact h p hp inp value rest hv

theorem recognizes_exactly [DecidableEq τ] (token : τ) (value : α) :
    L.Recognizes (L.exactly token value) fun tokens v ↦ tokens = [token] ∧ v = value := by
  apply (recognizes_accept _).mono
  rintro tokens v ⟨other, rfl, hother⟩
  by_cases h : other = token
  · rw [if_pos h, Option.some.injEq] at hother
    exact ⟨by rw [h], hother.symm⟩
  · rw [if_neg h] at hother
    contradiction

theorem next_of_yields_exactly [DecidableEq τ] {token : τ} {value other : α} {inp rest : Text}
    (h : Yields (L.exactly token value) inp (other, rest)) : L.next inp = some (token, rest) := by
  obtain ⟨tokens, hreads, rfl, -⟩ := recognizes_exactly token value inp other rest h
  exact reads_singleton.mp hreads

theorem recognizes_middle [DecidableEq τ] {R : List τ → α → Prop} (hp : L.Recognizes p R)
    (left right : τ) (x y : β) :
    L.Recognizes (middle (L.exactly left x) p (L.exactly right y)) fun tokens value ↦
      ∃ inner, tokens = left :: (inner ++ [right]) ∧ R inner value := by
  have hright (value : α) : L.Recognizes (replace (L.exactly right y) value) fun tokens v ↦
      tokens = [right] ∧ v = value := by
    unfold replace
    rw [map_exactly]
    exact recognizes_exactly right value
  have hrest : L.Recognizes (p.bind fun value ↦ replace (L.exactly right y) value)
      fun tokens value ↦ ∃ inner, tokens = inner ++ [right] ∧ R inner value := by
    apply hp.bind hright
    rintro ts v us w hR ⟨rfl, rfl⟩
    exact ⟨ts, rfl, hR⟩
  rw [middle_eq_bind]
  apply (recognizes_exactly left x).bind fun _ ↦ hrest
  rintro ts _ us w ⟨rfl, -⟩ ⟨inner, rfl, hR⟩
  exact ⟨inner, rfl, hR⟩

/-! ## Chains -/

section Chains

variable {R S : List τ → α → Prop} {Q : List τ → Operation α → Prop} {op : Parser (Operation α)}

/-- Going on with a left chain keeps what its accumulated value stands for. -/
theorem reads_foldSteps (hp : L.Recognizes p R) (hop : L.Recognizes op Q)
    (hS : ∀ ts x us f ws y z, S ts x → Q us f → R ws y → f x y = .ok z → S (ts ++ (us ++ ws)) z)
    {start inp : Text} {x : α} {tokens : List τ} (hstart : L.Reads start tokens inp)
    (hx : S tokens x) {outcome : α × Text}
    (h : foldSteps (chainStep p op) x inp = .ok outcome) :
    ∃ us, L.Reads start us outcome.2 ∧ S us outcome.1 := by
  -- The tokens read since `start` stand for the accumulated value throughout.
  fun_induction foldSteps (chainStep p op) x inp generalizing tokens with
  | case1 => contradiction
  | case2 x inp hstep =>
    cases h
    exact ⟨tokens, hstart, hx⟩
  | case3 => contradiction
  | case4 x inp f y rest steps hstep shorter z hz ih =>
    obtain ⟨mid, hf, hy⟩ := yields_chainStep ⟨_, hstep, List.mem_cons_self⟩
    obtain ⟨us, hus, hQ⟩ := hop inp f mid hf
    obtain ⟨ws, hws, hR⟩ := hp mid y rest hy
    have hreads : L.Reads start (tokens ++ (us ++ ws)) rest :=
      reads_append.mpr ⟨inp, hstart, reads_append.mpr ⟨mid, hus, hws⟩⟩
    exact ih hreads (hS _ _ _ _ _ _ _ hx hQ hR hz) h
  | case5 x inp f y rest steps hstep notShorter =>
    cases h
    exact ⟨tokens, hstart, hx⟩

theorem recognizes_chainl1 (hp : L.Recognizes p R) (hop : L.Recognizes op Q)
    (hfirst : ∀ ts x, R ts x → S ts x)
    (hS : ∀ ts x us f ws y z, S ts x → Q us f → R ws y → f x y = .ok z → S (ts ++ (us ++ ws)) z) :
    L.Recognizes (chainl1 p op) S := by
  intro inp value rest hyields
  obtain ⟨x, mid, hx, hfold⟩ := yields_chainl1 hyields
  obtain ⟨tokens, htokens, hR⟩ := hp inp x mid hx
  exact reads_foldSteps hp hop hS htokens (hfirst tokens x hR) hfold

/-- Going on with a right chain after an operand reads a chain that starts with the operand. -/
theorem reads_groupRight (hp : L.Recognizes p R) (hop : L.Recognizes op Q)
    (hfirst : ∀ ts x, R ts x → S ts x)
    (hS : ∀ ts x us f ws y z, R ts x → Q us f → S ws y → f x y = .ok z → S (ts ++ (us ++ ws)) z)
    {start inp : Text} {x : α} {tokens : List τ} (hstart : L.Reads start tokens inp)
    (hx : R tokens x) {outcome : α × Text}
    (h : groupRight (chainStep p op) x inp = .ok outcome) :
    ∃ us, L.Reads start us outcome.2 ∧ S us outcome.1 := by
  -- The rest of the chain starts behind the operator, so `start` moves on with each step.
  fun_induction groupRight (chainStep p op) x inp generalizing start tokens outcome with
  | case1 => contradiction
  | case2 x inp hstep =>
    cases h
    exact ⟨tokens, hstart, hfirst tokens x hx⟩
  | case3 x inp f y rest steps hstep shorter ih =>
    obtain ⟨mid, hf, hy⟩ := yields_chainStep ⟨_, hstep, List.mem_cons_self⟩
    obtain ⟨us, hus, hQ⟩ := hop inp f mid hf
    obtain ⟨ws, hws, hR⟩ := hp mid y rest hy
    obtain ⟨⟨z, last⟩, hgroup, happly⟩ := exists_of_bind_eq_ok h
    obtain ⟨value, hvalue, hsame⟩ := exists_of_bind_eq_ok happly
    cases hsame
    obtain ⟨vs, hvs, hSv⟩ := ih hws hR hgroup
    refine ⟨tokens ++ (us ++ vs), ?_, hS _ _ _ _ _ _ _ hx hQ hSv hvalue⟩
    exact reads_append.mpr ⟨inp, hstart, reads_append.mpr ⟨mid, hus, hvs⟩⟩
  | case4 x inp f y rest steps hstep notShorter =>
    cases h
    exact ⟨tokens, hstart, hfirst tokens x hx⟩

theorem recognizes_chainr1 (hp : L.Recognizes p R) (hop : L.Recognizes op Q)
    (hfirst : ∀ ts x, R ts x → S ts x)
    (hS : ∀ ts x us f ws y z, R ts x → Q us f → S ws y → f x y = .ok z → S (ts ++ (us ++ ws)) z) :
    L.Recognizes (chainr1 p op) S := by
  intro inp value rest hyields
  obtain ⟨x, mid, hx, hgroup⟩ := yields_chainr1 hyields
  obtain ⟨tokens, htokens, hR⟩ := hp inp x mid hx
  exact reads_groupRight hp hop hfirst hS htokens hR hgroup

end Chains

/-! ## Recursion -/

theorem nested_succ_eq (body : Parser α → Parser α) (n : Nat) :
    nested body (n + 1) = body (nested body n) := rfl

theorem recognizes_nested {body : Parser α → Parser α} {R : List τ → α → Prop}
    (hbody : ∀ q, L.Recognizes q R → L.Recognizes (body q) R) (n : Nat) :
    L.Recognizes (nested body n) R := by
  induction n with
  | zero => exact fun inp value rest h ↦ absurd h (not_yields_of_error (nested_zero body inp) _)
  | succ n ih =>
    rw [nested_succ_eq]
    exact hbody (nested body n) ih

theorem recognizes_recursive {body : Parser α → Parser α} {R : List τ → α → Prop}
    (h : ∀ n, L.Recognizes (nested body n) R) : L.Recognizes (recursive body) R :=
  fun inp ↦ h (inp.length + 1) inp

end Backtrack.Lexicon
