import Backtrack.Proofs.Definite
import Backtrack.Proofs.Recognition

/-!
# Where a fault comes from

A run that is abandoned is traced back to a cause in its text, with one lemma for each combinator
of the token parsers.  None of them catches a fault or makes one up, so a fault comes from a part of
the parser that was run behind some tokens of the text, or from an operator of a chain that is
undefined on its operands.
-/

namespace Backtrack

/-- What a fault is put down to.  A cause behind some tokens of a text is a cause in the text. -/
structure Cause {τ : Type} (L : Lexicon τ) where
  Explains : Text → Fault → Prop
  of_reads {inp rest : Text} {tokens : List τ} {fault : Fault} (hreads : L.Reads inp tokens rest)
    (h : Explains rest fault) : Explains inp fault

namespace Parser

variable {τ α β γ : Type} {L : Lexicon τ} {C : Cause L} {p : Parser α} {R : List τ → α → Prop}

/-- Every fault that a run is abandoned with has its cause in the text of the run. -/
def Explained (C : Cause L) (p : Parser α) : Prop :=
  ∀ inp fault, p inp = .error fault → C.Explains inp fault

theorem explains_of_yields (hp : L.Recognizes p R) {inp rest : Text} {value : α} {fault : Fault}
    (h : Yields p inp (value, rest)) (hrest : C.Explains rest fault) : C.Explains inp fault := by
  obtain ⟨tokens, hreads, -⟩ := hp inp value rest h
  exact C.of_reads hreads hrest

theorem explained_accept (choose : τ → Option α) : Explained C (L.accept choose) := by
  intro inp fault h
  rcases L.accept_cases choose inp with hnil | ⟨token, value, rest, -, -, hsingle⟩
  · cases hnil.symm.trans h
  · cases hsingle.symm.trans h

theorem Explained.bind (hp : L.Recognizes p R) (h : Explained C p) {f : α → Parser β}
    (hf : ∀ value, Explained C (f value)) : Explained C (p.bind f) := by
  intro inp fault hfault
  rcases error_or_ok_of_bind_eq_error hfault with hrun | ⟨outcomes, hrun, hgather⟩
  · exact h inp fault hrun
  · obtain ⟨⟨value, rest⟩, hmem, hbehind⟩ := exists_of_gather_eq_error hgather
    exact explains_of_yields hp ⟨outcomes, hrun, hmem⟩ (hf value rest fault hbehind)

theorem Explained.map (h : Explained C p) (f : α → β) : Explained C (p.map f) := by
  intro inp fault hfault
  rcases error_or_ok_of_bind_eq_error hfault with hrun | ⟨outcomes, -, hok⟩
  · exact h inp fault hrun
  · contradiction

theorem Explained.first (h : Explained C p) : Explained C (first p) := by
  intro inp fault hfault
  rcases error_or_ok_of_bind_eq_error hfault with hrun | ⟨outcomes, -, hok⟩
  · exact h inp fault hrun
  · contradiction

theorem explained_firstOf {ps : List (Parser α)} (h : ∀ p ∈ ps, Explained C p) :
    Explained C (firstOf ps) := by
  intro inp fault hfault
  obtain ⟨before, p, after, rfl, -, hp⟩ := firstOf_eq_error_iff.mp hfault
  exact h p List.mem_append_cons_self inp fault hp

theorem Explained.middle [DecidableEq τ] (hp : L.Recognizes p R) (h : Explained C p)
    (left right : τ) (x y : β) :
    Explained C (middle (L.exactly left x) p (L.exactly right y)) := by
  have hleft : Explained C (L.exactly left x) := explained_accept _
  have hright : Explained C (L.exactly right y) := explained_accept _
  rw [middle_eq_bind]
  exact hleft.bind (Lexicon.recognizes_exactly left x) fun _ ↦
    h.bind hp fun value ↦ hright.map fun _ ↦ value

/-! ## Chains -/

section Chains

variable {op : Parser (Operation α)} {Q : List τ → Operation α → Prop}

theorem Explained.chainStep (hopRecognizes : L.Recognizes op Q) (hop : Explained C op)
    (hp : Explained C p) : Explained C (chainStep p op) :=
  (hop.bind hopRecognizes fun f ↦ hp.map fun y ↦ (f, y)).first

theorem explains_of_chainStep (hp : L.Recognizes p R) (hop : L.Recognizes op Q)
    {inp rest : Text} {f : Operation α} {y : α} {fault : Fault}
    (h : Yields (Parser.chainStep p op) inp ((f, y), rest)) (hrest : C.Explains rest fault) :
    C.Explains inp fault := by
  obtain ⟨mid, hf, hy⟩ := yields_chainStep h
  exact explains_of_yields hop hf (explains_of_yields hp hy hrest)

theorem explains_of_foldSteps (hp : L.Recognizes p R) (hop : L.Recognizes op Q)
    (hstep : Explained C (chainStep p op)) (htotal : RaisesOnly (fun _ ↦ False) op) {x : α}
    {inp : Text} {fault : Fault} (h : foldSteps (chainStep p op) x inp = .error fault) :
    C.Explains inp fault := by
  fun_induction foldSteps (chainStep p op) x inp with
  | case1 x inp other hrun =>
    cases h
    exact hstep inp fault hrun
  | case2 => contradiction
  | case3 x inp f y rest steps hrun shorter other hz =>
    obtain ⟨mid, hf, -⟩ := yields_chainStep ⟨_, hrun, List.mem_cons_self⟩
    exact (htotal inp f mid hf x y other hz).elim
  | case4 x inp f y rest steps hrun shorter z hz ih =>
    exact explains_of_chainStep hp hop ⟨_, hrun, List.mem_cons_self⟩ (ih h)
  | case5 => contradiction

theorem Explained.chainl1 (hpRecognizes : L.Recognizes p R) (hopRecognizes : L.Recognizes op Q)
    (hp : Explained C p) (hop : Explained C op) (htotal : RaisesOnly (fun _ ↦ False) op) :
    Explained C (chainl1 p op) := by
  have hstep := hop.chainStep hopRecognizes hp
  intro inp fault hfault
  rcases error_or_ok_of_bind_eq_error hfault with hrun | ⟨outcomes, hrun, hfolds⟩
  · exact hp inp fault hrun
  · obtain ⟨⟨x, rest⟩, hmem, hfold⟩ := exists_of_mapM_eq_error hfolds
    have hrest := explains_of_foldSteps hpRecognizes hopRecognizes hstep htotal hfold
    exact explains_of_yields hpRecognizes ⟨outcomes, hrun, hmem⟩ hrest

/-- An operator that is undefined on an operand and the value of the right chain behind it has its
cause where the operand starts. -/
def OperatorsExplained (C : Cause L) (p : Parser α) (op : Parser (Operation α)) : Prop :=
  ∀ {start inp mid rest last : Text} {f : Operation α} {x y z : α} {fault : Fault},
    Yields p start (x, inp) → Yields op inp (f, mid) → Yields p mid (y, rest) →
    groupRight (chainStep p op) y rest = .ok (z, last) → f x z = .error fault →
    C.Explains start fault

/-- The last operand read starts at `start`, which moves on with every step. -/
theorem explains_of_groupRight (hp : L.Recognizes p R) (hop : L.Recognizes op Q)
    (hstep : Explained C (chainStep p op)) (hoperators : OperatorsExplained C p op)
    {start inp : Text} {x : α} {fault : Fault} (hx : Yields p start (x, inp))
    (h : groupRight (chainStep p op) x inp = .error fault) : C.Explains start fault := by
  fun_induction groupRight (chainStep p op) x inp generalizing start with
  | case1 x inp other hrun =>
    cases h
    exact explains_of_yields hp hx (hstep inp fault hrun)
  | case2 => contradiction
  | case3 x inp f y rest steps hrun shorter ih =>
    obtain ⟨mid, hf, hy⟩ := yields_chainStep ⟨_, hrun, List.mem_cons_self⟩
    rcases error_or_ok_of_bind_eq_error h with hgroup | ⟨⟨z, last⟩, hgroup, happly⟩
    · exact explains_of_yields hp hx (explains_of_yields hop hf (ih hy hgroup))
    · rcases error_or_ok_of_bind_eq_error happly with hz | ⟨value, -, hok⟩
      · exact hoperators hx hf hy hgroup hz
      · contradiction
  | case4 => contradiction

theorem Explained.chainr1 (hpRecognizes : L.Recognizes p R) (hopRecognizes : L.Recognizes op Q)
    (hp : Explained C p) (hop : Explained C op) (hoperators : OperatorsExplained C p op) :
    Explained C (chainr1 p op) := by
  have hstep := hop.chainStep hopRecognizes hp
  intro inp fault hfault
  rw [chainr1_eq_groupRight] at hfault
  rcases error_or_ok_of_bind_eq_error hfault with hrun | ⟨outcomes, hrun, hgroups⟩
  · exact hp inp fault hrun
  · obtain ⟨⟨x, rest⟩, hmem, hgroup⟩ := exists_of_mapM_eq_error hgroups
    exact explains_of_groupRight hpRecognizes hopRecognizes hstep hoperators
      ⟨outcomes, hrun, hmem⟩ hgroup

end Chains

/-! ## Recursion -/

/-- If a rule that is nested too deep needs no other cause, one with an explained body is
explained. -/
theorem explained_nested {body : Parser α → Parser α}
    (hdeep : ∀ inp, C.Explains inp .nestingTooDeep)
    (hbody : ∀ n, Explained C (nested body n) → Explained C (body (nested body n))) (n : Nat) :
    Explained C (nested body n) := by
  induction n with
  | zero =>
    intro inp fault h
    cases h
    exact hdeep inp
  | succ n ih => exact fun inp ↦ hbody n ih inp

end Parser

end Backtrack
