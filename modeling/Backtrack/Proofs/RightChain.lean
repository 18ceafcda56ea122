import Backtrack.Proofs.Chain

/-!
# Right chains and their recursive definition

A right chain is read on to two stacks, which are emptied when the chain ends.  The main statement is
that it amounts to the recursion on what is behind the first operator: the value of a chain is the
first operator applied to the first operand and to the value of the chain behind it.

It holds for parsers that may be ambiguous and may fault, and for operators that may be undefined.
Which fault is met is said by the order of the work: the chain is read to its end first, and its
operators are applied from the right end on.
-/

namespace Backtrack.Parser

variable {α : Type} {p : Parser α} {op : Parser (Operation α)} {step : Parser (Operation α × α)}
  {x : α} {steps : List (Operation α × α)} {inp : Text} {fault : Fault}

/-- The recursion looks at the preferred outcome of a step only. -/
theorem groupRight_first (step : Parser (Operation α × α)) (x : α) (inp : Text) :
    groupRight (first step) x inp = groupRight step x inp := by
  fun_induction groupRight step x inp with
  | case1 x inp fault h => exact groupRight_of_error (first_of_error h)
  | case2 x inp h => exact groupRight_of_nil (first_of_ok h)
  | case3 x inp f y rest others h shorter ih =>
    rw [groupRight_of_cons (first_of_ok h) shorter, ih]
  | case4 x inp f y rest others h notShorter =>
    have hfirst : first step inp = .ok [((f, y), rest)] := first_of_ok h
    rw [groupRight, hfirst]
    exact if_neg notShorter

/-! ## The fault of a fold -/

/-- The operand that a chain of these steps behind `x` ends with. -/
def lastOperand (x : α) : List (Operation α × α) → α
  | [] => x
  | (_, y) :: steps => lastOperand y steps

/-- An operator of the chain is undefined on the operand before it and the value of what is behind
it.  What is behind it has a value, so no operator further to the right is undefined. -/
def FaultsFromRight (x : α) (steps : List (Operation α × α)) (fault : Fault) : Prop :=
  ∃ before f y after z, steps = before ++ (f, y) :: after ∧ foldRight y after = .ok z ∧
    f (lastOperand x before) z = .error fault

theorem foldRight_eq_error_iff : foldRight x steps = .error fault ↔ FaultsFromRight x steps fault := by
  induction steps generalizing x with
  | nil =>
    constructor
    · intro h
      contradiction
    · rintro ⟨before, f, y, after, z, hsteps, -⟩
      exact absurd hsteps.symm (List.append_ne_nil_of_right_ne_nil _ (List.cons_ne_nil _ _))
  | cons step steps ih =>
    obtain ⟨f, y⟩ := step
    constructor
    · intro h
      rw [foldRight] at h
      cases hbehind : foldRight y steps with
      | error other =>
        rw [hbehind] at h
        cases h
        obtain ⟨before, g, y', after, z, rfl, hz, hfault⟩ := ih.mp hbehind
        exact ⟨(f, y) :: before, g, y', after, z, rfl, hz, hfault⟩
      | ok z =>
        rw [hbehind] at h
        exact ⟨[], f, y, steps, z, rfl, hbehind, h⟩
    · rintro ⟨before, g, y', after, z, hsteps, hz, hfault⟩
      rw [foldRight]
      cases before with
      | nil =>
        cases hsteps
        rw [hz]
        exact hfault
      | cons head before =>
        rw [List.cons_append, List.cons.injEq] at hsteps
        obtain ⟨rfl, rfl⟩ := hsteps
        have hbehind : foldRight y (before ++ (g, y') :: after) = .error fault :=
          ih.mpr ⟨before, g, y', after, z, rfl, hz, hfault⟩
        rw [hbehind]
        rfl

/-- The recursion faults where a step cannot be read, and otherwise where the fold of all steps
does. -/
theorem groupRight_eq_error_iff (hstep : Unambiguous step) :
    groupRight step x inp = .error fault ↔
      repeatFirst step inp = .error fault ∨
      ∃ steps last, repeatFirst step inp = .ok (steps, last) ∧ FaultsFromRight x steps fault := by
  rw [← foldRight_repeatFirst hstep]
  cases repeatFirst step inp with
  | error other => simp
  | ok run =>
    obtain ⟨steps, last⟩ := run
    cases hfold : foldRight x steps with
    | error other => simp [← foldRight_eq_error_iff, hfold]
    | ok value => simp [← foldRight_eq_error_iff, hfold]

/-- A right chain is its recursive definition on every text, for each outcome of the first operand.
The recursion faults if the chain cannot be read to its end; if it can, the fault is that of the
first operator from the right end which is undefined. -/
theorem chainr1_eq_recursion (p : Parser α) (op : Parser (Operation α)) (inp : Text) :
    chainr1 p op inp = (do
      let outcomes ← p inp
      outcomes.mapM fun (x, rest) ↦
        groupRight (bind op fun f ↦ map (fun y ↦ (f, y)) p) x rest) ∧
    ∀ x rest fault,
      groupRight (bind op fun f ↦ map (fun y ↦ (f, y)) p) x rest = .error fault ↔
        repeatFirst (chainStep p op) rest = .error fault ∨
        ∃ steps last, repeatFirst (chainStep p op) rest = .ok (steps, last) ∧
          FaultsFromRight x steps fault := by
  have hfirst (x : α) (rest : Text) : groupRight (chainStep p op) x rest =
      groupRight (bind op fun f ↦ map (fun y ↦ (f, y)) p) x rest := groupRight_first _ x rest
  constructor
  · rw [chainr1_eq_groupRight]
    simp only [hfirst]
  · intro x rest fault
    rw [← hfirst]
    exact groupRight_eq_error_iff (unambiguous_chainStep p op)

end Backtrack.Parser
