import Backtrack.Proofs.Outcome

/-!
# Steps of an operator chain

How a chain starts, goes on and ends when its parts have at most one outcome.  A right chain reads
all its steps on to its stacks before it applies an operator; `groupRight` applies each operator when
the rest of the chain has its value.  The main statement is that this makes no difference, faults
included.  What carries it is `fold_append`: the steps that are pushed on the stacks of a chain are
folded from their right end, and the value is that of the latest operand below them.
-/

namespace Backtrack.Parser

variable {α β : Type} {p : Parser α} {op : Parser (Operation α)} {f : Operation α} {x y : α}
  {inp mid rest : Text}

theorem chainStep_of_nil (h : op inp = .ok []) : chainStep p op inp = .ok [] := by
  unfold chainStep
  rw [first_of_ok (bind_of_nil h _), List.take_nil]

/-- After an operator that is read in one way, the step is the preferred outcome of the operand. -/
theorem chainStep_of_single (h : op inp = .ok [(f, mid)]) :
    chainStep p op inp =
      (fun outcomes ↦ (outcomes.take 1).map fun (y, rest) ↦ ((f, y), rest)) <$> p mid := by
  unfold chainStep first
  rw [bind_of_single h]
  unfold map
  cases p mid with
  | error fault => rfl
  | ok outcomes => simp [List.map_take]

theorem eq_nil_of_chainStep_succeed (h : chainStep p (succeed f) inp = .ok []) :
    p inp = .ok [] := by
  rw [chainStep_of_single (succeed_apply f inp)] at h
  cases hp : p inp with
  | error fault => rw [hp] at h; contradiction
  | ok outcomes =>
    rw [hp, ok_map, Except.ok.injEq, List.map_eq_nil_iff] at h
    cases outcomes with
    | nil => rfl
    | cons => contradiction

theorem chainStep_succeed_of_nil (h : p inp = .ok []) : chainStep p (succeed f) inp = .ok [] := by
  rw [chainStep_of_single (succeed_apply f inp), h]
  rfl

/-- A step is the only outcome of its text. -/
theorem length_of_chainStep {steps : Outcomes (Operation α × α)}
    (h : chainStep p op inp = .ok steps) : steps.length ≤ 1 := by
  unfold chainStep first at h
  cases hstep : bind op (fun f ↦ map (fun y ↦ (f, y)) p) inp with
  | error fault => rw [hstep] at h; contradiction
  | ok outcomes =>
    rw [hstep, ok_bind, pure_eq_ok, Except.ok.injEq] at h
    rw [← h]
    exact List.length_take_le 1 outcomes

/-- No text is read in more than one way. -/
def Unambiguous (p : Parser α) : Prop := ∀ inp outcomes, p inp = .ok outcomes → outcomes.length ≤ 1

theorem unambiguous_chainStep (p : Parser α) (op : Parser (Operation α)) :
    Unambiguous (chainStep p op) := fun _ _ ↦ length_of_chainStep

theorem Unambiguous.single (hp : Unambiguous p) {outcome : α × Text} {outcomes : Outcomes α}
    (h : p inp = .ok (outcome :: outcomes)) : p inp = .ok [outcome] := by
  have hle := Nat.le_of_succ_le_succ (hp inp _ h)
  rw [h, List.length_eq_zero_iff.mp (Nat.le_zero.mp hle)]

/-! ## Left chains -/

section Left

variable {step : Parser (Operation α × α)}

theorem foldSteps_of_error {fault : Fault} (h : step inp = .error fault) :
    foldSteps step x inp = .error fault := by
  rw [foldSteps, h]

theorem foldSteps_of_nil (h : step inp = .ok []) : foldSteps step x inp = .ok (x, inp) := by
  rw [foldSteps, h]

theorem foldSteps_of_cons {steps : Outcomes (Operation α × α)}
    (h : step inp = .ok (((f, y), rest) :: steps)) (shorter : rest.length < inp.length) :
    foldSteps step x inp = (do
      let z ← f x y
      foldSteps step z rest) := by
  rw [foldSteps, h]
  simp only [if_pos shorter]
  cases f x y <;> rfl

/-- A left chain ends where no step that reads anything is left. -/
theorem step_of_foldSteps_eq_ok {value : α} (h : foldSteps step x inp = .ok (value, rest)) :
    step rest = .ok [] ∨
    ∃ outcome steps, step rest = .ok (outcome :: steps) ∧ ¬ outcome.2.length < rest.length := by
  fun_induction foldSteps step x inp with
  | case1 => contradiction
  | case2 x inp hstep =>
    cases h
    exact .inl hstep
  | case3 => contradiction
  | case4 x inp f y after steps hstep shorter z hz ih => exact ih h
  | case5 x inp f y after steps hstep notShorter =>
    cases h
    exact .inr ⟨((f, y), after), steps, hstep, notShorter⟩

theorem chainl1_of_error {fault : Fault} (h : p inp = .error fault) :
    chainl1 p op inp = .error fault := by
  simp only [chainl1, h, error_bind]

theorem chainl1_of_nil (h : p inp = .ok []) : chainl1 p op inp = .ok [] := by
  simp [chainl1, h]

theorem chainl1_of_single (h : p inp = .ok [(x, rest)]) :
    chainl1 p op inp = (fun outcome ↦ [outcome]) <$> foldSteps (chainStep p op) x rest := by
  simp only [chainl1, h, ok_bind, List.mapM_cons, List.mapM_nil]
  cases foldSteps (chainStep p op) x rest <;> simp

/-- A left chain that has read a front part of value `result`, and goes on behind it. -/
def chainFrom (p : Parser α) (op : Parser (Operation α)) (result : Except Fault α) (rest : Text) :
    Except Fault (Outcomes α) := do
  let x ← result
  (fun outcome ↦ [outcome]) <$> foldSteps (chainStep p op) x rest

theorem chainl1_of_only {result : Except Fault α} (h : p inp = only result rest) :
    chainl1 p op inp = chainFrom p op result rest := by
  cases result with
  | error fault => exact chainl1_of_error h
  | ok x => exact chainl1_of_single h

theorem chainFrom_of_step {result operand : Except Fault α} (hop : op inp = .ok [(f, mid)])
    (hp : p mid = only operand rest) (shorter : rest.length < inp.length) :
    chainFrom p op result inp =
      chainFrom p op (do
        let x ← result
        let y ← operand
        f x y) rest := by
  cases result with
  | error fault => rfl
  | ok x =>
    simp only [chainFrom, ok_bind]
    cases operand with
    | error fault =>
      have hstep : chainStep p op inp = .error fault := by
        rw [chainStep_of_single hop, hp]
        rfl
      rw [foldSteps_of_error hstep]
      rfl
    | ok y =>
      have hstep : chainStep p op inp = .ok [((f, y), rest)] := by
        rw [chainStep_of_single hop, hp]
        rfl
      rw [foldSteps_of_cons hstep shorter, ok_bind]
      cases f x y <;> rfl

theorem chainFrom_of_nil {result : Except Fault α} (h : chainStep p op inp = .ok []) :
    chainFrom p op result inp = only result inp := by
  cases result with
  | error fault => rfl
  | ok x =>
    simp only [chainFrom, ok_bind, foldSteps_of_nil h]
    rfl

end Left

/-! ## Right chains -/

/-- Folds the steps of a chain that starts with `x` from the right end on. -/
def foldRight (x : α) : List (Operation α × α) → Except Fault α
  | [] => .ok x
  | (f, y) :: steps => do
    let z ← foldRight y steps
    f x z

namespace PendingChain

/-- The latest operand. -/
def top : PendingChain α → α
  | ⟨last :: _, _, _⟩ => last

/-- The value of the chain if its latest operand has this value, with all that is behind it. -/
def finish : PendingChain α → α → Except Fault α
  | ⟨_ :: operands, operators, balanced⟩ => unwind operands operators (length_below balanced)

/-- The chain with these steps behind it. -/
def append (chain : PendingChain α) (steps : List (Operation α × α)) : PendingChain α :=
  steps.foldl (fun chain (f, y) ↦ chain.push f y) chain

theorem fold_eq_finish (chain : PendingChain α) : chain.fold = chain.finish chain.top := by
  obtain ⟨operands, operators, balanced⟩ := chain
  cases operands with
  | nil => contradiction
  | cons last operands => rfl

/-- The operator on top of the stack meets the operand before it. -/
theorem finish_push (chain : PendingChain α) (f : Operation α) (y z : α) :
    (chain.push f y).finish z = (do
      let value ← f chain.top z
      chain.finish value) := by
  obtain ⟨operands, operators, balanced⟩ := chain
  cases operands with
  | nil => contradiction
  | cons last operands => rfl

theorem fold_append (chain : PendingChain α) (steps : List (Operation α × α)) :
    (chain.append steps).fold = (do
      let z ← foldRight chain.top steps
      chain.finish z) := by
  induction steps generalizing chain with
  | nil => exact fold_eq_finish chain
  | cons step steps ih =>
    obtain ⟨f, y⟩ := step
    calc
      (chain.append ((f, y) :: steps)).fold = ((chain.push f y).append steps).fold := rfl
      _ = (do
          let z ← foldRight y steps
          (chain.push f y).finish z) := ih (chain.push f y)
      _ = (do
          let z ← foldRight chain.top ((f, y) :: steps)
          chain.finish z) := by
        simp only [finish_push, foldRight]
        cases foldRight y steps <;> rfl

theorem fold_start_append (x : α) (steps : List (Operation α × α)) :
    ((start x).append steps).fold = foldRight x steps := by
  rw [fold_append]
  change (foldRight x steps >>= fun z ↦ .ok z) = foldRight x steps
  cases foldRight x steps <;> rfl

end PendingChain

/-- Goes on with a right chain after the operand `x`. -/
def groupRight (step : Parser (Operation α × α)) (x : α) (inp : Text) :
    Except Fault (α × Text) :=
  match step inp with
  | .error fault => .error fault
  | .ok [] => .ok (x, inp)
  | .ok (((f, y), rest) :: _) =>
    if rest.length < inp.length then do
      let (z, last) ← groupRight step y rest
      let value ← f x z
      pure (value, last)
    else .ok (x, inp)
termination_by inp.length

section Right

variable {step : Parser (Operation α × α)}

theorem groupRight_of_error {fault : Fault} (h : step inp = .error fault) :
    groupRight step x inp = .error fault := by
  rw [groupRight, h]

theorem groupRight_of_nil (h : step inp = .ok []) : groupRight step x inp = .ok (x, inp) := by
  rw [groupRight, h]

theorem groupRight_of_cons {steps : Outcomes (Operation α × α)}
    (h : step inp = .ok (((f, y), rest) :: steps)) (shorter : rest.length < inp.length) :
    groupRight step x inp = (do
      let (z, last) ← groupRight step y rest
      let value ← f x z
      pure (value, last)) := by
  rw [groupRight, h]
  simp only [if_pos shorter]

theorem repeatFirst_of_not_shorter {outcome : α × Text} (h : p inp = .ok [outcome])
    (notShorter : ¬ outcome.2.length < inp.length) : repeatFirst p inp = .ok ([], inp) := by
  have notFound : firstConsuming inp [outcome] = none := by
    simp [firstConsuming, notShorter]
  rw [repeatFirst, h]
  simp only
  split
  case h_1 => rfl
  case h_2 found => rw [notFound] at found; contradiction

/-- Reading all steps and folding them from the right end is grouping to the right. -/
theorem foldRight_repeatFirst (hstep : Unambiguous step) (x : α) (inp : Text) :
    (do
      let (steps, last) ← repeatFirst step inp
      let value ← foldRight x steps
      pure (value, last)) = groupRight step x inp := by
  fun_induction groupRight step x inp with
  | case1 x inp fault h =>
    rw [repeatFirst, h]
    rfl
  | case2 x inp h =>
    rw [repeatFirst_of_nil h]
    rfl
  | case3 x inp f y rest steps h shorter ih =>
    rw [← ih, repeatFirst_of_single (hstep.single h) shorter]
    cases repeatFirst step rest with
    | error fault => rfl
    | ok run =>
      simp only [ok_bind, pure_eq_ok, foldRight]
      cases foldRight y run.1 <;> rfl
  | case4 x inp f y rest steps h notShorter =>
    rw [repeatFirst_of_not_shorter (hstep.single h) notShorter]
    rfl

/-- The steps that a right chain puts on its stacks are those of the committed repetition. -/
theorem readSteps_eq_map (hstep : Unambiguous step) (chain : PendingChain α) (inp : Text) :
    readSteps step chain inp =
      (fun (steps, last) ↦ (chain.append steps, last)) <$> repeatFirst step inp := by
  fun_induction readSteps step chain inp with
  | case1 chain inp fault h =>
    rw [repeatFirst, h]
    rfl
  | case2 chain inp h =>
    rw [repeatFirst_of_nil h]
    rfl
  | case3 chain inp f y rest steps h shorter ih =>
    rw [ih, repeatFirst_of_single (hstep.single h) shorter]
    cases repeatFirst step rest <;> rfl
  | case4 chain inp f y rest steps h notShorter =>
    rw [repeatFirst_of_not_shorter (hstep.single h) notShorter]
    rfl

/-- The value of the stacks is that of the steps that were put on them. -/
theorem fold_readSteps (hstep : Unambiguous step) (x : α) (inp : Text) :
    (do
      let (chain, last) ← readSteps step (.start x) inp
      let value ← chain.fold
      pure (value, last)) =
    (do
      let (steps, last) ← repeatFirst step inp
      let value ← foldRight x steps
      pure (value, last)) := by
  rw [readSteps_eq_map hstep]
  cases repeatFirst step inp with
  | error fault => rfl
  | ok run => simp only [ok_map, ok_bind, PendingChain.fold_start_append]

/-- A right chain reads all its steps and folds them from the right end. -/
theorem chainr1_apply (p : Parser α) (op : Parser (Operation α)) (inp : Text) :
    chainr1 p op inp = (do
      let outcomes ← p inp
      outcomes.mapM fun (x, rest) ↦ do
        let (steps, last) ← repeatFirst (chainStep p op) rest
        let value ← foldRight x steps
        pure (value, last)) := by
  unfold chainr1
  simp only [fold_readSteps (unambiguous_chainStep p op)]

theorem chainr1_eq_groupRight (p : Parser α) (op : Parser (Operation α)) (inp : Text) :
    chainr1 p op inp = (do
      let outcomes ← p inp
      outcomes.mapM fun (x, rest) ↦ groupRight (chainStep p op) x rest) := by
  rw [chainr1_apply]
  simp only [foldRight_repeatFirst (unambiguous_chainStep p op)]

theorem chainr1_of_error {fault : Fault} (h : p inp = .error fault) :
    chainr1 p op inp = .error fault := by
  rw [chainr1_eq_groupRight, h, error_bind]

theorem chainr1_of_nil (h : p inp = .ok []) : chainr1 p op inp = .ok [] := by
  rw [chainr1_eq_groupRight, h]
  rfl

theorem chainr1_of_single (h : p inp = .ok [(x, rest)]) :
    chainr1 p op inp = (fun outcome ↦ [outcome]) <$> groupRight (chainStep p op) x rest := by
  rw [chainr1_eq_groupRight, h]
  simp only [ok_bind, List.mapM_cons, List.mapM_nil]
  cases groupRight (chainStep p op) x rest <;> simp

theorem chainr1_of_only {result : Except Fault α} (h : p inp = only result rest)
    (hop : op rest = .ok []) : chainr1 p op inp = only result rest := by
  cases result with
  | error fault => exact chainr1_of_error h
  | ok x =>
    rw [chainr1_of_single h, groupRight_of_nil (chainStep_of_nil hop)]
    rfl

end Right

end Backtrack.Parser
