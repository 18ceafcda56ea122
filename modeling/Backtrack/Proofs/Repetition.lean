import Backtrack.Parser.Repetition

/-!
# Repetition as a branching recursion

`repetitions` says what repeating a parser means, without a stack: every outcome that reads
something is followed by all repetitions on what it leaves, and stopping comes last.  The main
statement is that `many`, which works off a stack of frames, is this recursion, with the same
outcomes in the same order and the same fault.  The parser may end in any fault on any text, also
in one that names the text, so the equation fixes the order of its runs as well.

The invariant is that a stack stands for the outcomes of its frames one after the other, where a
frame stands for what the recursion makes of its pending outcomes, and for stopping there.
-/

namespace Backtrack.Parser

variable {α : Type}

/-- The outcome with so many values read before its own. -/
def readAfter (values : List α) (outcome : List α × Text) : List α × Text :=
  (values ++ outcome.1, outcome.2)

@[simp]
theorem readAfter_nil : readAfter ([] : List α) = id := rfl

theorem readAfter_readAfter (front values : List α) (outcome : List α × Text) :
    readAfter front (readAfter values outcome) = readAfter (front ++ values) outcome := by
  simp only [readAfter, List.append_assoc]

/-- All ways to repeat `p`: after each outcome that reads something, in order, all ways to go on
from there, and at the end the way that stops at once. -/
def repetitions (p : Parser α) (inp : Text) : Except Fault (Outcomes (List α)) := do
  let outcomes ← p inp
  let longer ← gather (fun (value, rest) ↦
    if rest.length < inp.length then List.map (readAfter [value]) <$> repetitions p rest
    else pure []) outcomes
  pure (longer ++ [([], inp)])
termination_by inp.length

/-! ## What a stack stands for -/

/-- The repetitions whose first outcome on `inp` is one of these. -/
def repetitionsFrom (p : Parser α) (inp : Text) (outcomes : Outcomes α) :
    Except Fault (Outcomes (List α)) := do
  let longer ← gather (fun (value, rest) ↦
    if rest.length < inp.length then List.map (readAfter [value]) <$> repetitions p rest
    else pure []) outcomes
  pure (longer ++ [([], inp)])

theorem repetitions_of_ok {p : Parser α} {inp : Text} {outcomes : Outcomes α}
    (h : p inp = .ok outcomes) : repetitions p inp = repetitionsFrom p inp outcomes := by
  rw [repetitions, h]
  rfl

theorem repetitions_of_error {p : Parser α} {inp : Text} {fault : Fault}
    (h : p inp = .error fault) : repetitions p inp = .error fault := by
  rw [repetitions, h]
  rfl

theorem repetitionsFrom_skip (p : Parser α) {inp : Text} {outcome : α × Text}
    (h : ¬ outcome.2.length < inp.length) (outcomes : Outcomes α) :
    repetitionsFrom p inp (outcome :: outcomes) = repetitionsFrom p inp outcomes := by
  unfold repetitionsFrom
  rw [gather_cons]
  simp only [if_neg h, pure_eq_ok, ok_bind, List.nil_append]
  cases gather _ outcomes <;> rfl

theorem repetitionsFrom_cons (p : Parser α) {inp : Text} {outcome : α × Text}
    (h : outcome.2.length < inp.length) (outcomes : Outcomes α) :
    repetitionsFrom p inp (outcome :: outcomes) = (do
      let front ← repetitions p outcome.2
      let back ← repetitionsFrom p inp outcomes
      pure (front.map (readAfter [outcome.1]) ++ back)) := by
  unfold repetitionsFrom
  rw [gather_cons]
  simp only [if_pos h]
  cases repetitions p outcome.2 with
  | error fault => rfl
  | ok front => cases gather _ outcomes <;> simp

theorem repetitions_of_nil {p : Parser α} {inp : Text} (h : p inp = .ok []) :
    repetitions p inp = .ok [([], inp)] := by
  rw [repetitions_of_ok h]
  rfl

/-- After an only outcome come all ways to go on from there. -/
theorem repetitions_of_single {p : Parser α} {inp rest : Text} {value : α}
    (h : p inp = .ok [(value, rest)]) (shorter : rest.length < inp.length)
    {found : Outcomes (List α)} (hrest : repetitions p rest = .ok found) :
    repetitions p inp = .ok (found.map (readAfter [value]) ++ [([], inp)]) := by
  rw [repetitions_of_ok h, repetitionsFrom_cons p shorter, hrest]
  rfl

/-- The outcomes that a frame stands for. -/
def Frame.outcomes (p : Parser α) (frame : Frame α) : Except Fault (Outcomes (List α)) :=
  List.map (readAfter frame.values.reverse) <$> repetitionsFrom p frame.rest frame.pending

theorem Frame.outcomes_nil (p : Parser α) (values : List α) (rest : Text) :
    outcomes p ⟨values, rest, []⟩ = .ok [outcome ⟨values, rest, []⟩] := by
  simp [outcomes, repetitionsFrom, readAfter, outcome]

theorem Frame.outcomes_skip (p : Parser α) (values : List α) {rest : Text} {next : α × Text}
    (h : ¬ next.2.length < rest.length) (pending : Outcomes α) :
    outcomes p ⟨values, rest, next :: pending⟩ = outcomes p ⟨values, rest, pending⟩ := by
  simp only [outcomes, repetitionsFrom_skip p h]

theorem Frame.outcomes_error {p : Parser α} (values : List α) {rest : Text} {next : α × Text}
    (h : next.2.length < rest.length) (pending : Outcomes α) {fault : Fault}
    (hp : p next.2 = .error fault) :
    outcomes p ⟨values, rest, next :: pending⟩ = .error fault := by
  simp only [outcomes, repetitionsFrom_cons p h, repetitions_of_error hp, error_bind, error_map]

/-- Going on after a pending outcome puts a frame on top that stands for that outcome's share. -/
theorem Frame.outcomes_push {p : Parser α} (values : List α) {rest : Text} {next : α × Text}
    (h : next.2.length < rest.length) (pending : Outcomes α) {found : Outcomes α}
    (hp : p next.2 = .ok found) :
    outcomes p ⟨values, rest, next :: pending⟩ = (do
      let front ← outcomes p ⟨next.1 :: values, next.2, found⟩
      let back ← outcomes p ⟨values, rest, pending⟩
      pure (front ++ back)) := by
  simp only [outcomes, repetitionsFrom_cons p h, repetitions_of_ok hp]
  cases repetitionsFrom p next.2 found with
  | error fault => rfl
  | ok front =>
    cases repetitionsFrom p rest pending with
    | error fault => rfl
    | ok back => simp [readAfter_readAfter]

/-- Working off a stack yields what its frames stand for, the topmost frame first. -/
theorem explore_eq_gather (p : Parser α) (stack : List (Frame α)) (found : Outcomes (List α)) :
    explore p stack found = (found.reverse ++ ·) <$> gather (Frame.outcomes p) stack := by
  fun_induction explore p stack found with
  | case1 found => simp
  | case2 found values rest below ih =>
    rw [ih, gather_cons, Frame.outcomes_nil]
    cases gather (Frame.outcomes p) below <;> simp
  | case3 found values rest value next pending below shorter fault hp =>
    rw [gather_cons, Frame.outcomes_error values shorter pending hp]
    rfl
  | case4 found values rest value next pending below shorter outcomes hp ih =>
    rw [ih, gather_cons, gather_cons, gather_cons, Frame.outcomes_push values shorter pending hp]
    cases Frame.outcomes p ⟨value :: values, next, outcomes⟩ with
    | error fault => rfl
    | ok front =>
      cases Frame.outcomes p ⟨values, rest, pending⟩ with
      | error fault => rfl
      | ok back => cases gather (Frame.outcomes p) below <;> simp
  | case5 found values rest value next pending below shorter ih =>
    rw [ih, gather_cons, gather_cons, Frame.outcomes_skip p values shorter pending]

/-- The search that starts from the outcomes on `inp` finds the repetitions on `inp`. -/
theorem explore_start {p : Parser α} {inp : Text} {outcomes : Outcomes α}
    (h : p inp = .ok outcomes) : explore p [⟨[], inp, outcomes⟩] [] = repetitions p inp := by
  rw [explore_eq_gather, repetitions_of_ok h]
  simp only [gather_cons, gather_nil, Frame.outcomes, List.reverse_nil]
  cases repetitionsFrom p inp outcomes with
  | error fault => rfl
  | ok found => simp

theorem many_of_error {p : Parser α} {inp : Text} {fault : Fault} (h : p inp = .error fault) :
    many p inp = .error fault := by
  rw [many, h, error_bind]

theorem many_of_ok {p : Parser α} {inp : Text} {outcomes : Outcomes α} (h : p inp = .ok outcomes) :
    many p inp = repetitions p inp := by
  rw [many, h, ok_bind, explore_start h]

/-- The search with a stack ends as the recursion does. -/
theorem many_eq_iff {p : Parser α} {inp : Text} {result : Except Fault (Outcomes (List α))} :
    many p inp = result ↔ repetitions p inp = result := by
  cases hp : p inp with
  | error fault => rw [many_of_error hp, repetitions_of_error hp]
  | ok outcomes => rw [many_of_ok hp]

/-- The search with a stack is the branching recursion. -/
theorem many_eq_repetitions (p : Parser α) (inp : Text) : many p inp = repetitions p inp := by
  unfold many
  cases h : p inp with
  | error fault => rw [repetitions_of_error h, error_bind]
  | ok outcomes => rw [ok_bind, explore_start h]

end Backtrack.Parser
