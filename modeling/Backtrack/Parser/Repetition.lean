import Backtrack.Parser.Choice

/-!
# Repetition and sequences

`many` yields every way to repeat a parser, the longest first; `greedy` yields the preferred of
these only and never builds the others.  Both cut off a repetition that reads nothing, so both end
on every text.

`many` searches depth first with an explicit stack.  Its end is the well-foundedness of
`Frame.Shrinks`: a step works off an outcome of the topmost frame, and a frame that it puts on top
has less text left.

Sequences with separators are repetitions of a separator and a value; `middle` reads a value between
two delimiters.  The values of separators and delimiters are dropped.
-/

namespace Backtrack.Parser

variable {α β γ : Type}

/-- A repetition under way: the values read so far, the latest first, the text left over, and the
outcomes of the next repetition that are still to be tried. -/
structure Frame (α : Type) where
  values : List α
  rest : Text
  pending : Outcomes α

/-- The outcome of stopping at this point. -/
def Frame.outcome (frame : Frame α) : List α × Text := (frame.values.reverse, frame.rest)

/-- One step of the search makes the stack on the left out of the stack on the right. -/
inductive Frame.Shrinks : List (Frame α) → List (Frame α) → Prop
  | pop {values : List α} {rest : Text} {below : List (Frame α)} :
    Shrinks below (⟨values, rest, []⟩ :: below)
  | skip {values : List α} {rest : Text} {outcome : α × Text} {pending : Outcomes α}
      {below : List (Frame α)} :
    Shrinks (⟨values, rest, pending⟩ :: below) (⟨values, rest, outcome :: pending⟩ :: below)
  | push {values : List α} {rest : Text} {outcome : α × Text} {pending : Outcomes α}
      {below : List (Frame α)} {top : Frame α} (shorter : top.rest.length < rest.length) :
    Shrinks (top :: ⟨values, rest, pending⟩ :: below) (⟨values, rest, outcome :: pending⟩ :: below)

theorem Frame.acc_cons (n : Nat) (below : List (Frame α)) (hbelow : Acc Shrinks below)
    (frame : Frame α) (hn : frame.rest.length ≤ n) : Acc Shrinks (frame :: below) := by
  induction n using Nat.strongRecOn generalizing below frame with
  | ind n ih =>
    obtain ⟨values, rest, pending⟩ := frame
    induction pending with
    | nil =>
      refine Acc.intro _ fun stack h ↦ ?_
      cases h
      exact hbelow
    | cons outcome pending tail =>
      refine Acc.intro _ fun stack h ↦ ?_
      cases h with
      | skip => exact tail hn
      | push shorter =>
        exact ih _ (Nat.lt_of_lt_of_le shorter hn) _ (tail hn) _ (Nat.le_refl _)

theorem Frame.shrinks_wf : WellFounded (Shrinks (α := α)) := by
  refine ⟨fun stack ↦ ?_⟩
  induction stack with
  | nil => exact Acc.intro _ fun _ h ↦ nomatch h
  | cons frame below ih => exact acc_cons _ below ih frame (Nat.le_refl _)

instance : WellFoundedRelation (List (Frame α)) := ⟨Frame.Shrinks, Frame.shrinks_wf⟩

/-- Works off a stack of repetitions under way.  A frame with nothing left to try yields its values
after all that the frames above it have yielded. -/
def explore (p : Parser α) (stack : List (Frame α)) (found : Outcomes (List α)) :
    Except Fault (Outcomes (List α)) :=
  match stack with
  | [] => .ok found.reverse
  | ⟨values, rest, []⟩ :: below => explore p below (Frame.outcome ⟨values, rest, []⟩ :: found)
  | ⟨values, rest, (value, next) :: pending⟩ :: below =>
    if next.length < rest.length then
      match p next with
      | .error fault => .error fault
      | .ok outcomes =>
        explore p (⟨value :: values, next, outcomes⟩ :: ⟨values, rest, pending⟩ :: below) found
    else explore p (⟨values, rest, pending⟩ :: below) found
termination_by stack
decreasing_by
  · exact .pop
  · exact .push ‹_›
  · exact .skip

/-- Zero or more repetitions of `p`: every way to stop, the longest first, the outcomes of each
repetition tried in order. -/
def many (p : Parser α) : Parser (List α) := fun inp ↦ do
  let outcomes ← p inp
  explore p [⟨[], inp, outcomes⟩] []

/-- One or more repetitions of `p`. -/
def many1 (p : Parser α) : Parser (List α) :=
  bind p fun x ↦ map (fun xs ↦ x :: xs) (many p)

/-- The first of `outcomes` that leaves less than `rest`. -/
def firstConsuming (rest : Text) (outcomes : Outcomes α) : Option (α × Text) :=
  outcomes.find? fun outcome ↦ outcome.2.length < rest.length

theorem length_of_firstConsuming {rest : Text} {outcomes : Outcomes α} {outcome : α × Text}
    (h : firstConsuming rest outcomes = some outcome) : outcome.2.length < rest.length := by
  simpa using List.find?_some h

/-- Repeats `p` from `inp` on, each time with its first outcome that reads something. -/
def repeatFirst (p : Parser α) (inp : Text) : Except Fault (List α × Text) :=
  match p inp with
  | .error fault => .error fault
  | .ok outcomes =>
    match _found : firstConsuming inp outcomes with
    | none => .ok ([], inp)
    | some (value, rest) => do
      let (values, last) ← repeatFirst p rest
      pure (value :: values, last)
termination_by inp.length
decreasing_by exact length_of_firstConsuming ‹_›

/-- The longest repetition of `p`, committed at each step to the first outcome that reads
something. -/
def greedy (p : Parser α) : Parser (List α) := fun inp ↦ do
  let run ← repeatFirst p inp
  pure [run]

/-! ## Sequences -/

/-- Reads `left`, `mid` and `right` and keeps the value of `mid`. -/
def middle (left : Parser β) (mid : Parser α) (right : Parser γ) : Parser α := do
  let _ ← left
  let x ← mid
  right.replace x

/-- One or more of `p`, with `sep` between each two. -/
def sepBy1 (p : Parser α) (sep : Parser β) : Parser (List α) :=
  bind p fun x ↦ map (fun xs ↦ x :: xs) (many (bind sep fun _ ↦ p))

/-- Any number of `p`, with `sep` between each two; the empty list comes last. -/
def sepBy (p : Parser α) (sep : Parser β) : Parser (List α) := anyOf [sepBy1 p sep, succeed []]

end Backtrack.Parser
