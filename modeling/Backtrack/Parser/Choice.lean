import Backtrack.Parser.Character

/-!
# Choice between parsers

`anyOf` lets every alternative contribute its outcomes; `firstOf` commits to the first outcome of
the first alternative that has one and does not run the alternatives after it, so that a fault in
one of those is not met.
-/

namespace Backtrack.Parser

variable {α : Type}

/-- The outcomes of all alternatives, in the order of the alternatives. -/
def anyOf (ps : List (Parser α)) : Parser α := fun inp ↦ gather (· inp) ps

/-- Keeps the preferred outcome of `p` only. -/
def first (p : Parser α) : Parser α := fun inp ↦ do
  let outcomes ← p inp
  pure (outcomes.take 1)

/-- The preferred outcome of the first alternative that has one. -/
def firstOf : List (Parser α) → Parser α
  | [] => fail
  | p :: ps => fun inp ↦ do
    match ← p inp with
    | [] => firstOf ps inp
    | outcome :: _ => pure [outcome]

/-- Reads a letter. -/
def letter : Parser Char := anyOf [lower, upper]

/-- Reads a letter or a digit. -/
def alphanumeric : Parser Char := anyOf [letter, digit]

@[simp]
theorem anyOf_nil (inp : Text) : anyOf ([] : List (Parser α)) inp = .ok [] := rfl

theorem anyOf_cons (p : Parser α) (ps : List (Parser α)) (inp : Text) :
    anyOf (p :: ps) inp = (do
      let front ← p inp
      let back ← anyOf ps inp
      pure (front ++ back)) := by
  simp [anyOf]

theorem first_of_ok {p : Parser α} {inp : Text} {outcomes : Outcomes α} (h : p inp = .ok outcomes) :
    first p inp = .ok (outcomes.take 1) := by
  simp [first, h]

theorem first_of_error {p : Parser α} {inp : Text} {fault : Fault} (h : p inp = .error fault) :
    first p inp = .error fault := by
  simp [first, h]

@[simp]
theorem firstOf_nil (inp : Text) : firstOf ([] : List (Parser α)) inp = .ok [] := rfl

theorem firstOf_cons_of_nil {p : Parser α} {inp : Text} (h : p inp = .ok [])
    (ps : List (Parser α)) : firstOf (p :: ps) inp = firstOf ps inp := by
  simp [firstOf, h]

theorem firstOf_cons_of_cons {p : Parser α} {inp : Text} {outcome : α × Text}
    {outcomes : Outcomes α} (h : p inp = .ok (outcome :: outcomes)) (ps : List (Parser α)) :
    firstOf (p :: ps) inp = .ok [outcome] := by
  simp [firstOf, h]

theorem firstOf_cons_of_error {p : Parser α} {inp : Text} {fault : Fault} (h : p inp = .error fault)
    (ps : List (Parser α)) : firstOf (p :: ps) inp = .error fault := by
  simp [firstOf, h]

end Backtrack.Parser
