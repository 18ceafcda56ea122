import Backtrack.Diagnostic
import Backtrack.Lexical
import Backtrack.Quoted

/-!
# Parsing whole texts

A parser accepts a text if, after the layout in front, one of its outcomes leaves nothing over.
`attempt` tells by a `Verdict`, with the number of such outcomes or the furthest position that any
outcome reached, `run` yields the value or a `ParseError`, and `parseAll` yields the values of all
complete outcomes.

An attempt logs its start before the parser is run, so an abandoned one has a record, too.  The
furthest position is negative for a parser that leaves more than the text it is given; the report
then takes the character at that position from the end, and the attempt is abandoned where there is
none.
-/

namespace Backtrack

variable {α : Type}

/-- The value of the preferred complete outcome and the number of complete outcomes. -/
structure Accepted (α : Type) where
  value : α
  alternatives : Int := 1
  deriving DecidableEq, Repr

/-- Why a text was not accepted, and where. -/
structure Failure where
  source : Text
  position : Int
  message : Option String
  deriving DecidableEq, Repr

/-- How an attempt to parse a whole text ended. -/
inductive Verdict (α : Type) where
  | accepted (result : Accepted α)
  | failed (failure : Failure)
  deriving DecidableEq, Repr

/-- What an attempt reports while it is under way. -/
inductive LogRecord where
  | started (length : Nat)
  | ambiguous (count : Nat)
  | failed (position : Int) (message : String)
  deriving DecidableEq, Repr

/-- How an attempt ended, with a verdict or with a fault, and the records made on the way. -/
structure Attempt (α : Type) where
  result : Except Fault (Verdict α)
  log : List LogRecord

/-- Why `run` yields no value. -/
inductive RunError where
  | fault (fault : Fault)
  | parse (error : ParseError)
  deriving DecidableEq, Repr

/-- Whether the text was read in more ways than one. -/
def Accepted.isAmbiguous (result : Accepted α) : Bool := 1 < result.alternatives

/-- The result as text, its value written by `render`. -/
def Accepted.describe (render : α → String) (result : Accepted α) : String :=
  let value := render result.value
  if result.isAmbiguous then s!"<Accepted {value} (1 of {result.alternatives})>"
  else s!"<Accepted {value}>"

/-- The failure as an error that can be raised. -/
def Failure.toError (failure : Failure) : ParseError :=
  .make failure.source failure.position failure.message

/-- The failure as text. -/
def Failure.describe (failure : Failure) : String :=
  let message := failure.message.getD "None"
  s!"<ParseFailure at {failure.position}: {message}>"

/-- The record as text; `label` stands for the parser. -/
def LogRecord.message (label : String) : LogRecord → String
  | .started length => s!"parsing {length} characters with {label}"
  | .ambiguous count => s!"ambiguous input, {count} complete parses, taking the first"
  | .failed position message => s!"parse failed at position {position}: {message}"

/-- What is said about the character on which a parse failed, if there is one. -/
def unexpected : Option Char → String
  | none => "Unexpected end of input."
  | some c =>
    let shown := String.ofList (quoted [c])
    s!"Unexpected character {shown}."

/-- The character at a position; a negative position counts from the end of the text. -/
def characterAt (text : Text) (position : Int) : Except Fault Char :=
  let place := if position < 0 then text.length + position else position
  match if place < 0 then none else text[place.toNat]? with
  | some c => .ok c
  | none => .error .outsideText

/-- What is said about a text of which nothing was accepted, at the furthest position. -/
def complaint (text : Text) (position : Int) : Except Fault String :=
  if position < text.length then do
    let c ← characterAt text position
    pure (unexpected (some c))
  else pure (unexpected none)

/-- The values of the outcomes that leave nothing over. -/
def completeValues (outcomes : Outcomes α) : List α :=
  outcomes.filterMap fun (value, rest) ↦ if rest.isEmpty then some value else none

namespace Parser

/-- How little of the text any of these outcomes of a parse leaves over; what the layout in front
leaves over if there is no outcome. -/
def leastRest (text : Text) (outcomes : Outcomes α) : Except Fault Nat :=
  match (outcomes.map fun (_, rest) ↦ rest.length).min? with
  | some least => pure least
  | none => do
    match ← layout text with
    | [] => pure text.length
    | (_, rest) :: _ => pure rest.length

/-- The furthest position that these outcomes of a parse have reached, and what is said about it. -/
def furthest (text : Text) (outcomes : Outcomes α) : Except Fault (Int × String) := do
  let least ← leastRest text outcomes
  let position : Int := text.length - least
  let message ← complaint text position
  pure (position, message)

/-- Parses a whole text, accepting the first complete outcome. -/
def attempt (p : Parser α) (text : Text) : Attempt α :=
  let started := LogRecord.started text.length
  match parse p text with
  | .error fault => ⟨.error fault, [started]⟩
  | .ok outcomes =>
    match completeValues outcomes with
    | [value] => ⟨.ok (.accepted ⟨value, 1⟩), [started]⟩
    | value :: others =>
      let count := others.length + 1
      ⟨.ok (.accepted ⟨value, count⟩), [started, .ambiguous count]⟩
    | [] =>
      match furthest text outcomes with
      | .error fault => ⟨.error fault, [started]⟩
      | .ok (position, message) =>
        ⟨.ok (.failed ⟨text, position, some message⟩), [started, .failed position message]⟩

/-- The value of the first complete outcome. -/
def run (p : Parser α) (text : Text) : Except RunError α :=
  match (attempt p text).result with
  | .error fault => .error (.fault fault)
  | .ok (.accepted result) => .ok result.value
  | .ok (.failed failure) => .error (.parse failure.toError)

/-- The values of all complete outcomes, in order of preference. -/
def parseAll (p : Parser α) (text : Text) : Except Fault (List α) := do
  let outcomes ← parse p text
  pure (completeValues outcomes)

end Parser

end Backtrack
