import Backtrack.Parser.Basic

/-!
# Parse errors and position notes

A parse error says what was wrong with a source at a position.  It carries the note on that
position, and more notes can be added to it.

A note says where in a source a position lies, by line and column counted from one, and shows a
piece of that line with a caret under the column.  Lines are counted by newlines.  The line to show
is looked up among the lines of `splitLines`, which knows more separators, and is left out if that
line does not reach to the column.

A position past the end is moved to the end.  A negative position cuts the source that many
characters before its end; line and column are counted from that cut, and the column is then moved
by as much as the cut lies after the position.
-/

namespace Backtrack

/-! ## Lines -/

/-- The characters that end a line. -/
def lineBreaks : List Char :=
  ['\n', '\x0b', '\x0c', '\r', '\x1c', '\x1d', '\x1e', '\x85', '\u2028', '\u2029']

/-- The lines of a text, without their separators.  A carriage return and the newline after it are one
separator, and a separator at the end of the text does not open a line. -/
def splitLines : Text → List Text
  | [] => []
  | '\r' :: '\n' :: rest => [] :: splitLines rest
  | c :: rest =>
    if lineBreaks.contains c then [] :: splitLines rest
    else
      match splitLines rest with
      | [] => [[c]]
      | line :: lines => (c :: line) :: lines

/-! ## Position notes -/

/-- A piece of a line and the place in it under which a caret stands. -/
structure Excerpt where
  window : Text
  caret : Nat
  deriving DecidableEq, Repr

/-- Where a position lies, under an optional heading. -/
structure PositionNote where
  heading : Option String
  position : Int
  line : Nat
  column : Int
  excerpt : Option Excerpt
  deriving DecidableEq, Repr

/-- The columns up to this one are shown from the beginning of the line. -/
def Excerpt.reach : Nat := 20

/-- How much of a line is shown at most. -/
def Excerpt.width : Nat := 40

/-- The piece of the numbered line that shows the column, if the line reaches that far. -/
def Excerpt.of? (source : Text) (line : Nat) (column : Int) : Option Excerpt :=
  match (splitLines source)[line - 1]? with
  | none => none
  | some shown =>
    if (shown.length : Int) < column - 1 then none
    else if column ≤ reach then some ⟨shown.take width, (column - 1).toNat⟩
    else some ⟨(shown.drop (column - reach).toNat).take width, reach - 1⟩

namespace PositionNote

/-- The text before a position; a negative position counts from the end. -/
def textBefore (source : Text) (position : Int) : Text :=
  if position < 0 then source.take (source.length + position).toNat
  else source.take position.toNat

/-- The number of the line that a text ends in. -/
def lastLineNumber (front : Text) : Nat := front.count '\n' + 1

/-- The column after the last character of a text. -/
def lastColumn (front : Text) : Nat := (front.reverse.takeWhile (· != '\n')).length + 1

/-- The note on a position in a source. -/
def locate (source : Text) (position : Int) (heading : Option String) : PositionNote :=
  let position := min position source.length
  let front := textBefore source position
  let line := lastLineNumber front
  let column := lastColumn front + (position - front.length)
  ⟨heading, position, line, column, Excerpt.of? source line column⟩

/-- The note as text: the heading, the place, and the excerpt with its caret, a line each. -/
def render (note : PositionNote) : String :=
  let place := s!"At position {note.position} (line {note.line}, column {note.column})"
  let shown := match note.excerpt with
    | none => []
    | some ⟨window, caret⟩ =>
      [String.ofList window, String.ofList (List.replicate caret ' ' ++ ['^'])]
  "\n".intercalate (note.heading.toList ++ place :: shown)

end PositionNote

/-! ## Parse errors -/

/-- An error in a source, with notes in the order in which they were added. -/
structure ParseError where
  source : Text
  position : Int
  message : Option String
  notes : List PositionNote
  deriving DecidableEq, Repr

namespace ParseError

/-- Adds the note on a position in the source of the error. -/
def annotate (error : ParseError) (position : Int) (heading : Option String) : ParseError :=
  { error with notes := error.notes ++ [PositionNote.locate error.source position heading] }

/-- The error at a position, with the note on it. -/
def make (source : Text) (position : Int) (message : Option String) : ParseError :=
  annotate ⟨source, position, message, []⟩ position none

/-- The message, which is empty if none was given. -/
def summary (error : ParseError) : String := error.message.getD ""

end ParseError

end Backtrack
