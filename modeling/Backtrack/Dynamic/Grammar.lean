import Backtrack.Parser.Chain
import Backtrack.Lexical
import Backtrack.Quoted

/-!
# Grammars with references to rules

A grammar is a parser that is given once the rules it mentions are given.  A rule is mentioned by
its place among the rules that were declared, or by a name that is looked up whenever it is run.

The builders of this module refuse arguments that make no sense for them, by telling what is wrong
in a `Malformed`, before any text is read.
-/

namespace Backtrack.Dynamic

/-- A mention of a rule. -/
inductive Rule where
  /-- The rule that was declared at this place. -/
  | declared (index : Nat)
  /-- What the name is bound to at the time of the run. -/
  | named (name : String)
  deriving DecidableEq, Repr

/-- A parser of `α` over rules that are parsers of `ρ`. -/
abbrev Grammar (ρ α : Type) := (Rule → Parser ρ) → Parser α

/-- What is wrong with the arguments of a builder. -/
inductive Malformed where
  /-- A choice between fewer than two parsers. -/
  | tooFewAlternatives
  /-- An operator table without operators. -/
  | noOperators
  /-- A comment that starts with nothing. -/
  | emptyCommentStart
  /-- A text in place of a single character. -/
  | notOneCharacter (text : Text)
  deriving DecidableEq, Repr

/-- What is said about a malformed argument. -/
def Malformed.message : Malformed → String
  | .tooFewAlternatives => "At least two parsers required."
  | .noOperators => "At least one operator required."
  | .emptyCommentStart => "The comment marker can't be empty."
  | .notOneCharacter text =>
    let shown := String.ofList (quoted text)
    s!"Expected a single character, got {shown}."

namespace Grammar

variable {ρ α β : Type}

/-- The grammar that mentions no rule. -/
def closed (p : Parser α) : Grammar ρ α := fun _ ↦ p

/-- The grammar that is a single rule. -/
def rule (mention : Rule) : Grammar ρ ρ := fun rules ↦ rules mention

/-- The character that a text consists of. -/
def char? : Text → Except Malformed (Parser Char)
  | [c] => .ok (.char c)
  | text => .error (.notOneCharacter text)

/-- A comment up to the end of the line, with the given start. -/
def commentLine? : Text → Except Malformed (Parser Unit)
  | [] => .error .emptyCommentStart
  | start => .ok (.commentLine start)

/-- The outcomes of at least two alternatives. -/
def anyOf? (alternatives : List (Grammar ρ α)) : Except Malformed (Grammar ρ α) :=
  if alternatives.length < 2 then .error .tooFewAlternatives
  else .ok fun rules ↦ .anyOf (alternatives.map (· rules))

/-- The preferred outcome of the first of at least two alternatives that has one. -/
def firstOf? (alternatives : List (Grammar ρ α)) : Except Malformed (Grammar ρ α) :=
  if alternatives.length < 2 then .error .tooFewAlternatives
  else .ok fun rules ↦ .firstOf (alternatives.map (· rules))

/-- A table of at least one operator. -/
def operators? (table : List (Grammar ρ β × α)) : Except Malformed (Grammar ρ α) :=
  if table.isEmpty then .error .noOperators
  else .ok fun rules ↦ .operators (table.map fun (token, action) ↦ (token rules, action))

end Grammar

end Backtrack.Dynamic
