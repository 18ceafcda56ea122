import Backtrack.Parser.Chain

/-!
# Layout and tokens

Whitespace and comments stand between tokens and carry no value.  A comment starts with `--` and
runs to the end of its line, without the newline.  `layout` reads all the layout there is, and
`lexeme` makes a token out of a parser by reading the layout after it.

An identifier is a lower-case letter and as many letters and digits after it as there are.  The
whole word is read before it is compared with the keywords, so a word that merely starts with a
keyword is an identifier.  A numeral is a chain of digits with nothing between them, folded from the
left: one more digit makes ten times the number so far and the digit.
-/

namespace Backtrack

/-- What a decimal digit stands for. -/
def digitValue (c : Char) : Nat := c.toNat - '0'.toNat

/-- The number that a text of decimal digits stands for. -/
def decimalValue (digits : Text) : Nat := digits.foldl (fun n c ↦ 10 * n + digitValue c) 0

namespace Parser

variable {α : Type}

/-! ## Layout -/

/-- One or more whitespace characters, as many as there are. -/
def spaces : Parser Unit :=
  replace (bind (satisfy Alphabet.isSpace) fun _ ↦ takeWhile Alphabet.isSpace) ()

/-- A comment that starts with `start` and ends before the next newline. -/
def commentLine (start : Text) : Parser Unit :=
  replace (bind (string start) fun _ ↦ takeWhile (· != Alphabet.newline)) ()

/-- A comment in the style of the shipped grammars. -/
def lineComment : Parser Unit := commentLine Alphabet.commentStart

/-- All whitespace and comments at the front, possibly none. -/
def layout : Parser Unit := replace (greedy (firstOf [spaces, lineComment])) ()

/-- Reads `p` and the layout after it. -/
def lexeme (p : Parser α) : Parser α := bind p fun value ↦ replace layout value

/-- Reads the token `text`. -/
def symbol (text : Text) : Parser Text := lexeme (string text)

/-- Reads the layout in front and then `p`. -/
def parse (p : Parser α) : Parser α := bind layout fun _ ↦ p

/-! ## Identifiers -/

/-- A lower-case letter with all the letters and digits after it. -/
def ident : Parser Text :=
  bind lower fun c ↦ map (fun cs ↦ c :: cs) (takeWhile Alphabet.isAlphanumeric)

/-- An `ident` token that is none of the keywords. -/
def identifier (keywords : List Text) : Parser Text :=
  lexeme (bind ident fun name ↦ if keywords.contains name then fail else succeed name)

/-! ## Numerals -/

/-- A natural number in decimal digits, as many as there are. -/
def nat : Parser Nat := chainl1 (map digitValue digit) (succeed fun m n ↦ .ok (10 * m + n))

/-- An integer: a natural number, with a minus sign before it or not. -/
def int : Parser Int :=
  firstOf [bind (char '-') fun _ ↦ map (fun n : Nat ↦ -(n : Int)) nat,
    map (fun n : Nat ↦ (n : Int)) nat]

/-- A natural number as a token. -/
def natural : Parser Nat := lexeme nat

/-- An integer as a token. -/
def integer : Parser Int := lexeme int

end Parser

end Backtrack
