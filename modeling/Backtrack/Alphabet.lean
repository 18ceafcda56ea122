/-!
# The alphabets of the lexical layer

Characters are classed by membership in short explicit lists, all of them ASCII.  Each list is in
the order of the code points.
-/

namespace Backtrack.Alphabet

def decimal : List Char := "0123456789".toList

def lowercase : List Char := "abcdefghijklmnopqrstuvwxyz".toList

def uppercase : List Char := "ABCDEFGHIJKLMNOPQRSTUVWXYZ".toList

/-- The Latin letters of both cases. -/
def alphabetic : List Char := uppercase ++ lowercase

/-- Digits and letters. -/
def alphanumeric : List Char := decimal ++ uppercase ++ lowercase

/-- What separates tokens. -/
def whitespace : List Char := ['\t', '\n', ' ']

/-- Ends a line, and with it a comment. -/
def newline : Char := '\n'

/-- Opens a comment, which runs to the end of its line. -/
def commentStart : List Char := "--".toList

def isDecimal (c : Char) : Bool := decimal.contains c

def isLowercase (c : Char) : Bool := lowercase.contains c

def isUppercase (c : Char) : Bool := uppercase.contains c

def isAlphabetic (c : Char) : Bool := alphabetic.contains c

def isAlphanumeric (c : Char) : Bool := alphanumeric.contains c

def isSpace (c : Char) : Bool := whitespace.contains c

/-- Whether `text` is a single character that separates tokens. -/
def isSpaceText : List Char → Bool
  | [c] => isSpace c
  | _ => false

theorem isSpace_iff {c : Char} : isSpace c ↔ c = '\t' ∨ c = '\n' ∨ c = ' ' := by
  simp [isSpace, whitespace]

theorem isAlphabetic_eq (c : Char) : isAlphabetic c = (isUppercase c || isLowercase c) := by
  simp [isAlphabetic, isUppercase, isLowercase, alphabetic, List.contains_eq_mem]

theorem isAlphanumeric_eq (c : Char) :
    isAlphanumeric c = (isDecimal c || isAlphabetic c) := by
  simp [isAlphanumeric, isDecimal, isAlphabetic, alphanumeric, alphabetic,
    List.contains_eq_mem]

end Backtrack.Alphabet
