import Backtrack.Parser.Basic
import Backtrack.Alphabet

/-!
# Parsers of characters and runs of characters

Single characters, fixed strings, runs of characters of one class, and the end of the text.  A run
is read in one scan: `takeWhile` stops as late as it can, `word` yields every place to stop.
-/

namespace Backtrack.Parser

/-- Reads any single character. -/
def item : Parser Char
  | [] => .ok []
  | c :: rest => .ok [(c, rest)]

/-- Reads a single character of which `accepts` holds. -/
def satisfy (accepts : Char → Bool) : Parser Char :=
  bind item fun c ↦ if accepts c then succeed c else fail

/-- Reads the character `c`. -/
def char (c : Char) : Parser Char := satisfy (· == c)

/-- Reads the text `text`; the empty one is found everywhere. -/
def string (text : Text) : Parser Text := fun inp ↦
  if text.isPrefixOf inp then .ok [(text, inp.drop text.length)] else .ok []

/-- Matches at the end of the text only. -/
def eof : Parser Unit
  | [] => .ok [((), [])]
  | _ :: _ => .ok []

/-- Reads a decimal digit. -/
def digit : Parser Char := satisfy Alphabet.isDecimal

def lower : Parser Char := satisfy Alphabet.isLowercase

def upper : Parser Char := satisfy Alphabet.isUppercase

/-- The place of the first character of which `accepts` does not hold, or the end of the text. -/
def runLength (accepts : Char → Bool) (inp : Text) : Nat := inp.findIdx fun c ↦ !accepts c

/-- Reads the longest run, possibly empty, of characters of which `accepts` holds. -/
def takeWhile (accepts : Char → Bool) : Parser Text := fun inp ↦
  let stop := runLength accepts inp
  .ok [(inp.take stop, inp.drop stop)]

/-- Reads a run of letters, possibly empty, and yields every place to stop, the longest first. -/
def word : Parser Text := fun inp ↦
  let longest := runLength Alphabet.isAlphabetic inp
  .ok ((List.range (longest + 1)).reverse.map fun n ↦ (inp.take n, inp.drop n))

@[simp]
theorem item_nil : item [] = .ok [] := rfl

@[simp]
theorem item_cons (c : Char) (rest : Text) : item (c :: rest) = .ok [(c, rest)] := rfl

@[simp]
theorem satisfy_nil (accepts : Char → Bool) : satisfy accepts [] = .ok [] := rfl

@[simp]
theorem satisfy_cons (accepts : Char → Bool) (c : Char) (rest : Text) :
    satisfy accepts (c :: rest) = .ok (if accepts c then [(c, rest)] else []) := by
  rw [satisfy, bind_of_ok (item_cons c rest)]
  by_cases h : accepts c <;> simp [h]

@[simp]
theorem string_nil (inp : Text) : string [] inp = .ok [([], inp)] := by
  simp [string]

@[simp]
theorem runLength_nil (accepts : Char → Bool) : runLength accepts [] = 0 := rfl

theorem runLength_cons (accepts : Char → Bool) (c : Char) (rest : Text) :
    runLength accepts (c :: rest) = if accepts c then runLength accepts rest + 1 else 0 := by
  by_cases h : accepts c <;> simp [runLength, List.findIdx_cons, h]

@[simp]
theorem takeWhile_apply (accepts : Char → Bool) (inp : Text) :
    takeWhile accepts inp = .ok [(inp.takeWhile accepts, inp.dropWhile accepts)] := by
  rw [List.takeWhile_eq_take_findIdx_not, List.dropWhile_eq_drop_findIdx_not]
  rfl

end Backtrack.Parser
