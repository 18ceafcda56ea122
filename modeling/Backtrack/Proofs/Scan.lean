import Backtrack.Proofs.Returns

/-!
# Scanning a run of characters

A scan finds the place where a run of characters of one class ends, and cuts the text there.  The
main statement is that scanning is repetition: `takeWhile` is the preferred repetition of a
character of the class, and `word` is the repetition of a letter with all its ways to stop, joined
to a text.

A repetition of a parser of single characters finds the front parts of one run, the longest first.
A letter is a choice between two classes, which have no character in common.
-/

namespace Backtrack.Parser

open Alphabet

/-- The text of these characters, one after the other. -/
def concatenation (cs : List Char) : Text := cs.flatMap fun c ↦ [c]

theorem concatenation_eq (cs : List Char) : concatenation cs = cs := List.flatMap_singleton' cs

theorem map_concatenation (p : Parser (List Char)) : map concatenation p = p := by
  funext inp
  cases h : p inp with
  | error fault => exact map_of_error h concatenation
  | ok outcomes => simp [map_of_ok h, concatenation_eq]

/-! ## The ways to stop -/

/-- The ways to cut a text at a place up to `longest`, the last place first. -/
def stops (longest : Nat) (inp : Text) : Outcomes Text :=
  (List.range (longest + 1)).reverse.map fun n ↦ (inp.take n, inp.drop n)

theorem stops_zero (inp : Text) : stops 0 inp = [([], inp)] := rfl

theorem stops_succ_cons (longest : Nat) (c : Char) (rest : Text) :
    stops (longest + 1) (c :: rest) =
      (stops longest rest).map (readAfter [c]) ++ [([], c :: rest)] := by
  unfold stops
  rw [List.range_succ_eq_map, List.reverse_cons, List.map_append, ← List.map_reverse, List.map_map,
    List.map_map]
  rfl

theorem take_one_stops (longest : Nat) (inp : Text) :
    (stops longest inp).take 1 = [(inp.take longest, inp.drop longest)] := by
  rw [stops, List.range_succ, List.reverse_append]
  rfl

/-- Each character of the run is read and then the rest of the run, and stopping comes last. -/
theorem repetitions_satisfy (accepts : Char → Bool) (inp : Text) :
    repetitions (satisfy accepts) inp = .ok (stops (runLength accepts inp) inp) := by
  induction inp with
  | nil =>
    rw [repetitions_of_ok (satisfy_nil accepts)]
    rfl
  | cons c rest ih =>
    rw [repetitions_of_ok (satisfy_cons accepts c rest), runLength_cons]
    by_cases h : accepts c
    · have hlength : rest.length < (c :: rest).length := Nat.lt_succ_self _
      rw [if_pos h, if_pos h, repetitionsFrom_cons _ hlength, ih, stops_succ_cons]
      rfl
    · rw [if_neg h, if_neg h, stops_zero]
      rfl

theorem many_satisfy (accepts : Char → Bool) (inp : Text) :
    many (satisfy accepts) inp = .ok (stops (runLength accepts inp) inp) :=
  many_eq_iff.mpr (repetitions_satisfy accepts inp)

/-! ## Letters -/

theorem isUppercase_eq_false {c : Char} (h : isLowercase c) : isUppercase c = false := by
  have hdisjoint : lowercase.all fun c ↦ !isUppercase c := by decide +kernel
  have hc := List.all_eq_true.mp hdisjoint c (List.contains_iff_mem.mp h)
  simpa using hc

/-- No letter is read in two ways. -/
theorem letter_eq_satisfy : letter = satisfy isAlphabetic := by
  funext inp
  cases inp with
  | nil => rfl
  | cons c rest =>
    have hlower : lower (c :: rest) = .ok (if isLowercase c then [(c, rest)] else []) :=
      satisfy_cons isLowercase c rest
    have hupper : upper (c :: rest) = .ok (if isUppercase c then [(c, rest)] else []) :=
      satisfy_cons isUppercase c rest
    rw [letter, anyOf_cons, anyOf_cons, hlower, hupper, satisfy_cons, isAlphabetic_eq]
    by_cases h : isLowercase c
    · simp [h, isUppercase_eq_false h]
    · simp [h]

/-- Scanning a run of characters is repeating a parser of its characters.  The scan for the longest
run is the preferred repetition, and the scan of a word is the repetition of letters. -/
theorem scan_eq_repetition :
    (∀ accepts : Char → Bool,
      takeWhile accepts = map concatenation (first (many (satisfy accepts)))) ∧
    word = map concatenation (many letter) := by
  constructor
  · intro accepts
    funext inp
    calc
      takeWhile accepts inp =
          .ok [(inp.take (runLength accepts inp), inp.drop (runLength accepts inp))] := rfl
      _ = .ok ((stops (runLength accepts inp) inp).take 1) := by rw [take_one_stops]
      _ = first (many (satisfy accepts)) inp := (first_of_ok (many_satisfy accepts inp)).symm
      _ = map concatenation (first (many (satisfy accepts))) inp := by rw [map_concatenation]
  · funext inp
    calc
      word inp = .ok (stops (runLength isAlphabetic inp) inp) := rfl
      _ = many (satisfy isAlphabetic) inp := (many_satisfy isAlphabetic inp).symm
      _ = map concatenation (many letter) inp := by rw [map_concatenation, letter_eq_satisfy]

end Backtrack.Parser
