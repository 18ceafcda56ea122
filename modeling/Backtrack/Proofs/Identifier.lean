import Backtrack.Proofs.Lambda.Language

/-!
# Identifiers as whole words

An identifier is compared with the keywords when all of its word is read, and the word is never
shortened.  The main statement says how `identifier` runs on a text: it reads the longest word at the
front and the layout behind it, or nothing.
-/

namespace Backtrack.Parser

open Alphabet
open Lambda (readWord isWord endsWord)

theorem ident_apply (inp : Text) : ident inp = .ok (readWord inp).toList := by
  cases inp with
  | nil => rfl
  | cons c rest =>
    unfold ident lower
    by_cases h : isLowercase c
    · have hread : satisfy isLowercase (c :: rest) = .ok [(c, rest)] := by
        rw [satisfy_cons, if_pos h]
      rw [bind_of_single hread, map_of_single (takeWhile_apply isAlphanumeric rest), readWord,
        if_pos h]
      rfl
    · have hread : satisfy isLowercase (c :: rest) = .ok [] := by
        rw [satisfy_cons, if_neg h]
      rw [bind_of_nil hread, readWord, if_neg h]
      rfl

/-- The word is read as a whole before it is compared with the keywords. -/
theorem identifier_apply (keywords : List Text) (inp : Text) :
    identifier keywords inp = .ok (match readWord inp with
      | none => []
      | some (word, rest) => if word ∈ keywords then [] else [(word, skipLayout rest)]) := by
  have hident := ident_apply inp
  unfold identifier
  cases hread : readWord inp with
  | none =>
    rw [hread] at hident
    exact lexeme_of_ok (bind_of_nil hident _)
  | some pair =>
    obtain ⟨word, rest⟩ := pair
    rw [hread] at hident
    have hword := bind_of_single hident fun name ↦
      if keywords.contains name then fail else succeed name
    simp only [List.contains_iff_mem] at hword ⊢
    by_cases hkeyword : word ∈ keywords
    · rw [if_pos hkeyword, fail_apply] at hword
      rw [if_pos hkeyword]
      exact lexeme_of_ok hword
    · rw [if_neg hkeyword, succeed_apply] at hword
      rw [if_neg hkeyword]
      exact lexeme_of_ok hword

/-- A word that is no keyword is read up to where it ends. -/
theorem identifier_append {keywords : List Text} {word rest : Text} (hword : isWord word)
    (hkeyword : word ∉ keywords) (hends : endsWord rest) :
    identifier keywords (word ++ rest) = .ok [(word, skipLayout rest)] := by
  have hread : readWord (word ++ rest) = some (word, rest) :=
    Lambda.readWord_eq_some_iff.mpr ⟨rfl, hword, hends⟩
  rw [identifier_apply, hread]
  simp only [if_neg hkeyword]

/-! ## Words as runs of characters -/

/-- A word is the longest run of letters and digits, if its first letter is lower-case. -/
theorem readWord_eq_ite (inp : Text) :
    readWord inp = if inp.head?.any Char.isLower then
      some (inp.takeWhile Char.isAlphanum, inp.dropWhile Char.isAlphanum) else none := by
  rw [← isLowercase_eq_isLower, ← isAlphanumeric_eq_isAlphanum]
  cases inp with
  | nil => rfl
  | cons c rest =>
    by_cases h : isLowercase c
    · have hc : isAlphanumeric c := Lambda.isAlphanumeric_of_isLowercase h
      simp [readWord, h, hc]
    · simp [readWord, h]

theorem identifier_eq_ite (keywords : List Text) (inp : Text) :
    identifier keywords inp = .ok
      (if inp.head?.any Char.isLower ∧ inp.takeWhile Char.isAlphanum ∉ keywords then
        [(inp.takeWhile Char.isAlphanum, skipLayout (inp.dropWhile Char.isAlphanum))] else []) := by
  rw [identifier_apply, readWord_eq_ite]
  by_cases hstart : inp.head?.any Char.isLower
  · by_cases hkeyword : inp.takeWhile Char.isAlphanum ∈ keywords <;> simp [hstart, hkeyword]
  · simp [hstart]

/-- Whether an identifier is read is decided on the whole word, which is the longest run of letters and
digits at the front of a text that begins with a lower-case letter.  A word that goes no further is
read as a whole with the layout behind it, also if a keyword begins it, or not at all if it is a
keyword.  No keyword is ever read, and no shorter word. -/
theorem identifier_decides_on_word (keywords : List Text) :
    (∀ inp, identifier keywords inp = .ok
      (if inp.head?.any Char.isLower ∧ inp.takeWhile Char.isAlphanum ∉ keywords then
        [(inp.takeWhile Char.isAlphanum, skipLayout (inp.dropWhile Char.isAlphanum))] else [])) ∧
    (∀ word rest, word.head?.any Char.isLower → (∀ c ∈ word, c.isAlphanum) →
      ¬ rest.head?.any Char.isAlphanum → identifier keywords (word ++ rest) =
        .ok (if word ∈ keywords then [] else [(word, skipLayout rest)])) ∧
    (∀ inp outcomes word rest, identifier keywords inp = .ok outcomes → (word, rest) ∈ outcomes →
      word ∉ keywords ∧ word = inp.takeWhile Char.isAlphanum) := by
  refine ⟨identifier_eq_ite keywords, ?_, ?_⟩
  · intro word rest hstart hword hstop
    have hhead : (word ++ rest).head? = word.head? := by
      cases word with
      | nil => contradiction
      | cons c letters => rfl
    rw [identifier_eq_ite, hhead, takeWhile_append_of_stop hword hstop,
      dropWhile_append_of_stop hword hstop]
    by_cases hkeyword : word ∈ keywords <;> simp [hstart, hkeyword]
  · intro inp outcomes word rest hrun hmem
    rw [identifier_eq_ite] at hrun
    cases hrun
    split at hmem
    case isTrue h =>
      cases List.mem_singleton.mp hmem
      exact ⟨h.2, rfl⟩
    case isFalse => contradiction

/-- Words that begin with a keyword, and a keyword with a comment behind it. -/
theorem identifier_decides_on_word_keywords :
    identifier ["let".toList, "in".toList] "letter -- x\n= y".toList =
      .ok [("letter".toList, "= y".toList)] ∧
    identifier ["let".toList, "in".toList] "in-- x".toList = .ok [] ∧
    identifier ["let".toList, "in".toList] "in1(x)".toList = .ok [("in1".toList, "(x)".toList)] ∧
    "in1".toList ∉ ["let".toList, "in".toList] := by
  obtain ⟨hrun, hword, hnone⟩ := identifier_decides_on_word ["let".toList, "in".toList]
  have hletter := hword "letter".toList " -- x\n= y".toList rfl (List.all_eq_true.mp rfl) (by decide)
  have hin := hword "in".toList "-- x".toList rfl (List.all_eq_true.mp rfl) (by decide)
  have hlonger := hrun "in1(x)".toList
  have hskip : skipLayout " -- x\n= y".toList = "= y".toList := by decide +kernel
  have hbare : skipLayout "(x)".toList = "(x)".toList := by decide +kernel
  have hrest : "in1(x)".toList.dropWhile Char.isAlphanum = "(x)".toList := by decide
  rw [if_neg (by decide), hskip] at hletter
  rw [if_pos (by decide)] at hin
  rw [if_pos (by decide), hrest, hbare] at hlonger
  obtain ⟨hother, -⟩ := hnone _ _ _ _ hlonger (List.mem_singleton_self _)
  exact ⟨hletter, hin, hlonger, hother⟩

end Backtrack.Parser
