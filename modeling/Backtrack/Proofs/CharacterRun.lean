import Backtrack.Parser.Character

/-!
# Classes of characters and runs of them

An alphabet lists all characters between its first and its last one, or is put together from such
lists.  So the classes of characters are the ASCII classes of the same names.

A run of characters of a class ends where no character of the class is next.
-/

namespace Backtrack

namespace Alphabet

variable {alphabet : List Char} {first last : Char}

/-- The code points of the list leave out none between the first and the last one. -/
theorem contains_eq_of_codes
    (h : alphabet.map Char.toNat = List.range' first.toNat (last.toNat + 1 - first.toNat))
    (c : Char) : alphabet.contains c = (first.val ≤ c.val && c.val ≤ last.val) := by
  have hmem : c ∈ alphabet ↔ c.toNat ∈ alphabet.map Char.toNat := by simp [Char.toNat_inj]
  rw [Bool.eq_iff_iff, List.contains_iff_mem, hmem, h, List.mem_range'_1]
  simp only [Bool.and_eq_true, decide_eq_true_iff, UInt32.le_iff_toNat_le, Char.toNat_val]
  omega

theorem isDecimal_eq_isDigit : isDecimal = Char.isDigit := by
  funext c
  exact contains_eq_of_codes (by decide) c

theorem isLowercase_eq_isLower : isLowercase = Char.isLower := by
  funext c
  exact contains_eq_of_codes (by decide) c

theorem isUppercase_eq_isUpper : isUppercase = Char.isUpper := by
  funext c
  exact (contains_eq_of_codes (by decide) c).trans (Bool.decide_and _ _).symm

theorem isAlphanumeric_eq_isAlphanum : isAlphanumeric = Char.isAlphanum := by
  funext c
  have hclass : c.isAlphanum = (c.isUpper || c.isLower || c.isDigit) := rfl
  rw [hclass, isAlphanumeric_eq, isAlphabetic_eq, isDecimal_eq_isDigit, isLowercase_eq_isLower,
    isUppercase_eq_isUpper, Bool.or_comm]

end Alphabet

variable {accepts : Char → Bool} {front rest : Text}

theorem takeWhile_append_of_stop (hfront : ∀ c ∈ front, accepts c)
    (hstop : ¬ rest.head?.any accepts) : (front ++ rest).takeWhile accepts = front := by
  rw [List.takeWhile_append_of_pos hfront]
  cases rest with
  | nil => exact List.append_nil front
  | cons c rest =>
    have hc : ¬ accepts c := hstop
    rw [List.takeWhile_cons_of_neg hc, List.append_nil]

theorem dropWhile_append_of_stop (hfront : ∀ c ∈ front, accepts c)
    (hstop : ¬ rest.head?.any accepts) : (front ++ rest).dropWhile accepts = rest := by
  rw [List.dropWhile_append_of_pos hfront]
  cases rest with
  | nil => rfl
  | cons c rest =>
    have hc : ¬ accepts c := hstop
    rw [List.dropWhile_cons_of_neg hc]

end Backtrack
