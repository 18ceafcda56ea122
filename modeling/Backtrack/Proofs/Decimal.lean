import Backtrack.Proofs.Chain
import Backtrack.Proofs.CharacterRun
import Backtrack.Proofs.Verdict
import Mathlib.Data.List.Induction
import Mathlib.Data.Nat.Digits.Defs

/-!
# Numerals and decimal notation

A numeral is put together digit by digit in a chain without operators.  It is the longest run of
digits at the front of the text, read as a number to the base ten.

`decimalText` is the decimal notation of an integer and `placeValue` the sum of the place values of
digits.  The main statement is that numerals are decoded exactly.  A natural number is read from the
digits at the front of the text, all of them, and has their place value.  An integer in decimal
notation is read as itself if no further digit stands behind it, whatever else does.

A minus sign could also begin a comment; in front of a digit it does not.
-/

namespace Backtrack

open Alphabet

def startsWithDigit : Text → Bool
  | [] => false
  | c :: _ => isDecimal c

/-- Each digit times the power of ten that its place stands for. -/
def placeValue (digits : Text) : ℕ := Nat.ofDigits 10 (digits.reverse.map fun c ↦ decimal.idxOf c)

/-- An integer in decimal digits, with a minus sign in front if it is negative. -/
def decimalText (z : ℤ) : Text := (toString z).toList

variable {c : Char} {digits rest : Text}

/-! ## Digits -/

theorem digitValue_eq_idxOf (h : isDecimal c) : digitValue c = decimal.idxOf c := by
  have hall : decimal.all fun c ↦ digitValue c = decimal.idxOf c := by decide
  exact of_decide_eq_true (List.all_eq_true.mp hall c (List.contains_iff_mem.mp h))

/-- A digit begins neither whitespace nor a comment, and is no sign. -/
theorem not_isSpace_of_isDecimal (h : isDecimal c) : isSpace c = false ∧ c ≠ '-' := by
  have hall : decimal.all fun c ↦ isSpace c = false ∧ c ≠ '-' := by decide
  exact of_decide_eq_true (List.all_eq_true.mp hall c (List.contains_iff_mem.mp h))

/-- Reading on multiplies what was read by ten, which moves each digit up by one place. -/
theorem decimalValue_eq_placeValue (h : ∀ c ∈ digits, isDecimal c) :
    decimalValue digits = placeValue digits := by
  induction digits using List.reverseRecOn with
  | nil => rfl
  | append_singleton digits c ih =>
    have hdigits := ih fun d hd ↦ h d (List.mem_append_left [c] hd)
    have hc := digitValue_eq_idxOf (h c (by simp))
    calc
      decimalValue (digits ++ [c]) = 10 * decimalValue digits + digitValue c := by
        simp [decimalValue]
      _ = decimal.idxOf c + 10 * placeValue digits := by rw [hdigits, hc, Nat.add_comm]
      _ = placeValue (digits ++ [c]) := by simp [placeValue, Nat.ofDigits_cons]

theorem takeWhile_isDecimal_append (h : ∀ c ∈ digits, isDecimal c) (hrest : ¬ startsWithDigit rest) :
    (digits ++ rest).takeWhile isDecimal = digits ∧
      (digits ++ rest).dropWhile isDecimal = rest := by
  have hstop : ¬ rest.head?.any isDecimal := by
    cases rest with
    | nil => exact Bool.false_ne_true
    | cons c rest => exact hrest
  exact ⟨takeWhile_append_of_stop h hstop, dropWhile_append_of_stop h hstop⟩

/-! ## Decimal notation -/

theorem decimalText_natCast (n : ℕ) : decimalText n = Nat.toDigits 10 n :=
  Nat.toList_repr

theorem decimalText_negSucc (n : ℕ) :
    decimalText (Int.negSucc n) = '-' :: Nat.toDigits 10 (n + 1) := by
  have htext : toString (Int.negSucc n) = "-" ++ (n + 1).repr := rfl
  rw [decimalText, htext, String.toList_append, Nat.toList_repr]
  rfl

theorem isDecimal_of_mem_toDigits (n : ℕ) : ∀ c ∈ Nat.toDigits 10 n, isDecimal c := by
  intro c hc
  rw [isDecimal_eq_isDigit]
  exact Nat.isDigit_of_mem_toDigits (by decide) (by decide) hc

theorem exists_toDigits_eq_cons (n : ℕ) :
    ∃ c digits, Nat.toDigits 10 n = c :: digits ∧ isDecimal c := by
  obtain ⟨c, digits, hdigits⟩ := List.exists_cons_of_ne_nil (Nat.toDigits_ne_nil (n := n) (b := 10))
  exact ⟨c, digits, hdigits, isDecimal_of_mem_toDigits n c (hdigits ▸ List.mem_cons_self)⟩

theorem decimalValue_toDigits (n : ℕ) : decimalValue (Nat.toDigits 10 n) = n := by
  rw [decimalValue]
  exact Nat.ofDigitChars_eq_foldl.symm.trans Nat.ofDigitChars_ten_toDigits

theorem isDecimal_or_eq_of_mem_decimalText {z : ℤ} (h : c ∈ decimalText z) :
    isDecimal c ∨ c = '-' := by
  cases z with
  | ofNat n =>
    rw [Int.ofNat_eq_natCast, decimalText_natCast] at h
    exact .inl (isDecimal_of_mem_toDigits n c h)
  | negSucc n =>
    rw [decimalText_negSucc, List.mem_cons] at h
    exact h.symm.imp_left (isDecimal_of_mem_toDigits (n + 1) c)

theorem skipLayout_decimalText (z : ℤ) : skipLayout (decimalText z) = decimalText z := by
  apply skipLayout_of_not_startsWithLayout
  cases z with
  | ofNat n =>
    obtain ⟨c, digits, hdigits, hc⟩ := exists_toDigits_eq_cons n
    obtain ⟨hspace, hsign⟩ := not_isSpace_of_isDecimal hc
    rw [Int.ofNat_eq_natCast, decimalText_natCast, hdigits]
    simp [startsWithLayout, commentStart, hspace, hsign.symm]
  | negSucc n =>
    obtain ⟨c, digits, hdigits, hc⟩ := exists_toDigits_eq_cons (n + 1)
    obtain ⟨-, hsign⟩ := not_isSpace_of_isDecimal hc
    have hspace : isSpace '-' = false := by decide
    rw [decimalText_negSucc, hdigits]
    simp [startsWithLayout, commentStart, hspace, hsign.symm]

namespace Parser

/-! ## Numerals -/

/-- The steps of the chain that a numeral is. -/
theorem digitStep_cons (c : Char) (rest : Text) :
    chainStep (map digitValue digit) (succeed fun m n ↦ .ok (10 * m + n)) (c :: rest) =
      .ok (if isDecimal c then [((fun m n ↦ .ok (10 * m + n), digitValue c), rest)] else []) := by
  rw [chainStep_of_single (succeed_apply _ _)]
  by_cases hdigit : isDecimal c
  · have hread : digit (c :: rest) = .ok [(c, rest)] := by simp [digit, hdigit]
    rw [map_of_single hread, if_pos hdigit]
    rfl
  · have hread : digit (c :: rest) = .ok [] := by simp [digit, hdigit]
    rw [map_of_nil hread, if_neg hdigit]
    rfl

theorem foldSteps_digits (n : Nat) (inp : Text) :
    foldSteps (chainStep (map digitValue digit) (succeed fun m n ↦ .ok (10 * m + n))) n inp =
      .ok ((inp.takeWhile isDecimal).foldl (fun n c ↦ 10 * n + digitValue c) n,
        inp.dropWhile isDecimal) := by
  induction inp generalizing n with
  | nil => exact foldSteps_of_nil rfl
  | cons c rest ih =>
    by_cases hdigit : isDecimal c
    · rw [foldSteps_of_cons (by rw [digitStep_cons, if_pos hdigit]) (Nat.lt_succ_self _), ok_bind,
        ih, List.takeWhile_cons_of_pos hdigit, List.dropWhile_cons_of_pos hdigit, List.foldl_cons]
    · rw [foldSteps_of_nil (by rw [digitStep_cons, if_neg hdigit]),
        List.takeWhile_cons_of_neg hdigit, List.dropWhile_cons_of_neg hdigit, List.foldl_nil]

theorem nat_nil : nat [] = .ok [] := rfl

theorem nat_of_not_isDecimal {c : Char} (h : ¬ isDecimal c) (rest : Text) :
    nat (c :: rest) = .ok [] :=
  chainl1_of_nil (map_of_nil (by simp [digit, h]) _)

/-- A numeral ends only where the digits end. -/
theorem nat_of_isDecimal {c : Char} (h : isDecimal c) (rest : Text) :
    nat (c :: rest) =
      .ok [(decimalValue (c :: rest.takeWhile isDecimal), rest.dropWhile isDecimal)] := by
  have hdigit : digit (c :: rest) = .ok [(c, rest)] := by simp [digit, h]
  unfold nat
  rw [chainl1_of_single (map_of_single hdigit _), foldSteps_digits, ok_map, decimalValue,
    List.foldl_cons, Nat.mul_zero, Nat.zero_add]

theorem nat_apply (inp : Text) : nat inp = .ok (if startsWithDigit inp then
    [(placeValue (inp.takeWhile isDecimal), inp.dropWhile isDecimal)] else []) := by
  cases inp with
  | nil => rfl
  | cons c rest =>
    by_cases hc : isDecimal c
    · have hvalue := decimalValue_eq_placeValue
        (List.all_eq_true.mp (List.all_takeWhile (p := isDecimal) (l := c :: rest)))
      have hstart : startsWithDigit (c :: rest) := hc
      rw [if_pos hstart, nat_of_isDecimal hc, ← hvalue, List.takeWhile_cons_of_pos hc,
        List.dropWhile_cons_of_pos hc]
    · have hstart : ¬ startsWithDigit (c :: rest) := hc
      rw [if_neg hstart, nat_of_not_isDecimal hc]

theorem nat_toDigits (n : ℕ) (hrest : ¬ startsWithDigit rest) :
    nat (Nat.toDigits 10 n ++ rest) = .ok [(n, rest)] := by
  obtain ⟨c, digits, hdigits, hc⟩ := exists_toDigits_eq_cons n
  have hall := isDecimal_of_mem_toDigits n
  obtain ⟨htake, hdrop⟩ := takeWhile_isDecimal_append hall hrest
  have hvalue := decimalValue_eq_placeValue hall
  have hstart : startsWithDigit (Nat.toDigits 10 n ++ rest) := by
    rw [hdigits]
    exact hc
  rw [nat_apply, if_pos hstart, htake, hdrop, ← hvalue, decimalValue_toDigits]

theorem int_decimalText (z : ℤ) (hrest : ¬ startsWithDigit rest) :
    int (decimalText z ++ rest) = .ok [(z, rest)] := by
  cases z with
  | ofNat n =>
    obtain ⟨c, digits, hdigits, hc⟩ := exists_toDigits_eq_cons n
    obtain ⟨-, hsign⟩ := not_isSpace_of_isDecimal hc
    have hchar : char '-' (Nat.toDigits 10 n ++ rest) = .ok [] := by
      rw [hdigits]
      simp [char, hsign]
    rw [Int.ofNat_eq_natCast, decimalText_natCast, int,
      firstOf_cons_of_nil (bind_of_nil hchar _)]
    exact firstOf_cons_of_cons (map_of_single (nat_toDigits n hrest) _) []
  | negSucc n =>
    have hchar : char '-' ('-' :: (Nat.toDigits 10 (n + 1) ++ rest)) =
        .ok [('-', Nat.toDigits 10 (n + 1) ++ rest)] := by
      simp [char]
    rw [decimalText_negSucc, List.cons_append, int]
    apply firstOf_cons_of_cons
    rw [bind_of_single hchar]
    exact map_of_single (nat_toDigits (n + 1) hrest) _

/-- Numbers in decimal notation are told apart, and from what stands behind them. -/
theorem decimalText_append_inj {y z : ℤ} {rest' : Text} (hrest : ¬ startsWithDigit rest)
    (hrest' : ¬ startsWithDigit rest') (h : decimalText y ++ rest = decimalText z ++ rest') :
    y = z ∧ rest = rest' := by
  have hread := int_decimalText y hrest
  rw [h, int_decimalText z hrest'] at hread
  cases hread
  exact ⟨rfl, rfl⟩

theorem nat_decimalText (n : ℕ) (hrest : ¬ startsWithDigit rest) :
    nat (decimalText n ++ rest) = .ok [(n, rest)] := by
  rw [decimalText_natCast, nat_toDigits n hrest]

theorem run_of_decimalText {α : Type} {p : Parser α} {z : ℤ} {value : α}
    (h : p (decimalText z ++ []) = .ok [(value, [])]) : run (lexeme p) (decimalText z) = .ok value := by
  rw [List.append_nil, ← skipLayout_decimalText] at h
  have hlexeme := lexeme_of_ok h
  simp only [List.map_cons, List.map_nil, skipLayout_nil] at hlexeme
  exact run_of_complete hlexeme rfl

/-- Numerals decode exactly.  A natural number is read if and only if the text starts with a digit, in
one way: up to the last of the digits at the front, with their place value.  So what is read of the
decimal notation of an integer with no digit behind it is that integer and no more, and as a token the
layout behind it. -/
theorem numerals_decode :
    (∀ inp, nat inp = .ok (if startsWithDigit inp then
      [(placeValue (inp.takeWhile isDecimal), inp.dropWhile isDecimal)] else [])) ∧
    (∀ (z : ℤ) (rest : Text), ¬ startsWithDigit rest →
      int (decimalText z ++ rest) = .ok [(z, rest)] ∧
      integer (decimalText z ++ rest) = .ok [(z, skipLayout rest)]) ∧
    (∀ z : ℤ, run integer (decimalText z) = .ok z) ∧
    (∀ (n : ℕ) (rest : Text), ¬ startsWithDigit rest →
      nat (decimalText n ++ rest) = .ok [(n, rest)] ∧
      natural (decimalText n ++ rest) = .ok [(n, skipLayout rest)]) ∧
    ∀ n : ℕ, run natural (decimalText n) = .ok n := by
  have hend : ¬ startsWithDigit [] := Bool.false_ne_true
  refine ⟨nat_apply, ?_, ?_, ?_, ?_⟩
  · intro z rest hrest
    exact ⟨int_decimalText z hrest, lexeme_of_ok (int_decimalText z hrest)⟩
  · intro z
    exact run_of_decimalText (int_decimalText z hend)
  · intro n rest hrest
    exact ⟨nat_decimalText n hrest, lexeme_of_ok (nat_decimalText n hrest)⟩
  · intro n
    exact run_of_decimalText (nat_decimalText n hend)

/-- A negative number with a comment behind it, and a number with a name behind it. -/
theorem numerals_decode_comment :
    decimalText (-120) = "-120".toList ∧
    int "-120-- x\n-3".toList = .ok [(-120, "-- x\n-3".toList)] ∧
    integer "-120-- x\n-3".toList = .ok [(-120, "-3".toList)] ∧
    natural "7x0".toList = .ok [(7, "x0".toList)] := by
  obtain ⟨-, hint, -, hnat, -⟩ := numerals_decode
  have htext : decimalText (-120) = "-120".toList := by decide
  have hskip : skipLayout "-- x\n-3".toList = "-3".toList := by decide +kernel
  have hname : skipLayout "x0".toList = "x0".toList := by decide +kernel
  obtain ⟨hread, htoken⟩ := hint (-120) "-- x\n-3".toList (by decide)
  obtain ⟨-, hseven⟩ := hnat 7 "x0".toList (by decide)
  rw [htext] at hread htoken
  rw [hskip] at htoken
  rw [hname] at hseven
  exact ⟨htext, hread, htoken, hseven⟩

end Parser

end Backtrack
