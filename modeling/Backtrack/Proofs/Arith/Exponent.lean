import Backtrack.Proofs.Rounding
import Backtrack.Proofs.Yields
import Mathlib.Algebra.Order.Field.Power
import Mathlib.Data.Rat.Floor

/-!
# Powers, truncated towards zero

The main statement compares the power of the calculator with the exact rational power, of which the
part behind the point is dropped.  They agree for every exponent of at least zero.  A negative
exponent goes through binary64, and there the calculator has a value only if base and exponent are in
range.  It is the exact one, except that an odd exponent from `2 ^ 53` on is rounded to an even one,
which makes a power of minus one positive.
-/

namespace Backtrack.Arith

open Binary64

/-- A rational number without the part behind the point. -/
def truncate (q : ℚ) : ℤ := if 0 ≤ q then ⌊q⌋ else ⌈q⌉

/-- An odd exponent that binary64 rounds to an even one. -/
def LosesParity (y : ℤ) : Prop := y % 2 = 1 ∧ 2 ^ 53 ≤ y.natAbs

instance (y : ℤ) : Decidable (LosesParity y) := inferInstanceAs (Decidable (_ ∧ _))

/-! ## Exact powers -/

theorem truncate_intCast (n : ℤ) : truncate n = n := by
  unfold truncate
  split
  case isTrue => exact Int.floor_intCast n
  case isFalse => exact Int.ceil_intCast n

theorem truncate_of_abs_lt_one {q : ℚ} (h : |q| < 1) : truncate q = 0 := by
  obtain ⟨hlow, hhigh⟩ := abs_lt.mp h
  unfold truncate
  split
  case isTrue hpos => exact Int.floor_eq_zero_iff.mpr ⟨hpos, hhigh⟩
  case isFalse hneg => exact Int.ceil_eq_zero_iff.mpr ⟨hlow, le_of_not_ge hneg⟩

theorem abs_zpow_lt_one {x y : ℤ} (hx : 2 ≤ |x|) (hy : y < 0) : |(x : ℚ) ^ y| < 1 := by
  have hbase : (1 : ℚ) < |(x : ℚ)| := by exact_mod_cast hx
  rw [abs_zpow]
  exact zpow_lt_one_of_neg₀ hbase hy

theorem neg_one_zpow_eq (y : ℤ) : (-1 : ℚ) ^ y = if y % 2 = 0 then 1 else -1 := by
  split
  case isTrue heven => exact (Int.even_iff.mpr heven).neg_one_zpow
  case isFalse hodd => exact (Int.not_even_iff_odd.mp (mt Int.even_iff.mp hodd)).neg_one_zpow

/-- The exact power without the part behind the point. -/
theorem truncate_zpow (x y : ℤ) :
    truncate ((x : ℚ) ^ y) =
      if 0 ≤ y then x ^ y.toNat
      else if x = 1 then 1
      else if x = -1 then if y % 2 = 0 then 1 else -1
      else 0 := by
  split
  case isTrue hy =>
    obtain ⟨n, rfl⟩ := Int.eq_ofNat_of_zero_le hy
    rw [zpow_natCast, Int.toNat_natCast]
    exact_mod_cast truncate_intCast (x ^ n)
  case isFalse hy =>
    split
    case isTrue hone =>
      rw [hone, Int.cast_one, one_zpow]
      exact_mod_cast truncate_intCast 1
    case isFalse hone =>
      split
      case isTrue hminus =>
        rw [hminus, Int.cast_neg, Int.cast_one, neg_one_zpow_eq]
        split
        case isTrue => exact_mod_cast truncate_intCast 1
        case isFalse => exact_mod_cast truncate_intCast (-1)
      case isFalse hminus =>
        apply truncate_of_abs_lt_one
        by_cases hzero : x = 0
        · rw [hzero, Int.cast_zero, zero_zpow y (by omega)]
          norm_num
        · have hx : 2 ≤ |x| := by
            rw [Int.abs_eq_natAbs]
            omega
          exact abs_zpow_lt_one hx (by omega)

/-! ## The power of the calculator -/

theorem naturalPower_eq_pow (x : ℤ) (n : ℕ) : naturalPower x n = x ^ n := by
  induction n with
  | zero => rw [naturalPower_zero, pow_zero]
  | succ n ih => rw [naturalPower_succ, ih, pow_succ]

section Power

variable {x y : ℤ}

theorem truncatedPower_of_nonneg (hy : 0 ≤ y) : truncatedPower x y = .ok (x ^ y.toNat) := by
  rw [truncatedPower, if_pos hy, naturalPower_eq_pow]

/-- Out of range there is no power with a negative exponent. -/
theorem truncatedPower_of_not_inRange (hy : y < 0)
    (h : ¬ (InRange x.natAbs ∧ InRange y.natAbs)) : truncatedPower x y = .error .overflow := by
  rw [truncatedPower, if_neg (Int.not_le.mpr hy)]
  by_cases hx : InRange x.natAbs
  · rw [round?_of_not_inRange fun hrange ↦ h ⟨hx, hrange⟩]
    cases round? x.natAbs <;> rfl
  · rw [round?_of_not_inRange hx]

/-- The parity of a rounded exponent. -/
theorem rounded_mod_two (n : ℕ) : rounded n % 2 = if n < 2 ^ 53 then n % 2 else 0 := by
  split
  case isTrue hsmall => rw [rounded_of_lt hsmall]
  case isFalse hlarge => exact even_rounded (Nat.le_of_not_lt hlarge)

/-- In range a power with a negative exponent is that of the rounded numbers. -/
theorem truncatedPower_of_inRange (hy : y < 0) (hx : InRange x.natAbs)
    (hrange : InRange y.natAbs) :
    truncatedPower x y =
      if x = 0 then .error .divisionByZero
      else if x = 1 then .ok 1
      else if x = -1 then .ok (if rounded y.natAbs % 2 = 0 then 1 else -1)
      else .ok 0 := by
  rw [truncatedPower, if_neg (Int.not_le.mpr hy), round?_of_inRange hx, round?_of_inRange hrange]

/-- The rounded parity is that of the exponent, unless the exponent loses it. -/
theorem minusOnePower_eq (y : ℤ) :
    (if rounded y.natAbs % 2 = 0 then (1 : ℤ) else -1) =
      if LosesParity y then 1 else if y % 2 = 0 then 1 else -1 := by
  rw [rounded_mod_two]
  by_cases hloses : LosesParity y
  · have hlarge : ¬ y.natAbs < 2 ^ 53 := Nat.not_lt.mpr hloses.2
    rw [if_pos hloses, if_neg hlarge, if_pos rfl]
  · have hparity : (if y.natAbs < 2 ^ 53 then y.natAbs % 2 else 0) = 0 ↔ y % 2 = 0 := by
      unfold LosesParity at hloses
      split <;> omega
    rw [if_neg hloses]
    simp only [hparity]

end Power

/-- The calculator's power is the exact one without the part behind the point, but for three cases
with a negative exponent: numbers out of the range of binary64, the base zero, and the base minus one
with an exponent that loses its parity. -/
theorem truncatedPower_eq_truncate_zpow (x y : ℤ) :
    truncatedPower x y =
        (if 0 ≤ y then .ok (truncate ((x : ℚ) ^ y))
        else if ¬ (InRange x.natAbs ∧ InRange y.natAbs) then .error .overflow
        else if x = 0 then .error .divisionByZero
        else if x = -1 ∧ LosesParity y then .ok 1
        else .ok (truncate ((x : ℚ) ^ y))) ∧
      truncate ((x : ℚ) ^ y) =
        (if 0 ≤ y then x ^ y.toNat
        else if x = 1 then 1
        else if x = -1 then if y % 2 = 0 then 1 else -1
        else 0) := by
  refine ⟨?_, truncate_zpow x y⟩
  rw [truncate_zpow]
  by_cases hy : 0 ≤ y
  · rw [if_pos hy, if_pos hy, truncatedPower_of_nonneg hy]
  rw [if_neg hy, if_neg hy]
  have hneg : y < 0 := Int.not_le.mp hy
  by_cases hrange : InRange x.natAbs ∧ InRange y.natAbs
  · rw [if_neg (not_not.mpr hrange), truncatedPower_of_inRange hneg hrange.1 hrange.2,
      minusOnePower_eq]
    by_cases hminus : x = -1
    · subst hminus
      by_cases hloses : LosesParity y <;> simp [hloses]
    · simp only [hminus, false_and, if_false]
      split
      case isTrue => rfl
      case isFalse => split <;> rfl
  · rw [if_pos hrange, truncatedPower_of_not_inRange hneg hrange]

/-- The least odd exponent that loses its parity makes the power of minus one positive. -/
theorem truncatedPower_neg_one_eq_one :
    truncatedPower (-1) (-9007199254740993) = .ok 1 ∧
      truncate (((-1 : ℤ) : ℚ) ^ (-9007199254740993 : ℤ)) = -1 :=
  ⟨eq_ok_of_toOption (by decide +kernel), (truncate_zpow _ _).trans (by decide +kernel)⟩

end Backtrack.Arith
