import Backtrack.Arith.Power
import Mathlib.Algebra.Order.Ring.Nat

/-!
# What binary64 keeps of a number

Rounding to binary64 leaves the numbers below `2 ^ 53` as they are.  From there on numbers lose at
least their last bit, so they become even.  The numbers that are nearer to `2 ^ 1024` than to the
greatest number that can be represented are not rounded at all.

A number between `2 ^ k` and `2 ^ (k + 1)` is rounded to a multiple of `2 ^ (k - 52)` that is not
outside these two powers; the proofs go by this `k`.
-/

namespace Backtrack.Binary64

/-- The numbers of less than half a unit in the last place below `2 ^ 1024`. -/
def InRange (n : ℕ) : Prop := n + 2 ^ 970 < 2 ^ 1024

instance (n : ℕ) : Decidable (InRange n) := inferInstanceAs (Decidable (_ < _))

/-- What a number is rounded to if there is no limit to the numbers that can be represented. -/
def rounded (n : ℕ) : ℕ := roundQuotient n (2 ^ (n.log2 - 52)) * 2 ^ (n.log2 - 52)

theorem round?_eq (n : ℕ) : round? n = if rounded n < bound then some (rounded n) else none := rfl

theorem roundQuotient_cases (n unit : ℕ) :
    roundQuotient n unit = n / unit ∨ roundQuotient n unit = n / unit + 1 := by
  unfold roundQuotient
  dsimp only
  split
  case isTrue => exact .inr rfl
  case isFalse => exact .inl rfl

/-- Numbers of at most 53 bits are rounded by the unit one. -/
theorem rounded_of_lt {n : ℕ} (h : n < 2 ^ 53) : rounded n = n := by
  have hlog : n.log2 - 52 = 0 := by
    by_cases hn : n = 0
    · rw [hn]
      rfl
    · have hlt : n.log2 < 53 := (Nat.log2_lt hn).mpr h
      omega
  rw [rounded, hlog, pow_zero, mul_one]
  simp [roundQuotient, Nat.mod_one]

/-- Longer numbers are rounded by an even unit. -/
theorem even_rounded {n : ℕ} (h : 2 ^ 53 ≤ n) : rounded n % 2 = 0 := by
  have hn : n ≠ 0 := by omega
  have hlog : 53 ≤ n.log2 := (Nat.le_log2 hn).mpr h
  have hunit : 2 ∣ 2 ^ (n.log2 - 52) := dvd_pow_self 2 (by omega)
  exact Nat.mod_eq_zero_of_dvd (hunit.mul_left _)

/-! ## The range -/

section Range

variable {n k e : ℕ}

/-- In front of its last unit a number has 53 bits. -/
theorem quotient_bounds (hlog : n.log2 = k) (hk : 52 ≤ k) :
    2 ^ 52 ≤ n / 2 ^ (k - 52) ∧ n / 2 ^ (k - 52) < 2 ^ 53 := by
  have hn : n ≠ 0 := by
    rintro rfl
    rw [Nat.log2_zero] at hlog
    omega
  have hpos : 0 < 2 ^ (k - 52) := Nat.two_pow_pos _
  have hlow : 2 ^ 52 * 2 ^ (k - 52) ≤ n := by
    rw [← pow_add, Nat.add_sub_cancel' hk, ← hlog]
    exact Nat.log2_self_le hn
  have hhigh : n < 2 ^ 53 * 2 ^ (k - 52) := by
    rw [← pow_add, show 53 + (k - 52) = k + 1 by omega, ← hlog]
    exact Nat.lt_log2_self
  exact ⟨(Nat.le_div_iff_mul_le hpos).mpr hlow, (Nat.div_lt_iff_lt_mul hpos).mpr hhigh⟩

/-- Rounding does not leave the powers of two around a number. -/
theorem rounded_bounds (hlog : n.log2 = k) (hk : 52 ≤ k) :
    2 ^ k ≤ rounded n ∧ rounded n ≤ 2 ^ (k + 1) := by
  obtain ⟨hlow, hhigh⟩ := quotient_bounds hlog hk
  have hquotient : 2 ^ 52 ≤ roundQuotient n (2 ^ (k - 52)) ∧
      roundQuotient n (2 ^ (k - 52)) ≤ 2 ^ 53 := by
    rcases roundQuotient_cases n (2 ^ (k - 52)) with hround | hround <;> rw [hround] <;> omega
  have hfront : 2 ^ k = 2 ^ 52 * 2 ^ (k - 52) := by rw [← pow_add, Nat.add_sub_cancel' hk]
  have hback : 2 ^ (k + 1) = 2 ^ 53 * 2 ^ (k - 52) := by
    rw [← pow_add, show 53 + (k - 52) = k + 1 by omega]
  rw [rounded, hlog, hfront, hback]
  exact ⟨Nat.mul_le_mul_right _ hquotient.1, Nat.mul_le_mul_right _ hquotient.2⟩

theorem rounded_le (n : ℕ) : rounded n ≤ 2 ^ (n.log2 + 1) := by
  by_cases hlog : n.log2 < 52
  · have hn : n < 2 ^ (n.log2 + 1) := Nat.lt_log2_self
    have hsmall : 2 ^ (n.log2 + 1) ≤ 2 ^ 53 := Nat.pow_le_pow_right two_pos (by omega)
    rw [rounded_of_lt (hn.trans_le hsmall)]
    exact hn.le
  · exact (rounded_bounds rfl (Nat.le_of_not_lt hlog)).2

/-- A quotient is rounded up to `2 ^ 53` from half a unit below it on; the last quotient before it is
odd, so a tie goes up. -/
theorem roundQuotient_lt_iff {half : ℕ} (hpos : 0 < half) (hhigh : n / (2 * half) < 2 ^ 53) :
    roundQuotient n (2 * half) < 2 ^ 53 ↔ n + half < 2 ^ 53 * (2 * half) := by
  have hdivision := Nat.div_add_mod n (2 * half)
  have hremainder : n % (2 * half) < 2 * half := Nat.mod_lt _ (by omega)
  unfold roundQuotient
  dsimp only
  generalize n / (2 * half) = quotient at *
  generalize n % (2 * half) = remainder at *
  by_cases hlast : quotient = 2 ^ 53 - 1
  · rw [hlast] at hdivision ⊢
    split <;> omega
  · have hgap : 2 * half * (quotient + 2) ≤ 2 * half * 2 ^ 53 :=
      Nat.mul_le_mul_left _ (by omega)
    rw [Nat.mul_add] at hgap
    split <;> omega

theorem rounded_lt_iff_of_log2 (hlog : n.log2 = e + 53) :
    rounded n < 2 ^ (e + 54) ↔ n + 2 ^ e < 2 ^ (e + 54) := by
  obtain ⟨-, hhigh⟩ := quotient_bounds hlog (by omega)
  have hunit : 2 ^ (e + 53 - 52) = 2 * 2 ^ e := by rw [← pow_succ', show e + 53 - 52 = e + 1 by omega]
  have hbound : 2 ^ (e + 54) = 2 ^ 53 * (2 * 2 ^ e) := by
    rw [← pow_succ', ← pow_add, show 53 + (e + 1) = e + 54 by omega]
  rw [hunit] at hhigh
  rw [rounded, hlog, hunit, hbound, Nat.mul_lt_mul_right (Nat.mul_pos two_pos (Nat.two_pow_pos e))]
  exact roundQuotient_lt_iff (Nat.two_pow_pos e) hhigh

/-- A number is rounded below a power of two if it is more than half a unit below it. -/
theorem rounded_lt_iff (n e : ℕ) : rounded n < 2 ^ (e + 54) ↔ n + 2 ^ e < 2 ^ (e + 54) := by
  have hdouble : 2 ^ (e + 54) = 2 * 2 ^ (e + 53) := pow_succ' 2 (e + 53)
  have hunit : 2 ^ e ≤ 2 ^ (e + 53) := Nat.pow_le_pow_right two_pos (by omega)
  have hpos : 0 < 2 ^ e := Nat.two_pow_pos e
  rcases Nat.lt_trichotomy n.log2 (e + 53) with hshort | hlast | hlong
  · have hpower : 2 ^ (n.log2 + 1) ≤ 2 ^ (e + 53) := Nat.pow_le_pow_right two_pos hshort
    have hrounded := rounded_le n
    have hn : n < 2 ^ (n.log2 + 1) := Nat.lt_log2_self
    omega
  · exact rounded_lt_iff_of_log2 hlast
  · have hpower : 2 ^ (e + 54) ≤ 2 ^ n.log2 := Nat.pow_le_pow_right two_pos hlong
    have hrounded := (rounded_bounds (n := n) rfl (by omega)).1
    have hn : 2 ^ n.log2 ≤ n := Nat.log2_self_le (by rintro rfl; simp at hlong)
    omega

theorem rounded_lt_bound_iff (n : ℕ) : rounded n < bound ↔ InRange n := by
  have hrange := rounded_lt_iff n
  unfold bound InRange
  -- The powers are too large to be evaluated, so only their exponents are compared.
  generalize hlast : 970 = e
  generalize hfirst : 1024 = k
  obtain rfl : k = e + 54 := by omega
  exact hrange e

end Range

theorem round?_of_inRange {n : ℕ} (h : InRange n) : round? n = some (rounded n) := by
  rw [round?_eq, if_pos ((rounded_lt_bound_iff n).mpr h)]

theorem round?_of_not_inRange {n : ℕ} (h : ¬ InRange n) : round? n = none := by
  rw [round?_eq, if_neg (mt (rounded_lt_bound_iff n).mp h)]

end Backtrack.Binary64
