import Backtrack.Parser.Basic

/-!
# Powers of integers

The power with an exponent of at least zero is exact.  With a negative exponent it is computed on
binary64 numbers and truncated to an integer: base and exponent are rounded first, so the sign of a
power of minus one goes by the parity of the rounded exponent.

A binary64 number has 53 significant bits.  A natural number is rounded to the nearest such number,
and of two equally near ones to the one whose last significant bit is zero.
-/

namespace Backtrack

namespace Binary64

/-- The least power of two that is too large to be represented. -/
def bound : Nat := Nat.pow 2 1024

/-- Rounds `n / unit` to the nearest integer, a tie to the even one. -/
def roundQuotient (n unit : Nat) : Nat :=
  let quotient := n / unit
  let remainder := n % unit
  if unit < 2 * remainder ∨ (unit = 2 * remainder ∧ quotient % 2 = 1) then quotient + 1
  else quotient

/-- The binary64 number nearest to `n`, unless it is out of range. -/
def round? (n : Nat) : Option Nat :=
  let unit := Nat.pow 2 (n.log2 - 52)
  let rounded := roundQuotient n unit * unit
  if rounded < bound then some rounded else none

end Binary64

namespace Arith

/-- The power with a natural exponent.  Where the base is at most one in magnitude it depends on the
parity of the exponent only, so that an exponent of any size is fine. -/
def naturalPower (x : Int) (n : Nat) : Int :=
  if x.natAbs ≤ 1 then
    if n = 0 then 1 else if n % 2 = 0 then x * x else x
  else x.pow n

/-- The power `x ^ y`, truncated to an integer. -/
def truncatedPower (x y : Int) : Except Fault Int :=
  if 0 ≤ y then .ok (naturalPower x y.toNat)
  else
    match Binary64.round? x.natAbs, Binary64.round? y.natAbs with
    | some _, some exponent =>
      if x = 0 then .error .divisionByZero
      else if x = 1 then .ok 1
      else if x = -1 then .ok (if exponent % 2 = 0 then 1 else -1)
      else .ok 0
    | _, _ => .error .overflow

theorem naturalPower_zero (x : Int) : naturalPower x 0 = 1 := by
  unfold naturalPower
  split
  case isTrue => rfl
  case isFalse => exact Int.pow_zero x

theorem naturalPower_succ (x : Int) (n : Nat) :
    naturalPower x (n + 1) = naturalPower x n * x := by
  unfold naturalPower
  split
  case isFalse => exact Int.pow_succ x n
  case isTrue h =>
    have hx : x = 0 ∨ x = 1 ∨ x = -1 := by omega
    have hn : n = 0 ∨ (n ≠ 0 ∧ n % 2 = 0) ∨ (n ≠ 0 ∧ n % 2 = 1) := by omega
    rcases hn with rfl | ⟨hne, hmod⟩ | ⟨hne, hmod⟩
    · simp
    · have hnext : (n + 1) % 2 = 1 := by omega
      rcases hx with rfl | rfl | rfl <;> simp [hne, hmod, hnext]
    · have hnext : (n + 1) % 2 = 0 := by omega
      rcases hx with rfl | rfl | rfl <;> simp [hne, hmod, hnext]

end Arith

end Backtrack
