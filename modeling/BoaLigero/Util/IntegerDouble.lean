import Mathlib.Algebra.Ring.Int.Defs
import Mathlib.Algebra.Ring.Nat
import Mathlib.Data.Nat.Size

/-!
# Doubles with Integral Values

Rounding an integer to the nearest binary64 number, ties to even: what a double operation
makes of an exact integral result that is not too large to be finite.

## Main results

* `roundToDouble_of_natAbs_lt` — integers below `2 ^ 53` are doubles.
-/

/-- The value of the double nearest to an integer. -/
def roundToDouble (n : ℤ) : ℤ :=
  let unit : ℤ := 2 ^ (n.natAbs.size - 53)
  let quotient := n / unit
  let remainder := n % unit
  if 2 * remainder < unit then quotient * unit
  else if unit < 2 * remainder then (quotient + 1) * unit
  else if quotient % 2 = 0 then quotient * unit
  else (quotient + 1) * unit

/-- **Exactness**: an integer of at most 53 bits is the value of a double. -/
theorem roundToDouble_of_natAbs_lt {n : ℤ} (h : n.natAbs < 2 ^ 53) : roundToDouble n = n := by
  have hsize : n.natAbs.size - 53 = 0 := Nat.sub_eq_zero_of_le (Nat.size_le.mpr h)
  simp [roundToDouble, hsize]

example : roundToDouble (2 ^ 53 + 1) = 2 ^ 53 := by decide +kernel

example : roundToDouble (-(2 ^ 53 + 3)) = -(2 ^ 53 + 4) := by decide +kernel
