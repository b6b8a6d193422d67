import Mathlib.Data.Rat.Floor
import Mathlib.Tactic.Linarith
import Mathlib.Tactic.Ring

/-!
# Doubles Read Exactly

The operations on finite doubles, each with its exact result: values are rational numbers, and
zero has one sign. Casts to machine integers truncate and take the nearest integer in range.

## Main results

* `floor_div_natCast`, `rem_intCast`, `remEuclid_natCast`: on integers they are integer division
  and its remainders;
* `truncated_intCast`, `toI32_intCast`, `toU16_natCast`, `toU8_natCast`: integers in range are
  kept.
-/

namespace ExactDouble

/-- `copysign`. -/
def copysign (x sign : ℚ) : ℚ := if sign < 0 then -|x| else |x|

/-- `floor`. -/
def floor (x : ℚ) : ℚ := ⌊x⌋

/-- The integral part, `abs().floor().copysign(x)`. -/
def truncated (x : ℚ) : ℚ := copysign (floor |x|) x

/-- The remainder of the division that truncates, `%`. -/
def rem (x y : ℚ) : ℚ := x - y * truncated (x / y)

/-- `rem_euclid`. -/
def remEuclid (x y : ℚ) : ℚ :=
  let r := rem x y
  if r < 0 then r + |y| else r

/-- The integral part, as an integer. -/
def integral (x : ℚ) : ℤ := if x < 0 then -⌊-x⌋ else ⌊x⌋

/-- `as i32`. -/
def toI32 (x : ℚ) : Int32 := Int32.ofIntClamp (integral x)

/-- `as u16`. -/
def toU16 (x : ℚ) : UInt16 := UInt16.ofNat (min ⌊x⌋.toNat 65535)

/-- `as u8`. -/
def toU8 (x : ℚ) : UInt8 := UInt8.ofNat (min ⌊x⌋.toNat 255)

/-! ### On integers -/

/-- An integer is not changed by rounding it down. -/
@[simp]
theorem floor_intCast (n : ℤ) : floor n = n := by simp [floor]

/-- A fraction of integers is rounded down to the integer quotient. -/
theorem floor_div_natCast (n : ℤ) (k : ℕ) : floor (n / k) = ((n / k : ℤ) : ℚ) := by
  rw [floor, Rat.floor_intCast_div_natCast]

/-- An integer is its own integral part. -/
@[simp]
theorem truncated_intCast (n : ℤ) : truncated n = n := by
  have habs : floor |(n : ℚ)| = |(n : ℚ)| := by
    rw [← Int.cast_abs, floor_intCast]
  rw [truncated, habs, copysign, abs_abs]
  split
  case isTrue hneg => rw [abs_of_neg hneg, neg_neg]
  case isFalse hneg => rw [abs_of_nonneg (not_lt.mp hneg)]

/-- The truncated quotient of an integer. -/
theorem truncated_div_natCast (n : ℤ) (k : ℕ) : truncated (n / k) = (n.tdiv k : ℤ) := by
  have habs : |(n : ℚ) / k| = ((|n| : ℤ) : ℚ) / k := by
    rw [abs_div, Nat.abs_cast, Int.cast_abs]
  have hfloor : floor |(n : ℚ) / k| = ((|n| / k : ℤ) : ℚ) := by
    rw [habs, floor_div_natCast]
  have hnonneg : (0 : ℚ) ≤ ((|n| / k : ℤ) : ℚ) :=
    Int.cast_nonneg (Int.ediv_nonneg (abs_nonneg n) (Int.natCast_nonneg k))
  rw [truncated, hfloor, copysign, abs_of_nonneg hnonneg]
  obtain hle | hneg := le_or_gt 0 n
  · have : ¬ (n : ℚ) / k < 0 :=
      not_lt.mpr (div_nonneg (Int.cast_nonneg hle) (Nat.cast_nonneg k))
    rw [if_neg this, abs_of_nonneg hle, Int.tdiv_eq_ediv_of_nonneg hle]
  · obtain rfl | hk := Nat.eq_zero_or_pos k
    · simp
    · have : (n : ℚ) / k < 0 :=
        div_neg_of_neg_of_pos (Int.cast_lt_zero.mpr hneg) (Nat.cast_pos.mpr hk)
      rw [if_pos this, abs_of_neg hneg, ← Int.cast_neg,
        ← Int.tdiv_eq_ediv_of_nonneg (by omega : 0 ≤ -n), Int.neg_tdiv, neg_neg]

/-- An integer is not changed by dropping its fraction. -/
theorem integral_intCast (n : ℤ) : integral n = n := by
  rw [integral, ← Int.cast_neg, Int.floor_intCast, Int.floor_intCast, neg_neg, ite_self]

/-- The integral part of a fraction is the truncated quotient. -/
theorem integral_div_natCast (n : ℤ) {k : ℕ} (hk : 0 < k) :
    integral ((n : ℚ) / k) = n.tdiv k := by
  have hsign : (n : ℚ) / k < 0 ↔ n < 0 := by
    rw [div_lt_iff₀ (Nat.cast_pos.mpr hk), zero_mul, Int.cast_lt_zero]
  rw [integral, ← neg_div, ← Int.cast_neg, Rat.floor_intCast_div_natCast,
    Rat.floor_intCast_div_natCast]
  split
  case isTrue hneg =>
    rw [hsign] at hneg
    rw [← Int.tdiv_eq_ediv_of_nonneg (by omega : 0 ≤ -n), Int.neg_tdiv, neg_neg]
  case isFalse hneg =>
    rw [hsign] at hneg
    rw [Int.tdiv_eq_ediv_of_nonneg (by omega)]

/-- The remainder by a positive integer has the sign of the dividend. -/
theorem rem_natCast (n : ℤ) (k : ℕ) : rem n k = (n.tmod k : ℤ) := by
  have hmod : n.tmod k = n - k * n.tdiv k := by
    rw [eq_sub_iff_add_eq, Int.tmod_add_mul_tdiv]
  rw [rem, truncated_div_natCast, hmod]
  push_cast
  rfl

/-- Truncation does not depend on the sign. -/
theorem truncated_neg (x : ℚ) : truncated (-x) = -truncated x := by
  rw [truncated, truncated, abs_neg, copysign, copysign]
  obtain hneg | rfl | hpos := lt_trichotomy x 0
  · rw [if_neg (by linarith), if_pos hneg, neg_neg]
  · simp [floor]
  · rw [if_pos (by linarith), if_neg (by linarith)]

/-- The sign of the divisor does not count. -/
theorem rem_neg (x y : ℚ) : rem x (-y) = rem x y := by
  rw [rem, rem, div_neg, truncated_neg]
  ring

/-- The remainder of integers has the sign of the dividend. -/
theorem rem_intCast (n k : ℤ) : rem n k = (n.tmod k : ℤ) := by
  obtain ⟨m, rfl | rfl⟩ := k.eq_nat_or_neg
  · exact rem_natCast n m
  · rw [Int.cast_neg, rem_neg, Int.tmod_neg]
    exact rem_natCast n m

/-- The euclidean remainder is that of the integers, which is not negative. -/
theorem remEuclid_natCast (n : ℤ) {k : ℕ} (hk : 0 < k) :
    remEuclid n k = ((n % k : ℤ) : ℚ) := by
  have hpos : (0 : ℤ) < k := Int.natCast_pos.mpr hk
  have hnonneg := Int.emod_nonneg n hpos.ne'
  have hlt := Int.emod_lt_of_pos n hpos
  have htmod := Int.tmod_eq_emod (a := n) (b := k)
  rw [remEuclid, rem_natCast]
  simp only [Int.cast_lt_zero, Nat.abs_cast]
  split
  case isTrue hneg =>
    have hsum : n % k = n.tmod k + k := by split at htmod <;> omega
    rw [hsum]
    push_cast
    rfl
  case isFalse hneg =>
    have hsame : n % k = n.tmod k := by split at htmod <;> omega
    rw [hsame]

/-! ### Casts of integers in range -/

/-- An integer of 32 bits is converted to itself. -/
theorem toI32_intCast {n : ℤ} (hlow : -2 ^ 31 ≤ n) (hhigh : n < 2 ^ 31) :
    (toI32 n).toInt = n := by
  rw [toI32, integral_intCast, Int32.toInt_ofIntClamp]
  · exact hlow
  · exact Int.le_sub_one_of_lt hhigh

/-- A sum that stays in range does not wrap. -/
theorem toInt_add_of_range (a b : Int32) (hlow : -2 ^ 31 ≤ a.toInt + b.toInt)
    (hhigh : a.toInt + b.toInt < 2 ^ 31) : (a + b).toInt = a.toInt + b.toInt := by
  rw [Int32.toInt_add]
  exact Int.bmod_eq_of_le (by omega) (by omega)

/-- A difference that stays in range does not wrap. -/
theorem toInt_sub_of_range (a b : Int32) (hlow : -2 ^ 31 ≤ a.toInt - b.toInt)
    (hhigh : a.toInt - b.toInt < 2 ^ 31) : (a - b).toInt = a.toInt - b.toInt := by
  rw [Int32.toInt_sub]
  exact Int.bmod_eq_of_le (by omega) (by omega)

/-- A natural number of 16 bits is converted to itself. -/
theorem toU16_intCast {n : ℤ} (hlow : 0 ≤ n) (hhigh : n < 2 ^ 16) :
    ((toU16 n).toNat : ℤ) = n := by
  rw [toU16, Int.floor_intCast, UInt16.toNat_ofNat_of_lt' (by simp [UInt16.size])]
  omega

/-- A natural number of 8 bits is converted to itself. -/
theorem toU8_intCast {n : ℤ} (hlow : 0 ≤ n) (hhigh : n < 2 ^ 8) :
    ((toU8 n).toNat : ℤ) = n := by
  rw [toU8, Int.floor_intCast, UInt8.toNat_ofNat_of_lt' (by simp [UInt8.size])]
  omega

end ExactDouble
