import BoaLigero.Util.Double
import Mathlib.Algebra.Order.Field.Rat
import Mathlib.Data.Int.Log
import Mathlib.Tactic.Ring
import Mathlib.Tactic.FieldSimp
import Mathlib.Tactic.NormNum

/-!
# The Values of Doubles

The rational number that a double stands for. All finite doubles are whole multiples of the least
positive one, `2 ^ -1074`, so that values are compared as integers. The same formula gives an
infinity the value `2 ^ 1024`, which is beyond every finite double: comparisons need no case
for it.

## Main results

* `fields_ext`: a double is its sign, exponent and fraction;
* `magnitude_injective`: finite doubles of one magnitude have the same exponent and fraction;
* `value_ofInteger`, `value_ofInt32`: integers of at most 53 bits are doubles, so that the
  conversion of machine integers is exact.
-/

namespace F64

/-- The fraction with its hidden bit. -/
def significand (x : F64) : ℕ := if x.exponent = 0 then x.fraction else 2 ^ 52 + x.fraction

/-- The absolute value, in units of the least positive double. -/
def magnitude (x : F64) : ℕ := x.significand * 2 ^ (x.exponent - 1)

/-- The value, in units of the least positive double. -/
def units (x : F64) : ℤ := if x.isNegative then -x.magnitude else x.magnitude

/-- The number a double stands for. -/
def value (x : F64) : ℚ := x.units / 2 ^ 1074

/-- `is_finite`. -/
def isFinite (x : F64) : Bool := x.exponent < 2047

/-- `==`. -/
def beq (x y : F64) : Bool := !x.isNaN && !y.isNaN && x.units = y.units

/-- `<`. -/
def lt (x y : F64) : Bool := !x.isNaN && !y.isNaN && x.units < y.units

/-- `<=`. -/
def le (x y : F64) : Bool := !x.isNaN && !y.isNaN && x.units ≤ y.units

/-- The double with the given fields. -/
def ofFields (negative : Bool) (exponent fraction : ℕ) : F64 :=
  ⟨BitVec.ofNat 64 ((if negative then 2 ^ 63 else 0) + exponent * 2 ^ 52 + fraction)⟩

/-! ### Fields -/

section Fields

variable {negative : Bool} {exponent fraction : ℕ}

/-- The exponent field has eleven bits. -/
theorem exponent_lt (x : F64) : x.exponent < 2048 := Nat.mod_lt _ (by omega)

/-- The fraction field has 52 bits. -/
theorem fraction_lt (x : F64) : x.fraction < 2 ^ 52 := Nat.mod_lt _ (by omega)

/-- The bits of fields are the fields next to each other. -/
theorem toNat_ofFields (he : exponent < 2048) (hf : fraction < 2 ^ 52) :
    (ofFields negative exponent fraction).bits.toNat =
      (if negative then 2 ^ 63 else 0) + exponent * 2 ^ 52 + fraction := by
  rw [ofFields, BitVec.toNat_ofNat]
  split <;> omega

/-- The sign of fields is the sign that was put in. -/
@[simp]
theorem isNegative_ofFields (he : exponent < 2048) (hf : fraction < 2 ^ 52) :
    (ofFields negative exponent fraction).isNegative = negative := by
  rw [isNegative, toNat_ofFields he hf]
  cases negative <;> simp <;> omega

/-- The exponent of fields is the exponent that was put in. -/
@[simp]
theorem exponent_ofFields (he : exponent < 2048) (hf : fraction < 2 ^ 52) :
    (ofFields negative exponent fraction).exponent = exponent := by
  rw [F64.exponent, toNat_ofFields he hf]
  split <;> omega

/-- The fraction of fields is the fraction that was put in. -/
@[simp]
theorem fraction_ofFields (he : exponent < 2048) (hf : fraction < 2 ^ 52) :
    (ofFields negative exponent fraction).fraction = fraction := by
  rw [F64.fraction, toNat_ofFields he hf]
  split <;> omega

/-- A double is its sign, exponent and fraction. -/
theorem fields_ext {x y : F64} (hs : x.isNegative = y.isNegative) (he : x.exponent = y.exponent)
    (hf : x.fraction = y.fraction) : x = y := by
  have hx := x.bits.isLt
  have hy := y.bits.isLt
  simp only [isNegative, decide_eq_decide] at hs
  unfold F64.exponent at he
  unfold F64.fraction at hf
  have hbits : x.bits.toNat = y.bits.toNat := by omega
  cases x with | mk bx =>
  cases y with | mk b_y =>
  exact congrArg F64.mk (BitVec.eq_of_toNat_eq hbits)

end Fields

/-! ### Magnitudes -/

/-- A significand has at most 53 bits. -/
theorem significand_lt (x : F64) : x.significand < 2 ^ 53 := by
  have := x.fraction_lt
  unfold significand
  split <;> omega

/-- Doubles with a hidden bit are at least as large as the bit. -/
theorem le_significand {x : F64} (h : x.exponent ≠ 0) : 2 ^ 52 ≤ x.significand := by
  rw [significand, if_neg h]
  omega

/-- The exponent decides first. -/
theorem magnitude_lt_of_exponent_lt {x y : F64} (h : x.exponent < y.exponent) :
    x.magnitude < y.magnitude := by
  have hbit := le_significand (x := y) (by omega)
  obtain hzero | hpos := Nat.eq_zero_or_pos x.exponent
  · have hfraction := x.fraction_lt
    calc x.magnitude = x.fraction := by simp [magnitude, significand, hzero]
      _ < y.significand := by omega
      _ ≤ y.magnitude := Nat.le_mul_of_pos_right _ (by positivity)
  · obtain ⟨k, hk⟩ : ∃ k, y.exponent - 1 = x.exponent - 1 + 1 + k :=
      ⟨y.exponent - 1 - x.exponent, by omega⟩
    calc x.magnitude < 2 ^ 53 * 2 ^ (x.exponent - 1) :=
          Nat.mul_lt_mul_of_pos_right x.significand_lt (by positivity)
      _ = 2 ^ 52 * 2 ^ (x.exponent - 1 + 1) := by ring
      _ ≤ y.significand * 2 ^ (y.exponent - 1) :=
          Nat.mul_le_mul hbit (Nat.pow_le_pow_right (by omega) (by omega))

/-- Doubles of one magnitude have the same exponent and fraction. -/
theorem magnitude_injective {x y : F64} (h : x.magnitude = y.magnitude) :
    x.exponent = y.exponent ∧ x.fraction = y.fraction := by
  have hexponent : x.exponent = y.exponent := by
    by_contra hne
    obtain hlt | hgt := Nat.lt_or_gt_of_ne hne
    · exact absurd h (magnitude_lt_of_exponent_lt hlt).ne
    · exact absurd h (magnitude_lt_of_exponent_lt hgt).ne'
  have hsignificand : x.significand = y.significand := by
    rw [magnitude, magnitude, hexponent] at h
    exact Nat.eq_of_mul_eq_mul_right (by positivity) h
  unfold significand at hsignificand
  refine ⟨hexponent, ?_⟩
  rw [hexponent] at hsignificand
  split at hsignificand <;> omega

/-! ### Integers -/

/-- The double of an integer of at most 53 bits. -/
def ofInteger (n : ℤ) : F64 :=
  if n = 0 then ⟨0⟩
  else ofFields (n < 0) (1023 + n.natAbs.log2) (n.natAbs * 2 ^ (52 - n.natAbs.log2) - 2 ^ 52)

/-- An integer of 32 bits is the double of that integer. -/
theorem ofInt32_eq_ofInteger (n : Int32) : ofInt32 n = ofInteger n.toInt := by
  by_cases hn : n.toInt = 0
  · simp [ofInt32, ofInteger, hn]
  · simp [ofInt32, ofInteger, ofFields, hn]

section Integer

variable {n : ℤ} (hn : n.natAbs < 2 ^ 53)

include hn

/-- An integer below `2 ^ 53` has at most 53 bits. -/
theorem log2_natAbs_le : n.natAbs.log2 ≤ 52 := by
  obtain hzero | hne := eq_or_ne n.natAbs 0
  · simp [hzero]
  · have := (Nat.log2_lt hne).mpr hn
    omega

/-- The bits of an integer, moved until the first one is the hidden one. -/
theorem log2_shift_bounds (hne : n ≠ 0) :
    2 ^ 52 ≤ n.natAbs * 2 ^ (52 - n.natAbs.log2) ∧
      n.natAbs * 2 ^ (52 - n.natAbs.log2) < 2 ^ 53 := by
  have hlog := log2_natAbs_le hn
  have hle := Nat.log2_self_le (Int.natAbs_ne_zero.mpr hne)
  have hlt := Nat.lt_log2_self (n := n.natAbs)
  constructor
  · calc 2 ^ 52 = 2 ^ n.natAbs.log2 * 2 ^ (52 - n.natAbs.log2) := by
          rw [← pow_add, Nat.add_sub_cancel' hlog]
      _ ≤ n.natAbs * 2 ^ (52 - n.natAbs.log2) := Nat.mul_le_mul_right _ hle
  · calc n.natAbs * 2 ^ (52 - n.natAbs.log2)
        < 2 ^ (n.natAbs.log2 + 1) * 2 ^ (52 - n.natAbs.log2) :=
          Nat.mul_lt_mul_of_pos_right hlt (by positivity)
      _ = 2 ^ 53 := by
          rw [← pow_add]
          congr 1
          omega

/-- The fields of an integer that is not zero. -/
theorem ofInteger_fields (hne : n ≠ 0) :
    (ofInteger n).isNegative = decide (n < 0) ∧
      (ofInteger n).exponent = 1023 + n.natAbs.log2 ∧
      (ofInteger n).significand = n.natAbs * 2 ^ (52 - n.natAbs.log2) := by
  have hlog := log2_natAbs_le hn
  obtain ⟨hlow, hhigh⟩ := log2_shift_bounds hn hne
  have hexponent : 1023 + n.natAbs.log2 < 2048 := by omega
  have hfraction : n.natAbs * 2 ^ (52 - n.natAbs.log2) - 2 ^ 52 < 2 ^ 52 := by omega
  rw [ofInteger, if_neg hne, significand, isNegative_ofFields hexponent hfraction,
    exponent_ofFields hexponent hfraction, fraction_ofFields hexponent hfraction]
  refine ⟨rfl, rfl, ?_⟩
  rw [if_neg (by omega)]
  omega

/-- The double of an integer has its sign; zero is positive. -/
theorem isNegative_ofInteger : (ofInteger n).isNegative = decide (n < 0) := by
  obtain rfl | hne := eq_or_ne n 0
  · rfl
  · exact (ofInteger_fields hn hne).1

/-- The double of an integer is finite. -/
theorem isFinite_ofInteger : (ofInteger n).isFinite = true := by
  obtain rfl | hne := eq_or_ne n 0
  · rfl
  · have hlog := log2_natAbs_le hn
    rw [isFinite, (ofInteger_fields hn hne).2.1]
    exact decide_eq_true (by omega)

/-- The magnitude of the double of an integer is its absolute value, in the least units. -/
theorem magnitude_ofInteger : (ofInteger n).magnitude = n.natAbs * 2 ^ 1074 := by
  obtain rfl | hne := eq_or_ne n 0
  · have hzero : (ofInteger 0).magnitude = 0 := rfl
    rw [hzero, Int.natAbs_zero, Nat.zero_mul]
  · obtain ⟨-, hexponent, hsignificand⟩ := ofInteger_fields hn hne
    have hlog := log2_natAbs_le hn
    have hshift : 52 - n.natAbs.log2 + (1023 + n.natAbs.log2 - 1) = 1074 := by omega
    rw [magnitude, hsignificand, hexponent, mul_assoc, ← pow_add, hshift]

/-- The double of an integer is the integer, in the least units. -/
theorem units_ofInteger : (ofInteger n).units = n * 2 ^ 1074 := by
  rw [units, magnitude_ofInteger hn, isNegative_ofInteger hn, Nat.cast_mul, Nat.cast_pow,
    Nat.cast_ofNat]
  split
  case isTrue hneg =>
    have hneg := of_decide_eq_true hneg
    rw [Int.ofNat_natAbs_of_nonpos hneg.le, neg_mul, neg_neg]
  case isFalse hneg =>
    have hpos : 0 ≤ n := not_lt.mp (by simpa using hneg)
    rw [Int.natAbs_of_nonneg hpos]

/-- Integers of at most 53 bits are doubles. -/
theorem value_ofInteger : (ofInteger n).value = n := by
  rw [value, units_ofInteger hn, Int.cast_mul, Int.cast_pow, Int.cast_ofNat,
    mul_div_cancel_right₀ _ (by positivity)]

end Integer

/-- An integer of 32 bits is small enough to be exact. -/
theorem natAbs_toInt_lt (n : Int32) : n.toInt.natAbs < 2 ^ 53 := by
  have hlow := n.le_toInt
  have hhigh := n.toInt_lt
  omega

/-- The double of an integer of 32 bits has its sign; zero is positive. -/
theorem isNegative_ofInt32 (n : Int32) : (ofInt32 n).isNegative = decide (n.toInt < 0) := by
  rw [ofInt32_eq_ofInteger, isNegative_ofInteger (natAbs_toInt_lt n)]

/-- The double of an integer of 32 bits is finite. -/
theorem isFinite_ofInt32 (n : Int32) : (ofInt32 n).isFinite = true := by
  rw [ofInt32_eq_ofInteger, isFinite_ofInteger (natAbs_toInt_lt n)]

/-- The magnitude of the double of an integer of 32 bits is its absolute value, in the least units.
-/
theorem magnitude_ofInt32 (n : Int32) : (ofInt32 n).magnitude = n.toInt.natAbs * 2 ^ 1074 := by
  rw [ofInt32_eq_ofInteger, magnitude_ofInteger (natAbs_toInt_lt n)]

/-- The double of an integer of 32 bits is the integer, in the least units. -/
theorem units_ofInt32 (n : Int32) : (ofInt32 n).units = n.toInt * 2 ^ 1074 := by
  rw [ofInt32_eq_ofInteger, units_ofInteger (natAbs_toInt_lt n)]

/-- The conversion of machine integers is exact. -/
theorem value_ofInt32 (n : Int32) : (ofInt32 n).value = n.toInt := by
  rw [ofInt32_eq_ofInteger, value_ofInteger (natAbs_toInt_lt n)]

/-- A finite double is a number. -/
theorem isNaN_of_isFinite {x : F64} (h : x.isFinite = true) : x.isNaN = false := by
  have : x.exponent ≠ 2047 := (of_decide_eq_true h).ne
  simp [isNaN, this]

end F64
