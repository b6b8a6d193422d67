import BoaLigero.Util.DoubleArithmetic
import Mathlib.Order.WithBot

/-!
# The Order of Doubles

Doubles that are numbers are ordered as their values, with an infinity at each end. Two doubles
of one value are the same but for the sign of zero.

## Main results

* `lt_iff`, `le_iff`, `beq_iff`: comparisons are those of the extended values;
* `eq_of_beq`: the bits of equal doubles that are not zeros;
* `datum_eq_iff`: a double is its value, its sign and whether it is a number;
* `trunc_beq_iff`, `isZero_fract`: the tests for integers.
-/

namespace F64

open ExactDouble

/-- The value, with an infinity at each end. -/
def extended (x : F64) : WithBot (WithTop ℚ) :=
  if x.isInfinite then if x.isNegative then ⊥ else ⊤ else ((x.value : WithTop ℚ) : WithBot _)

/-- What a double stands for: the sign counts for zero only, and all that is no number is one. -/
inductive Datum where
  | nan
  | number (value : WithBot (WithTop ℚ)) (negative : Bool)
  deriving DecidableEq

/-- The datum of a double. -/
def datum (x : F64) : Datum := if x.isNaN then .nan else .number x.extended x.isNegative

/-- `trunc`: the bits of the fraction below one are cleared. -/
def trunc (x : F64) : F64 :=
  if x.exponent < 1023 then zero x.isNegative
  else if 1075 ≤ x.exponent then x
  else ofFields x.isNegative x.exponent (x.fraction - x.fraction % 2 ^ (1075 - x.exponent))

/-- `fract`. -/
def fract (x : F64) : F64 := x.sub x.trunc

/-! ### Comparisons -/

/-- Numbers that are not infinite are finite. -/
theorem isFinite_of_isInfinite {x : F64} (hnan : x.isNaN = false) (hinf : x.isInfinite = false) :
    x.isFinite = true := by
  have hlt := x.exponent_lt
  have hne : x.exponent ≠ 2047 := by
    intro h
    simp only [isNaN, h, decide_true, Bool.true_and, decide_eq_false_iff_not, not_not] at hnan
    simp [isInfinite, h, hnan] at hinf
  exact decide_eq_true (by omega)

/-- The magnitude of the infinities. -/
def infiniteMagnitude : ℕ := 2 ^ 52 * 2 ^ (2047 - 1)

/-- The magnitude that stands for infinity is positive. -/
theorem infiniteMagnitude_pos : 0 < infiniteMagnitude := by
  unfold infiniteMagnitude
  positivity

/-- All infinities have one magnitude. -/
theorem magnitude_of_isInfinite {x : F64} (h : x.isInfinite = true) :
    x.magnitude = infiniteMagnitude := by
  simp only [isInfinite, Bool.and_eq_true, decide_eq_true_eq] at h
  rw [magnitude, significand, h.1, h.2, if_neg (by omega), Nat.add_zero, infiniteMagnitude]

/-- A number with a small exponent has a small magnitude. -/
theorem magnitude_lt_of_le {x : F64} {k : ℕ} (hle : x.exponent - 1 + 1 ≤ k) :
    x.magnitude < 2 ^ 52 * 2 ^ k :=
  calc x.magnitude < 2 ^ 53 * 2 ^ (x.exponent - 1) :=
        Nat.mul_lt_mul_of_pos_right x.significand_lt (by positivity)
    _ = 2 ^ 52 * 2 ^ (x.exponent - 1 + 1) := by ring
    _ ≤ 2 ^ 52 * 2 ^ k := Nat.mul_le_mul_left _ (Nat.pow_le_pow_right two_pos hle)

/-- Every finite double is smaller than the infinities. -/
theorem magnitude_of_isFinite {x : F64} (h : x.isFinite = true) :
    x.magnitude < infiniteMagnitude := by
  have hlt := of_decide_eq_true h
  rw [infiniteMagnitude]
  exact magnitude_lt_of_le (by omega)

/-- What is not NaN is finite or one of the two infinities. -/
theorem extended_cases {x : F64} (h : x.isNaN = false) :
    (x.extended = ((x.value : WithTop ℚ) : WithBot _) ∧
      -(infiniteMagnitude : ℤ) < x.units ∧ x.units < infiniteMagnitude) ∨
    (x.extended = ⊤ ∧ x.units = infiniteMagnitude) ∨
    (x.extended = ⊥ ∧ x.units = -(infiniteMagnitude : ℤ)) := by
  cases hinf : x.isInfinite
  · have hlt := magnitude_of_isFinite (isFinite_of_isInfinite h hinf)
    refine .inl ⟨by simp [extended, hinf], ?_⟩
    unfold units
    split <;> omega
  · have hmagnitude := magnitude_of_isInfinite hinf
    cases hneg : x.isNegative
    · exact .inr (.inl ⟨by simp [extended, hinf, hneg],
        by rw [units, hneg, if_neg Bool.false_ne_true, hmagnitude]⟩)
    · exact .inr (.inr ⟨by simp [extended, hinf, hneg],
        by rw [units, hneg, if_pos rfl, hmagnitude]⟩)

/-- The positive infinity is above all numbers. -/
theorem extended_eq_top_iff (x : F64) :
    x.extended = ⊤ ↔ x.isInfinite = true ∧ x.isNegative = false := by
  unfold extended
  cases x.isInfinite <;> cases x.isNegative <;> simp

/-- The negative infinity is below all numbers. -/
theorem extended_eq_bot_iff (x : F64) :
    x.extended = ⊥ ↔ x.isInfinite = true ∧ x.isNegative = true := by
  unfold extended
  cases x.isInfinite <;> cases x.isNegative <;> simp

/-- Values are compared as the units are. -/
theorem value_lt_iff (x y : F64) : x.value < y.value ↔ x.units < y.units := by
  rw [value, value, div_lt_div_iff_of_pos_right (by positivity), Int.cast_lt]

/-- The extended values of numbers are ordered as their units. -/
theorem extended_lt_iff {x y : F64} (hx : x.isNaN = false) (hy : y.isNaN = false) :
    x.extended < y.extended ↔ x.units < y.units := by
  have hpos := infiniteMagnitude_pos
  obtain ⟨hx, hxlow, hxhigh⟩ | ⟨hx, hxu⟩ | ⟨hx, hxu⟩ := extended_cases hx <;>
    obtain ⟨hy, hylow, hyhigh⟩ | ⟨hy, hyu⟩ | ⟨hy, hyu⟩ := extended_cases hy <;>
    rw [hx, hy]
  · rw [WithBot.coe_lt_coe, WithTop.coe_lt_coe, value_lt_iff]
  · exact iff_of_true (WithBot.coe_lt_coe.mpr (WithTop.coe_lt_top _)) (by omega)
  · exact iff_of_false not_lt_bot (by omega)
  · exact iff_of_false not_top_lt (by omega)
  · exact iff_of_false (lt_irrefl _) (by omega)
  · exact iff_of_false not_lt_bot (by omega)
  · exact iff_of_true (WithBot.bot_lt_coe _) (by omega)
  · exact iff_of_true bot_lt_top (by omega)
  · exact iff_of_false (lt_irrefl _) (by omega)

/-- Numbers are compared by `<` as their extended values are. -/
theorem lt_iff {x y : F64} (hx : x.isNaN = false) (hy : y.isNaN = false) :
    x.lt y = true ↔ x.extended < y.extended := by
  rw [extended_lt_iff hx hy]
  simp [lt, hx, hy]

/-- Numbers are compared by `≤` as their extended values are. -/
theorem le_iff {x y : F64} (hx : x.isNaN = false) (hy : y.isNaN = false) :
    x.le y = true ↔ x.extended ≤ y.extended := by
  rw [← not_lt, extended_lt_iff hy hx, not_lt]
  simp [le, hx, hy]

/-- Numbers are equal exactly if their extended values are. -/
theorem beq_iff {x y : F64} (hx : x.isNaN = false) (hy : y.isNaN = false) :
    x.beq y = true ↔ x.extended = y.extended := by
  have hle := le_iff hx hy
  have hge := le_iff hy hx
  have hunits : x.beq y = true ↔ x.le y = true ∧ y.le x = true := by
    simp only [beq, le, hx, hy, Bool.not_false, Bool.true_and, decide_eq_true_eq]
    exact le_antisymm_iff
  rw [hunits, hle, hge, ← le_antisymm_iff]

/-- The units and the sign make up a double. -/
theorem eq_of_units {x y : F64} (hunits : x.units = y.units)
    (hsign : x.isNegative = y.isNegative) : x = y := by
  have hmagnitude : x.magnitude = y.magnitude := by
    unfold units at hunits
    rw [hsign] at hunits
    split at hunits <;> omega
  obtain ⟨hexponent, hfraction⟩ := magnitude_injective hmagnitude
  exact fields_ext hsign hexponent hfraction

/-- Equal doubles have the same units. -/
theorem units_of_beq {x y : F64} (h : x.beq y = true) : x.units = y.units := by
  simp only [beq, Bool.and_eq_true, decide_eq_true_eq] at h
  exact h.2

/-- Equal doubles have the same bits, but for the sign of zero. -/
theorem eq_of_beq {x y : F64} (h : x.beq y = true) (hzero : x.isZero = false) : x = y := by
  have hunits := units_of_beq h
  have hne : x.magnitude ≠ 0 := by simpa [isZero] using hzero
  refine eq_of_units hunits ?_
  unfold units at hunits
  cases hx : x.isNegative <;> cases hy : y.isNegative <;> simp [hx, hy] at hunits ⊢ <;> omega

/-- Doubles stand for the same only if they are the same or both no numbers. -/
theorem datum_eq_iff {x y : F64} :
    x.datum = y.datum ↔ x.isNaN = true ∧ y.isNaN = true ∨ x = y := by
  constructor
  · intro h
    unfold datum at h
    cases hx : x.isNaN <;> cases hy : y.isNaN <;> simp [hx, hy] at h ⊢
    obtain ⟨hvalue, hsign⟩ := h
    exact eq_of_units (units_of_beq ((beq_iff hx hy).mpr hvalue)) hsign
  · rintro (⟨hx, hy⟩ | rfl)
    · simp [datum, hx, hy]
    · rfl

/-- Equality of doubles does not depend on the order of the two. -/
theorem beq_comm (x y : F64) : x.beq y = y.beq x := by
  rw [beq, beq, Bool.and_comm (!x.isNaN)]
  congr 1
  rw [decide_eq_decide, eq_comm]

/-- What is not a number is equal to nothing. -/
theorem beq_of_isNaN_left {x : F64} (h : x.isNaN = true) (y : F64) : x.beq y = false := by
  simp [beq, h]

/-- Machine integers are compared as their doubles. -/
theorem beq_ofInt32 (m n : Int32) : (ofInt32 m).beq (ofInt32 n) = decide (m = n) := by
  rw [beq, isNaN_ofInt32, isNaN_ofInt32, units_ofInt32, units_ofInt32, Bool.not_false,
    Bool.true_and, Bool.true_and, decide_eq_decide, mul_left_inj' (by positivity),
    Int32.toInt_inj]

/-- Integers of 32 bits are compared as doubles as they are as integers. -/
theorem lt_ofInt32 (m n : Int32) : (ofInt32 m).lt (ofInt32 n) = decide (m < n) := by
  rw [lt, isNaN_ofInt32, isNaN_ofInt32, units_ofInt32, units_ofInt32, Bool.not_false,
    Bool.true_and, Bool.true_and, decide_eq_decide, Int32.lt_iff_toInt_lt,
    mul_lt_mul_iff_left₀ (by positivity)]

/-! ### Integers -/

/-- A double is zero exactly if both fields are. -/
theorem isZero_iff (x : F64) : x.isZero = true ↔ x.exponent = 0 ∧ x.fraction = 0 := by
  have hpow : 2 ^ (x.exponent - 1) ≠ 0 := by positivity
  rw [isZero, decide_eq_true_iff, magnitude, Nat.mul_eq_zero, or_iff_left hpow, significand]
  split <;> omega

/-- Zeros of both signs have no magnitude. -/
theorem magnitude_zero (negative : Bool) : (zero negative).magnitude = 0 := by
  have h : (zero negative).isZero = true := by
    rw [isZero_iff, zero, exponent_ofFields (by omega) (by omega),
      fraction_ofFields (by omega) (by omega)]
    exact ⟨rfl, rfl⟩
  exact of_decide_eq_true h

/-- Truncation keeps the sign. -/
theorem isNegative_trunc (x : F64) : x.trunc.isNegative = x.isNegative := by
  have hfraction := x.fraction_lt
  have hexponent := x.exponent_lt
  unfold trunc
  split
  · exact isNegative_ofFields (by omega) (by omega)
  · split
    · rfl
    · exact isNegative_ofFields hexponent (by omega)

/-- A significand without the bits below one. -/
theorem truncated_significand {f k : ℕ} (hk : k ≤ 52) :
    2 ^ 52 + (f - f % 2 ^ k) = (2 ^ 52 + f) / 2 ^ k * 2 ^ k := by
  obtain ⟨c, hc⟩ : 2 ^ k ∣ 2 ^ 52 := Nat.pow_dvd_pow 2 hk
  have hdiv := Nat.div_add_mod f (2 ^ k)
  rw [hc, Nat.mul_add_div (by positivity), Nat.add_mul, mul_comm c, mul_comm (f / 2 ^ k)]
  omega

/-- Truncation rounds the magnitude down to a multiple of one. -/
theorem magnitude_trunc (x : F64) : x.trunc.magnitude = x.magnitude / 2 ^ 1074 * 2 ^ 1074 := by
  have hfraction := x.fraction_lt
  have hexponent := x.exponent_lt
  unfold trunc
  split
  case isTrue hsmall =>
    have hlt : x.magnitude < 2 ^ 1074 := by
      rw [show 1074 = 52 + 1022 from rfl, pow_add]
      exact magnitude_lt_of_le (by omega)
    rw [Nat.div_eq_of_lt hlt, magnitude_zero, Nat.zero_mul]
  case isFalse hone =>
    split
    case isTrue hlarge =>
      obtain ⟨k, hk⟩ : ∃ k, x.exponent - 1 = k + 1074 := ⟨x.exponent - 1075, by omega⟩
      rw [magnitude, hk, pow_add, ← mul_assoc, Nat.mul_div_cancel _ (by positivity)]
    case isFalse hmid =>
      obtain ⟨k, hk⟩ : ∃ k, 1075 - x.exponent = k := ⟨_, rfl⟩
      have hunit : 1074 = k + (x.exponent - 1) := by omega
      rw [magnitude, significand, exponent_ofFields hexponent (by omega), if_neg (by omega),
        fraction_ofFields hexponent (by omega), hk, truncated_significand (by omega), magnitude,
        significand, if_neg (by omega), hunit, pow_add, Nat.mul_div_mul_right _ _ (by positivity),
        mul_assoc]

/-- Whether the value is an integer. -/
def isIntegral (x : F64) : Bool := x.isFinite && x.magnitude % 2 ^ 1074 = 0

/-- What is not a number is not integral. -/
theorem isIntegral_of_isNaN {x : F64} (h : x.isNaN = true) : x.isIntegral = false := by
  rw [isIntegral, Bool.and_eq_false_iff]
  refine .inl (Bool.eq_false_iff.mpr fun hfinite => ?_)
  rw [isNaN_of_isFinite hfinite] at h
  cases h

/-- The value of an integral double. -/
theorem value_of_isIntegral {x : F64} (h : x.isIntegral = true) :
    x.value = (integral x.value : ℤ) := by
  simp only [isIntegral, Bool.and_eq_true, decide_eq_true_eq] at h
  obtain ⟨n, hn⟩ : ((2 ^ 1074 : ℕ) : ℤ) ∣ x.units := by
    have hdvd := Int.natCast_dvd_natCast.mpr (Nat.dvd_of_mod_eq_zero h.2)
    unfold units
    split
    · exact (Int.dvd_neg).mpr hdvd
    · exact hdvd
  have hvalue : x.value = (n : ℚ) := by
    rw [value, hn, Int.cast_mul, Int.cast_natCast, Nat.cast_pow, Nat.cast_ofNat,
      mul_div_cancel_left₀ _ (by positivity)]
  rw [hvalue, integral_intCast]

/-- The absolute value of the units is the magnitude. -/
theorem natAbs_units (x : F64) : x.units.natAbs = x.magnitude := by
  unfold units
  split <;> omega

/-- A double whose value is an integer is integral. -/
theorem isIntegral_of_value {x : F64} {n : ℤ} (hfinite : x.isFinite = true) (h : x.value = n) :
    x.isIntegral = true := by
  have hunits : x.units = n * (2 ^ 1074 : ℕ) := by
    rw [value, div_eq_iff (by positivity)] at h
    refine Int.cast_injective (α := ℚ) (h.trans ?_)
    rw [Int.cast_mul, Int.cast_natCast, Nat.cast_pow, Nat.cast_ofNat]
  have hmagnitude : x.magnitude = n.natAbs * 2 ^ 1074 := by
    rw [← natAbs_units, hunits, Int.natAbs_mul, Int.natAbs_natCast]
  rw [isIntegral, hfinite, hmagnitude, Nat.mul_mod_left]
  rfl

/-- Truncation does not make the exponent larger. -/
theorem exponent_trunc_le (x : F64) : x.trunc.exponent ≤ x.exponent := by
  have hfraction := x.fraction_lt
  have hexponent := x.exponent_lt
  unfold trunc
  split
  · rw [zero, exponent_ofFields (by omega) (by omega)]
    omega
  · split
    · exact le_rfl
    · exact (exponent_ofFields hexponent (by omega)).le

/-- A truncated finite double is finite. -/
theorem isFinite_trunc {x : F64} (h : x.isFinite = true) : x.trunc.isFinite = true :=
  decide_eq_true ((exponent_trunc_le x).trans_lt (of_decide_eq_true h))

/-- Truncation does nothing to integers only. -/
theorem units_trunc_eq_iff (x : F64) : x.trunc.units = x.units ↔ x.magnitude % 2 ^ 1074 = 0 := by
  have hmagnitude : x.trunc.units = x.units ↔ x.trunc.magnitude = x.magnitude := by
    rw [units, units, isNegative_trunc]
    split <;> omega
  rw [hmagnitude, magnitude_trunc, ← Nat.dvd_iff_mod_eq_zero, Nat.dvd_iff_div_mul_eq]

/-- `trunc` tells integers from fractions. -/
theorem trunc_beq_iff {x : F64} (hfinite : x.isFinite = true) :
    x.trunc.beq x = x.isIntegral := by
  have hnan := isNaN_of_isFinite hfinite
  have htrunc := isNaN_of_isFinite (isFinite_trunc hfinite)
  rw [beq, hnan, htrunc, isIntegral, hfinite, Bool.not_false, Bool.true_and, Bool.true_and,
    Bool.true_and, decide_eq_decide]
  exact units_trunc_eq_iff x

/-- What is at least the least positive double does not round to zero. -/
theorem isZero_round {q : ℚ} {m : ℕ} (h : q * 2 ^ 1074 = m) (hm : m ≠ 0) (negative : Bool) :
    (round negative q).isZero = false := by
  have hbits : ∀ shift, (shift = 0 → roundHalfEven (m / 2 ^ shift) ≠ 0) →
      shift * 2 ^ 52 + roundHalfEven (m / 2 ^ shift) ≠ 0 := by
    intro shift hzero hsum
    obtain rfl : shift = 0 := by omega
    exact hzero rfl (by omega)
  have hne := hbits (m.log2 - 52) (by
    intro hshift
    rw [hshift, pow_zero, div_one, roundHalfEven_natCast]
    exact hm)
  have hfalse : ∀ y : F64, (y.exponent ≠ 0 ∨ y.fraction ≠ 0) → y.isZero = false := by
    intro y hy
    rw [← Bool.not_eq_true, isZero_iff]
    tauto
  rw [round, h, Int.floor_natCast, Int.toNat_natCast]
  split
  case isTrue hlt =>
    refine hfalse _ ?_
    rw [exponent_ofFields (by omega) (by omega), fraction_ofFields (by omega) (by omega)]
    omega
  case isFalse =>
    refine hfalse _ (.inl ?_)
    rw [infinity, exponent_ofFields (by omega) (by omega)]
    omega

/-- An exact result in units of the least positive double is zero only if it is zero. -/
theorem isZero_ofValue {q : ℚ} {n : ℤ} (h : q * 2 ^ 1074 = n) (negativeZero : Bool) :
    (ofValue q negativeZero).isZero = decide (n = 0) := by
  by_cases hq : q = 0
  · have hn : n = 0 := by
      rw [hq, zero_mul] at h
      exact_mod_cast h.symm
    rw [ofValue, if_pos hq, isZero, magnitude_zero, hn]
    rfl
  · have hn : n ≠ 0 := by
      rintro rfl
      rw [Int.cast_zero] at h
      exact hq ((mul_eq_zero.mp h).resolve_right (by positivity))
    have habs : |q| * 2 ^ 1074 = (n.natAbs : ℚ) := by
      have hpow : (0 : ℚ) < 2 ^ 1074 := by positivity
      rw [← abs_of_pos hpow, ← abs_mul, h, Nat.cast_natAbs, Int.cast_abs]
    rw [ofValue, if_neg hq, isZero_round habs (Int.natAbs_ne_zero.mpr hn), decide_eq_false hn]

/-- `fract` is no number where the double is not finite. -/
theorem fract_of_not_isFinite {x : F64} (h : x.isFinite = false) : x.fract = nan := by
  have hexponent : x.exponent = 2047 := by
    have := x.exponent_lt
    have := of_decide_eq_false h
    omega
  have htrunc : x.trunc = x := by
    rw [trunc, if_neg (by omega), if_pos (by omega)]
  rw [fract, htrunc, sub, add, isNaN_neg, isInfinite_neg, isNegative_neg]
  cases hnan : x.isNaN
  · have hinf : x.isInfinite = true := by
      by_contra hnot
      rw [isFinite_of_isInfinite hnan (by simpa using hnot)] at h
      cases h
    cases hneg : x.isNegative <;> simp [hinf]
  · simp

/-- `fract` tells integers from all other doubles. -/
theorem isZero_fract (x : F64) : x.fract.isZero = x.isIntegral := by
  cases hfinite : x.isFinite
  · have hnan : nan.isZero = false := by
      rw [← Bool.not_eq_true, isZero_iff]
      decide
    rw [fract_of_not_isFinite hfinite, isIntegral, hfinite, hnan, Bool.false_and]
  · have htrunc := isFinite_trunc hfinite
    have hexact : (x.value + -x.trunc.value) * 2 ^ 1074 = (x.units - x.trunc.units : ℤ) := by
      rw [value, value, ← sub_eq_add_neg, ← sub_div, div_mul_cancel₀ _ (by positivity),
        Int.cast_sub]
    have hzero : (x.units - x.trunc.units = 0) ↔ x.magnitude % 2 ^ 1074 = 0 := by
      rw [← units_trunc_eq_iff, sub_eq_zero, eq_comm]
    rw [fract, sub, add, isNaN_neg, isInfinite_neg, isNaN_of_isFinite hfinite,
      isNaN_of_isFinite htrunc, isInfinite_of_isFinite hfinite, isInfinite_of_isFinite htrunc,
      value_neg]
    simp only [Bool.or_self, Bool.false_eq_true, if_false]
    rw [isZero_ofValue hexact, isIntegral, hfinite, Bool.true_and, decide_eq_decide]
    exact hzero

/-- A double with a fraction is smaller than `2 ^ 52`. -/
theorem magnitude_lt_of_fraction {x : F64} (hfinite : x.isFinite = true)
    (hfraction : x.isIntegral = false) : x.magnitude < 2 ^ 52 * 2 ^ 1074 := by
  rw [isIntegral, hfinite, Bool.true_and, decide_eq_false_iff_not] at hfraction
  by_cases hsmall : x.exponent < 1075
  · exact magnitude_lt_of_le (by omega)
  · obtain ⟨k, hk⟩ : ∃ k, x.exponent - 1 = k + 1074 := ⟨x.exponent - 1075, by omega⟩
    rw [magnitude, hk, pow_add, ← mul_assoc, Nat.mul_mod_left] at hfraction
    exact absurd rfl hfraction

/-- The absolute value of a double is its magnitude, in the least units. -/
theorem abs_value (x : F64) : |x.value| = (x.magnitude : ℚ) / 2 ^ 1074 := by
  have hpow : (0 : ℚ) < 2 ^ 1074 := by positivity
  rw [value, abs_div, abs_of_pos hpow, ← Int.cast_abs, Int.abs_eq_natAbs, natAbs_units,
    Int.cast_natCast]

/-- A double with a fraction is below `2 ^ 53`. -/
theorem abs_value_lt_of_fraction {x : F64} (hfinite : x.isFinite = true)
    (hfraction : x.isIntegral = false) : |x.value| < 2 ^ 53 := by
  have hlt := magnitude_lt_of_fraction hfinite hfraction
  rw [abs_value, div_lt_iff₀ (by positivity)]
  calc (x.magnitude : ℚ) < ((2 ^ 52 * 2 ^ 1074 : ℕ) : ℚ) := Nat.cast_lt.mpr hlt
    _ = 2 ^ 52 * 2 ^ 1074 := by rw [Nat.cast_mul, Nat.cast_pow, Nat.cast_pow, Nat.cast_ofNat]
    _ ≤ 2 ^ 53 * 2 ^ 1074 := mul_le_mul_of_nonneg_right (by norm_num) (by positivity)

end F64
