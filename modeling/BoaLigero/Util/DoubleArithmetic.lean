import BoaLigero.Util.DoubleValue
import BoaLigero.Util.ExactDouble

/-!
# Arithmetic of Doubles

The operations on binary64 numbers: the exact result of the operands' values, rounded to the
nearest double with ties to even, and the cases of infinities, zeros of both signs, and what is
not a number.

## Main results

* `round_value`: a double is its own nearest double;
* `ofValue_intCast`: the double of an exact 32-bit integer;
* `add_ofInt32`, `sub_ofInt32`, `mul_ofInt32`, `div_ofInt32`, `rem_ofInt32`, `neg_ofInt32`: the
  operations on integers.
-/

namespace F64

open ExactDouble

/-- Zero, with a sign. -/
def zero (negative : Bool) : F64 := ofFields negative 0 0

/-- The infinity of a sign. -/
def infinity (negative : Bool) : F64 := ofFields negative 2047 0

/-- The result of invalid operations. -/
def nan : F64 := ofFields false 2047 (2 ^ 51)

/-- Whether the double is an infinity. -/
def isInfinite (x : F64) : Bool := x.exponent = 2047 && x.fraction = 0

/-- Whether the double is a zero. -/
def isZero (x : F64) : Bool := x.magnitude = 0

/-! ### Rounding -/

/-- The nearest natural number, ties to even. -/
def roundHalfEven (q : ℚ) : ℕ :=
  let n := ⌊q⌋.toNat
  if q - n < 1 / 2 then n
  else if 1 / 2 < q - n then n + 1
  else if n % 2 = 0 then n
  else n + 1

/-- The nearest double of a positive number. A significand that rounds up to the next power of
two carries into the exponent, and beyond the largest double there is the infinity. -/
def round (negative : Bool) (q : ℚ) : F64 :=
  let units := q * 2 ^ 1074
  let shift := ⌊units⌋.toNat.log2 - 52
  let bits := shift * 2 ^ 52 + roundHalfEven (units / 2 ^ shift)
  if bits < 2047 * 2 ^ 52 then ofFields negative (bits / 2 ^ 52) (bits % 2 ^ 52)
  else infinity negative

/-- The double of an exact result; the sign of a zero is that of the operation. -/
def ofValue (q : ℚ) (negativeZero : Bool) : F64 :=
  if q = 0 then zero negativeZero else round (q < 0) |q|

/-! ### Operations -/

/-- Unary `-`. -/
def neg (x : F64) : F64 := ofFields (!x.isNegative) x.exponent x.fraction

/-- `copysign`. -/
def copysign (x sign : F64) : F64 := ofFields sign.isNegative x.exponent x.fraction

/-- `+`. -/
def add (x y : F64) : F64 :=
  if x.isNaN || y.isNaN then nan
  else if x.isInfinite then
    if y.isInfinite && x.isNegative != y.isNegative then nan else x
  else if y.isInfinite then y
  else ofValue (x.value + y.value) (x.isNegative && y.isNegative)

/-- `-`. -/
def sub (x y : F64) : F64 := add x y.neg

/-- `*`. -/
def mul (x y : F64) : F64 :=
  let negative := x.isNegative ^^ y.isNegative
  if x.isNaN || y.isNaN then nan
  else if x.isInfinite || y.isInfinite then
    if x.isZero || y.isZero then nan else infinity negative
  else ofValue (x.value * y.value) negative

/-- `/`. -/
def div (x y : F64) : F64 :=
  let negative := x.isNegative ^^ y.isNegative
  if x.isNaN || y.isNaN then nan
  else if x.isInfinite then
    if y.isInfinite then nan else infinity negative
  else if y.isInfinite then zero negative
  else if y.isZero then
    if x.isZero then nan else infinity negative
  else ofValue (x.value / y.value) negative

/-- `%`. -/
def rem (x y : F64) : F64 :=
  if x.isNaN || y.isNaN || x.isInfinite || y.isZero then nan
  else if y.isInfinite then x
  else ofValue (ExactDouble.rem x.value y.value) x.isNegative

/-! ### Doubles are their own nearest doubles -/

/-- A natural number is not rounded. -/
theorem roundHalfEven_natCast (n : ℕ) : roundHalfEven n = n := by
  simp [roundHalfEven]

/-- The exponent counts how far the significand is moved. -/
theorem log2_magnitude (x : F64) : x.magnitude.log2 - 52 = x.exponent - 1 := by
  obtain hzero | hpos := Nat.eq_zero_or_pos x.exponent
  · have hfraction := x.fraction_lt
    have hmagnitude : x.magnitude = x.fraction := by simp [magnitude, significand, hzero]
    obtain h0 | hne := eq_or_ne x.fraction 0
    · simp [hmagnitude, h0, hzero]
    · have := (Nat.log2_lt hne).mpr hfraction
      rw [hmagnitude]
      omega
  · have hbit := le_significand (x := x) (by omega)
    have hlt := x.significand_lt
    have hne : x.magnitude ≠ 0 := by
      rw [magnitude]
      have : 0 < 2 ^ (x.exponent - 1) := by positivity
      positivity
    have hlog : x.magnitude.log2 = 52 + (x.exponent - 1) := by
      rw [Nat.log2_eq_iff hne, magnitude]
      constructor
      · rw [pow_add]
        exact Nat.mul_le_mul_right _ hbit
      · rw [show 52 + (x.exponent - 1) + 1 = 53 + (x.exponent - 1) by omega, pow_add]
        exact Nat.mul_lt_mul_of_pos_right hlt (by positivity)
    omega

/-- A double is made of its fields. -/
theorem ofFields_self (x : F64) : ofFields x.isNegative x.exponent x.fraction = x := by
  have he := x.exponent_lt
  have hf := x.fraction_lt
  exact fields_ext (isNegative_ofFields he hf) (exponent_ofFields he hf) (fraction_ofFields he hf)

/-- A finite double is the nearest double to its own absolute value. -/
theorem round_value {x : F64} (hfinite : x.isFinite = true) :
    round x.isNegative (x.magnitude / 2 ^ 1074) = x := by
  have hunits : (x.magnitude : ℚ) / 2 ^ 1074 * 2 ^ 1074 = x.magnitude :=
    div_mul_cancel₀ _ (by positivity)
  have hsignificand : (x.magnitude : ℚ) / 2 ^ (x.exponent - 1) = x.significand := by
    rw [magnitude, Nat.cast_mul, Nat.cast_pow, Nat.cast_ofNat,
      mul_div_cancel_right₀ _ (by positivity)]
  have hexponent := of_decide_eq_true hfinite
  have hfraction := x.fraction_lt
  have hbits : (x.exponent - 1) * 2 ^ 52 + x.significand = x.exponent * 2 ^ 52 + x.fraction := by
    unfold significand
    split <;> omega
  rw [round, hunits, Int.floor_natCast, Int.toNat_natCast, log2_magnitude, hsignificand,
    roundHalfEven_natCast]
  simp only [hbits]
  rw [if_pos (by omega), show (x.exponent * 2 ^ 52 + x.fraction) / 2 ^ 52 = x.exponent by omega,
    show (x.exponent * 2 ^ 52 + x.fraction) % 2 ^ 52 = x.fraction by omega, ofFields_self]

/-- The double of an exact integer; zero is positive where the operation makes it so. -/
theorem ofValue_intCast {n : Int32} {negativeZero : Bool} (hzero : n = 0 → negativeZero = false) :
    ofValue n.toInt negativeZero = ofInt32 n := by
  rw [ofValue]
  by_cases hn : n.toInt = 0
  · obtain rfl : n = 0 := Int32.toInt_inj.mp hn
    rw [if_pos (by exact_mod_cast hn), hzero rfl]
    rfl
  · have habs : |(n.toInt : ℚ)| = ((ofInt32 n).magnitude : ℚ) / 2 ^ 1074 := by
      rw [magnitude_ofInt32, Nat.cast_mul, Nat.cast_pow, Nat.cast_ofNat,
        mul_div_cancel_right₀ _ (by positivity), Nat.cast_natAbs, Int.cast_abs]
    have hsign : decide ((n.toInt : ℚ) < 0) = (ofInt32 n).isNegative := by
      rw [isNegative_ofInt32, decide_eq_decide, Int.cast_lt_zero]
    rw [if_neg (by exact_mod_cast hn), habs, hsign, round_value (isFinite_ofInt32 n)]

/-! ### Operations on integers -/

/-- An integer of 32 bits is a number. -/
theorem isNaN_ofInt32 (n : Int32) : (ofInt32 n).isNaN = false :=
  isNaN_of_isFinite (isFinite_ofInt32 n)

/-- A finite double is not infinite. -/
theorem isInfinite_of_isFinite {x : F64} (h : x.isFinite = true) : x.isInfinite = false := by
  have : x.exponent ≠ 2047 := (of_decide_eq_true h).ne
  simp [isInfinite, this]

/-- An integer of 32 bits is not infinite. -/
theorem isInfinite_ofInt32 (n : Int32) : (ofInt32 n).isInfinite = false :=
  isInfinite_of_isFinite (isFinite_ofInt32 n)

/-- An integer of 32 bits is zero as a double exactly if it is zero. -/
theorem isZero_ofInt32 (n : Int32) : (ofInt32 n).isZero = decide (n = 0) := by
  rw [isZero, magnitude_ofInt32, decide_eq_decide, Nat.mul_eq_zero, Int.natAbs_eq_zero]
  have hzero : (0 : Int32).toInt = 0 := rfl
  rw [← Int32.toInt_inj, hzero]
  exact or_iff_left (by positivity)

/-- The negation has the other sign. -/
theorem isNegative_neg (x : F64) : x.neg.isNegative = !x.isNegative :=
  isNegative_ofFields x.exponent_lt x.fraction_lt

/-- The negation has the same exponent. -/
theorem exponent_neg (x : F64) : x.neg.exponent = x.exponent :=
  exponent_ofFields x.exponent_lt x.fraction_lt

/-- The negation has the same fraction. -/
theorem fraction_neg (x : F64) : x.neg.fraction = x.fraction :=
  fraction_ofFields x.exponent_lt x.fraction_lt

/-- The negation has the negated value. -/
theorem value_neg (x : F64) : x.neg.value = -x.value := by
  have hmagnitude : x.neg.magnitude = x.magnitude := by
    simp only [magnitude, significand, exponent_neg, fraction_neg]
  have hunits : x.neg.units = -x.units := by
    rw [units, units, isNegative_neg, hmagnitude]
    cases x.isNegative <;> simp
  rw [value, value, hunits, Int.cast_neg, neg_div]

/-- The negation is a number exactly if the double is one. -/
theorem isNaN_neg (x : F64) : x.neg.isNaN = x.isNaN := by
  rw [isNaN, isNaN, exponent_neg, fraction_neg]

/-- The negation is infinite exactly if the double is. -/
theorem isInfinite_neg (x : F64) : x.neg.isInfinite = x.isInfinite := by
  rw [isInfinite, isInfinite, exponent_neg, fraction_neg]

/-- The sum of integers is rounded from the exact one, and is `-0` for no integers. -/
theorem add_ofInt32 (x y : Int32) :
    add (ofInt32 x) (ofInt32 y) =
      ofValue ((x.toInt + y.toInt : ℤ) : ℚ) (decide (x.toInt < 0) && decide (y.toInt < 0)) := by
  simp [add, isNaN_ofInt32, isInfinite_ofInt32, value_ofInt32, isNegative_ofInt32]

/-- The difference of integers is rounded from the exact one. -/
theorem sub_ofInt32 (x y : Int32) :
    sub (ofInt32 x) (ofInt32 y) =
      ofValue ((x.toInt - y.toInt : ℤ) : ℚ) (decide (x.toInt < 0) && !decide (y.toInt < 0)) := by
  simp [sub, add, isNaN_ofInt32, isInfinite_ofInt32, value_ofInt32, isNegative_ofInt32, isNaN_neg,
    isInfinite_neg, value_neg, isNegative_neg, sub_eq_add_neg]

/-- The product of integers is rounded from the exact one, and has a sign also where it is zero. -/
theorem mul_ofInt32 (x y : Int32) :
    mul (ofInt32 x) (ofInt32 y) =
      ofValue ((x.toInt * y.toInt : ℤ) : ℚ) (decide (x.toInt < 0) ^^ decide (y.toInt < 0)) := by
  simp [mul, isNaN_ofInt32, isInfinite_ofInt32, value_ofInt32, isNegative_ofInt32]

/-- An exact quotient of integers. -/
theorem div_ofInt32 {x y : Int32} (hy : y ≠ 0) {q : ℤ} (hq : y.toInt * q = x.toInt) :
    div (ofInt32 x) (ofInt32 y) =
      ofValue (q : ℚ) (decide (x.toInt < 0) ^^ decide (y.toInt < 0)) := by
  have hy' : (y.toInt : ℚ) ≠ 0 := by
    have hzero : (0 : Int32).toInt = 0 := rfl
    rw [Int.cast_ne_zero, ← hzero]
    exact fun h => hy (Int32.toInt_inj.mp h)
  have hquotient : (x.toInt : ℚ) / y.toInt = q := by
    rw [div_eq_iff hy', ← hq, Int.cast_mul, mul_comm]
  simp [div, isNaN_ofInt32, isInfinite_ofInt32, value_ofInt32, isNegative_ofInt32, isZero_ofInt32,
    hy, hquotient]

/-- The remainder of integers. -/
theorem rem_ofInt32 {x y : Int32} (hy : y ≠ 0) :
    rem (ofInt32 x) (ofInt32 y) = ofValue (x.toInt.tmod y.toInt) (decide (x.toInt < 0)) := by
  have hrem : ExactDouble.rem (x.toInt : ℚ) y.toInt = x.toInt.tmod y.toInt :=
    ExactDouble.rem_intCast _ _
  simp [rem, isNaN_ofInt32, isInfinite_ofInt32, value_ofInt32, isNegative_ofInt32, isZero_ofInt32,
    hy, hrem]

/-- The negation of an integer that is not zero. -/
theorem neg_ofInt32 {n m : Int32} (hn : n ≠ 0) (hm : m.toInt = -n.toInt) :
    neg (ofInt32 n) = ofInt32 m := by
  have hzero : (0 : Int32).toInt = 0 := rfl
  have hne : n.toInt ≠ 0 := fun h => hn (Int32.toInt_inj.mp (h.trans hzero.symm))
  have hmagnitude : (neg (ofInt32 n)).magnitude = (ofInt32 m).magnitude := by
    have : (neg (ofInt32 n)).magnitude = (ofInt32 n).magnitude := by
      simp only [magnitude, significand, exponent_neg, fraction_neg]
    rw [this, magnitude_ofInt32, magnitude_ofInt32, hm, Int.natAbs_neg]
  obtain ⟨hexponent, hfraction⟩ := magnitude_injective hmagnitude
  refine fields_ext ?_ hexponent hfraction
  rw [isNegative_neg, isNegative_ofInt32, isNegative_ofInt32, hm, ← decide_not, decide_eq_decide]
  omega

end F64
