import BoaLigero.Util.DoubleValue
import BoaLigero.Util.ExactDouble

/-!
# Conversions of Doubles to 32-Bit Integers

`f64_to_int32` and `f64_to_uint32`, as they are compiled where the processor has no instruction
for them. A double that is an integer of 32 bits is cast; the others are converted by shifts of
the significand. Shifts and integer operations are checked: the result is `none` where one is
out of range.

## Main results

* `slowPath_eq` — the shifts keep the integral part up to multiples of `2 ^ 32`.
* `f64ToInt32_spec` — both conversions return the residue of the integral part modulo `2 ^ 32`.
-/

namespace BoaLigero.Conversions

open ExactDouble

/-! ### The source -/

/-- `SIGN_MASK`: the bit of the sign. -/
def signMask : BitVec 64 := 0x8000_0000_0000_0000

/-- `EXPONENT_MASK`: the bits of the exponent. -/
def exponentMask : BitVec 64 := 0x7FF0_0000_0000_0000

/-- `SIGNIFICAND_MASK`: the stored bits of the significand. -/
def significandMask : BitVec 64 := 0x000F_FFFF_FFFF_FFFF

/-- `HIDDEN_BIT`: the leading bit of the significand, which is not stored. -/
def hiddenBit : BitVec 64 := 0x0010_0000_0000_0000

/-- Excludes the hidden bit. -/
def physicalSignificandSize : ℤ := 52

/-- `SIGNIFICAND_SIZE`: the bits of the significand with the hidden one. -/
def significandSize : ℤ := 53

/-- `EXPONENT_BIAS`, for a significand that is an integer. -/
def exponentBias : ℤ := 0x3FF + physicalSignificandSize

/-- `DENORMAL_EXPONENT`: the least exponent, which numbers without a hidden bit have. -/
def denormalExponent : ℤ := -exponentBias + 1

/-- The result of an `i32` operation. -/
def checkedI32 (n : ℤ) : Option ℤ := if -2 ^ 31 ≤ n ∧ n < 2 ^ 31 then some n else none

/-- The result of an `i64` operation. -/
def checkedI64 (n : ℤ) : Option ℤ := if -2 ^ 63 ≤ n ∧ n < 2 ^ 63 then some n else none

/-- A `u64` sum. -/
def checkedAdd (a b : BitVec 64) : Option (BitVec 64) :=
  if a.toNat + b.toNat < 2 ^ 64 then some (a + b) else none

/-- `<<` of a `u64`: bits beyond the highest are dropped. -/
def checkedShl (a : BitVec 64) (n : ℤ) : Option (BitVec 64) :=
  if 0 ≤ n ∧ n < 64 then some (a <<< n.toNat) else none

/-- `>>` of a `u64`. -/
def checkedShr (a : BitVec 64) (n : ℤ) : Option (BitVec 64) :=
  if 0 ≤ n ∧ n < 64 then some (a >>> n.toNat) else none

/-- `is_denormal`: all bits of the exponent are zero. -/
def isDenormal (number : F64) : Bool := (number.bits &&& exponentMask) = 0

/-- `exponent`, with the arithmetic of 32 bits, which is checked. -/
def exponent (number : F64) : Option ℤ := do
  if isDenormal number then
    return denormalExponent
  let biasedE ← checkedShr (number.bits &&& exponentMask) physicalSignificandSize
  checkedI32 ((Int32.ofInt biasedE.toNat).toInt - exponentBias)

/-- `significand`: the stored bits, with the hidden one unless the number is denormal. -/
def significand (number : F64) : Option (BitVec 64) :=
  let significand := number.bits &&& significandMask
  if isDenormal number then some significand else checkedAdd significand hiddenBit

/-- `sign`: one or minus one, also for zeros. -/
def sign (number : F64) : ℤ := if (number.bits &&& signMask) = 0 then 1 else -1

/-- The conversion of what is not an integer of 32 bits. -/
def slowPath (number : F64) : Option Int32 := do
  let exponent ← exponent number
  let bits ←
    if exponent < 0 then
      if exponent ≤ -significandSize then
        return 0
      checkedShr (← significand number) (← checkedI32 (-exponent))
    else
      if exponent > 31 then
        return 0
      let shifted ← checkedShl (← significand number) exponent
      pure (shifted &&& 0xFFFF_FFFF)
  let product ← checkedI64 (sign number * bits.toInt)
  return Int32.ofInt product

/-- `f64_to_int32`: numbers that fit are truncated, and all others take the slow path. -/
def f64ToInt32 (number : F64) : Option Int32 :=
  if number.isFinite && number.le (.ofInt32 Int32.maxValue) &&
      F64.le (.ofInt32 Int32.minValue) number then
    let i := number.toInt32
    if (F64.ofInt32 i).beq number then some i else slowPath number
  else slowPath number

/-- `f64_to_uint32`: the same bits, without a sign. -/
def f64ToUint32 (number : F64) : Option UInt32 := (f64ToInt32 number).map Int32.toUInt32

/-! ### The fields, by masks -/

/-- A mask that starts above the lowest bits. -/
theorem land_shiftLeft (n mask k : ℕ) : n &&& (mask <<< k) = ((n >>> k) &&& mask) <<< k := by
  refine Nat.eq_of_testBit_eq fun i => ?_
  simp only [Nat.testBit_and, Nat.testBit_shiftLeft, Nat.testBit_shiftRight]
  by_cases h : k ≤ i
  · simp [h]
  · simp [h]

/-- The bits of the exponent are the exponent field, in its place. -/
theorem toNat_and_exponentMask (x : F64) :
    (x.bits &&& exponentMask).toNat = x.exponent * 2 ^ 52 := by
  have hmask : exponentMask.toNat = (2 ^ 11 - 1) <<< 52 := by decide
  rw [BitVec.toNat_and, hmask, land_shiftLeft, Nat.and_two_pow_sub_one_eq_mod,
    Nat.shiftRight_eq_div_pow, Nat.shiftLeft_eq, F64.exponent]

/-- The stored bits of the significand are the fraction field. -/
theorem toNat_and_significandMask (x : F64) :
    (x.bits &&& significandMask).toNat = x.fraction := by
  have hmask : significandMask.toNat = 2 ^ 52 - 1 := by decide
  rw [BitVec.toNat_and, hmask, Nat.and_two_pow_sub_one_eq_mod, F64.fraction]

/-- A number is denormal exactly if its exponent field is zero. -/
theorem isDenormal_eq (x : F64) : isDenormal x = decide (x.exponent = 0) := by
  have h := toNat_and_exponentMask x
  have hzero : (0 : BitVec 64).toNat = 0 := rfl
  rw [isDenormal, decide_eq_decide, ← BitVec.toNat_inj, h, hzero]
  omega

/-- The sign is that of the sign bit. -/
theorem sign_eq (x : F64) : sign x = if x.isNegative then -1 else 1 := by
  have hmask : signMask.toNat = (2 ^ 1 - 1) <<< 63 := by decide
  have hlt := x.bits.isLt
  have hzero : (x.bits &&& signMask) = 0 ↔ x.isNegative = false := by
    rw [← BitVec.toNat_inj, BitVec.toNat_and, hmask, land_shiftLeft,
      Nat.and_two_pow_sub_one_eq_mod, Nat.shiftRight_eq_div_pow, Nat.shiftLeft_eq,
      F64.isNegative, decide_eq_false_iff_not]
    show _ = 0 ↔ _
    omega
  rw [sign]
  simp only [hzero]
  cases x.isNegative <;> rfl

/-- The exponent is that of the significand as an integer, and its arithmetic does not overflow. -/
theorem exponent_eq (x : F64) : exponent x = some (max (x.exponent : ℤ) 1 - 1075) := by
  have hlt := x.exponent_lt
  rw [exponent, isDenormal_eq]
  split
  case isTrue hzero =>
    rw [of_decide_eq_true hzero]
    rfl
  case isFalse hpos =>
    have hpos := of_decide_eq_false (eq_false_of_ne_true hpos)
    have hshift : checkedShr (x.bits &&& exponentMask) physicalSignificandSize =
        some ((x.bits &&& exponentMask) >>> 52) := rfl
    have hfield : ((x.bits &&& exponentMask) >>> 52).toNat = x.exponent := by
      rw [BitVec.toNat_ushiftRight, toNat_and_exponentMask, Nat.shiftRight_eq_div_pow,
        Nat.mul_div_cancel _ (by positivity)]
    have hcast : (Int32.ofInt x.exponent).toInt = x.exponent :=
      Int32.toInt_ofInt_of_le (by omega) (by omega)
    have hbias : exponentBias = 1075 := rfl
    simp only [hshift, Option.bind_eq_bind, Option.bind_some, hfield, hcast, hbias]
    rw [checkedI32, if_pos (by omega), max_eq_left (by omega)]

/-- The significand is that of the number, with the hidden bit where there is one. -/
theorem significand_eq (x : F64) : ∃ s, significand x = some s ∧ s.toNat = x.significand := by
  have hlt := x.fraction_lt
  have hfraction := toNat_and_significandMask x
  have hhidden : hiddenBit.toNat = 2 ^ 52 := rfl
  simp only [significand, isDenormal_eq, F64.significand]
  by_cases hzero : x.exponent = 0
  · simp [hzero, hfraction]
  · have hsum : checkedAdd (x.bits &&& significandMask) hiddenBit =
        some ((x.bits &&& significandMask) + hiddenBit) := if_pos (by omega)
    simp only [hzero, decide_false, if_false, hsum]
    refine ⟨_, rfl, ?_⟩
    rw [BitVec.toNat_add]
    omega

/-! ### The slow path -/

/-- Only the residue of an integer counts. -/
theorem ofInt_congr {a b : ℤ} (h : a % 2 ^ 32 = b % 2 ^ 32) : Int32.ofInt a = Int32.ofInt b := by
  rw [← Int32.toInt_inj, Int32.toInt_ofInt, Int32.toInt_ofInt, ← Int.emod_bmod a,
    ← Int.emod_bmod b]
  exact congrArg (Int.bmod · _) h

/-- An integer of 32 bits is, without its sign, the remainder modulo `2 ^ 32`. -/
theorem toNat_toUInt32_ofInt (n : ℤ) : ((Int32.ofInt n).toUInt32.toNat : ℤ) = n % 2 ^ 32 := by
  have h : (Int32.ofInt n).toUInt32.toNat = (BitVec.ofInt 32 n).toNat := rfl
  rw [h, BitVec.toNat_ofInt]
  omega

/-- A sign times a magnitude, reduced, is the magnitude reduced, times the sign. -/
theorem ofInt_sign_congr (x : F64) {b m : ℕ} (h : b % 2 ^ 32 = m % 2 ^ 32) :
    Int32.ofInt (sign x * b) = Int32.ofInt (if x.isNegative then -m else m) := by
  refine ofInt_congr ?_
  rw [sign_eq]
  cases x.isNegative
  · simp only [Bool.false_eq_true, if_false]
    omega
  · simp only [if_true]
    omega

/-- The product with the sign stays in range. -/
theorem signed_eq (x : F64) {bits : BitVec 64} {m : ℕ} (hbits : bits.toNat < 2 ^ 53)
    (h : bits.toNat % 2 ^ 32 = m % 2 ^ 32) :
    (do return Int32.ofInt (← checkedI64 (sign x * bits.toInt))) =
      some (Int32.ofInt (if x.isNegative then -m else m)) := by
  have htoInt : bits.toInt = bits.toNat := BitVec.toInt_eq_toNat_of_lt (by omega)
  have hrange : checkedI64 (sign x * bits.toNat) = some (sign x * bits.toNat) := by
    refine if_pos ?_
    rw [sign_eq]
    split <;> omega
  rw [htoInt, hrange, ← ofInt_sign_congr x h]
  rfl

/-- The magnitude over the units of one, by the exponent. -/
theorem magnitude_div_of_small {x : F64} {k : ℕ} (hk : max (x.exponent : ℤ) 1 - 1075 = -k) :
    x.magnitude / 2 ^ 1074 = x.significand / 2 ^ k := by
  have hsplit : 1074 = k + (x.exponent - 1) := by omega
  rw [F64.magnitude, hsplit, pow_add, Nat.mul_div_mul_right _ _ (by positivity)]

/-- A number with an exponent that is not negative is an integer: its significand, shifted. -/
theorem magnitude_div_of_large {x : F64} {k : ℕ} (hk : max (x.exponent : ℤ) 1 - 1075 = k) :
    x.magnitude / 2 ^ 1074 = x.significand * 2 ^ k := by
  have hsplit : x.exponent - 1 = k + 1074 := by omega
  rw [F64.magnitude, hsplit, pow_add, ← mul_assoc, Nat.mul_div_cancel _ (by positivity)]

/-- The shifts keep the integral part up to multiples of `2 ^ 32`. -/
theorem slowPath_eq (x : F64) :
    slowPath x = some (Int32.ofInt
      (if x.isNegative then -(x.magnitude / 2 ^ 1074 : ℕ) else (x.magnitude / 2 ^ 1074 : ℕ))) := by
  obtain ⟨s, hs, hsignificand⟩ := significand_eq x
  have hlt := x.exponent_lt
  have hsig := x.significand_lt
  have hsize : significandSize = 53 := rfl
  rw [slowPath, exponent_eq, Option.bind_eq_bind, Option.bind_some, hs, hsize]
  generalize hexp : max (x.exponent : ℤ) 1 - 1075 = e
  split
  case isTrue hneg =>
    obtain ⟨k, rfl⟩ : ∃ k : ℕ, e = -k := ⟨e.natAbs, by omega⟩
    rw [magnitude_div_of_small hexp]
    split
    case isTrue hsmall =>
      have hzero : x.significand / 2 ^ k = 0 :=
        Nat.div_eq_of_lt (hsig.trans_le (Nat.pow_le_pow_right (by omega) (by omega)))
      rw [hzero]
      cases x.isNegative <;> rfl
    case isFalse hbig =>
      have hcount : checkedI32 (- -(k : ℤ)) = some (k : ℤ) := by
        rw [neg_neg, checkedI32, if_pos (by omega)]
      have hshift : checkedShr s k = some (s >>> k) := if_pos (by omega)
      have hbits : (s >>> k).toNat = x.significand / 2 ^ k := by
        rw [BitVec.toNat_ushiftRight, hsignificand, Nat.shiftRight_eq_div_pow]
      have hle := Nat.div_le_self x.significand (2 ^ k)
      simp only [Option.bind_eq_bind, Option.bind_some, hcount, hshift]
      exact signed_eq x (by omega) (by rw [hbits])
  case isFalse hpos =>
    obtain ⟨k, rfl⟩ : ∃ k : ℕ, e = k := ⟨e.natAbs, by omega⟩
    rw [magnitude_div_of_large hexp]
    split
    case isTrue hlarge =>
      -- The integral part is a multiple of the modulus.
      have hmultiple : x.significand * 2 ^ k = x.significand * 2 ^ (k - 32) * 2 ^ 32 := by
        rw [mul_assoc, ← pow_add, Nat.sub_add_cancel (by omega)]
      rw [hmultiple]
      refine congrArg some (ofInt_congr (a := 0) ?_)
      split <;> omega
    case isFalse hsmall =>
      have hshift : checkedShl s k = some (s <<< k) := if_pos (by omega)
      have hbits : (s <<< k &&& 0xFFFF_FFFF).toNat = x.significand * 2 ^ k % 2 ^ 32 := by
        have hmask : (0xFFFF_FFFF : BitVec 64).toNat = 2 ^ 32 - 1 := rfl
        rw [BitVec.toNat_and, hmask, Nat.and_two_pow_sub_one_eq_mod, BitVec.toNat_shiftLeft,
          hsignificand, Nat.shiftLeft_eq]
        omega
      simp only [Option.bind_eq_bind, Option.bind_some, hshift, Option.pure_def]
      exact signed_eq x (by omega) (by rw [hbits, Nat.mod_mod])

/-! ### The conversions -/

/-- The integral part of a double, from its magnitude. -/
theorem integral_value (x : F64) :
    integral x.value =
      if x.isNegative then -((x.magnitude / 2 ^ 1074 : ℕ) : ℤ)
      else ((x.magnitude / 2 ^ 1074 : ℕ) : ℤ) := by
  have hcast : x.value = (x.units : ℚ) / (2 ^ 1074 : ℕ) := by
    rw [F64.value, Nat.cast_pow, Nat.cast_ofNat]
  rw [hcast, integral_div_natCast _ (by positivity), F64.units]
  split
  · rw [Int.neg_tdiv, ← Int.ofNat_tdiv]
  · rw [← Int.ofNat_tdiv]

/-- A double that equals its cast is an integer. -/
theorem integral_of_beq {x : F64} {i : Int32} (h : (F64.ofInt32 i).beq x = true) :
    integral x.value = i.toInt := by
  simp only [F64.beq, Bool.and_eq_true, decide_eq_true_eq] at h
  have hvalue : x.value = i.toInt := by
    rw [F64.value, ← h.2, ← F64.value, F64.value_ofInt32]
  rw [hvalue, integral_intCast]

/-- An infinity and what is not a number are converted to zero. -/
theorem slowPath_of_not_finite {x : F64} (h : x.isFinite = false) : slowPath x = some 0 := by
  have hlarge : x.exponent = 2047 := by
    have := x.exponent_lt
    have := of_decide_eq_false h
    omega
  obtain ⟨s, hs, -⟩ := significand_eq x
  rw [slowPath, exponent_eq, Option.bind_eq_bind, Option.bind_some, hlarge]
  rfl

/-- The conversion, through the integral part. -/
theorem f64ToInt32_eq (x : F64) :
    f64ToInt32 x = some (if x.isFinite then Int32.ofInt (integral x.value) else 0) := by
  rw [f64ToInt32]
  split
  case isTrue hrange =>
    have hfinite : x.isFinite = true := by
      simp only [Bool.and_eq_true] at hrange
      exact hrange.1.1
    rw [if_pos hfinite]
    extract_lets i
    split
    case isTrue heq => rw [integral_of_beq heq, Int32.ofInt_toInt]
    case isFalse => rw [slowPath_eq, integral_value]
  case isFalse =>
    cases hfinite : x.isFinite
    · rw [slowPath_of_not_finite hfinite]
      rfl
    · rw [slowPath_eq, integral_value]
      rfl

/-- **Conversion of any double**: no shift or integer operation is out of range; what is not
finite gives zero, and every other double the residue of its integral part modulo `2 ^ 32`, as a
signed and as an unsigned integer. -/
theorem f64ToInt32_spec (x : F64) :
    (∃ r, f64ToInt32 x = some r ∧
      r.toInt = if x.isFinite then (integral x.value).bmod (2 ^ 32) else 0) ∧
    ∃ u, f64ToUint32 x = some u ∧
      (u.toNat : ℤ) = if x.isFinite then integral x.value % 2 ^ 32 else 0 := by
  rw [f64ToUint32, f64ToInt32_eq]
  refine ⟨⟨_, rfl, ?_⟩, _, rfl, ?_⟩
  · split
    · exact Int32.toInt_ofInt
    · rfl
  · split
    · exact toNat_toUInt32_ofInt _
    · rfl

end BoaLigero.Conversions
