import BoaLigero.Object.IndexedProperties
import BoaLigero.Util.DoubleOrder

/-!
# Equality of Primitive Values

`strict_equals`, `equals`, `same_value` and `same_value_zero` of values that are Numbers,
BigInts, strings, booleans, null or undefined (`value/equality.rs`), and what such a value feeds
to a hasher (`value/hash.rs`). The library of big integers and the conversions of strings are
parameters.

## Main results

* `strictEquals_number`, `sameValue_number`, `sameValueZero_number`, `equals_number` — a Number
  is compared as a double, however it is held.
* `sameValueZero_equivalence` — the equality of keys is an equivalence relation.
* `hashInput_eq_iff` — when equal values feed the same to a hasher.
-/

namespace BoaLigero

/-- A primitive value that is not a Number. -/
inductive OtherPrimitive where
  | undefined
  | null
  | boolean (b : Bool)
  | string (units : List UInt16)
  | bigInt (n : ℤ)
  deriving DecidableEq, Repr

/-- A primitive value, but for symbols. -/
abbrev PrimitiveValue := JsVariant OtherPrimitive

namespace Comparison

open F64 ExactDouble

/-- The big integer library, as it is documented: doubles are truncated, and integers are rounded
to doubles, so that those of at most 53 bits are exact and no other becomes smaller than them. -/
structure BigIntLibrary where
  fromF64 : F64 → Option ℤ
  toF64 : ℤ → Option F64
  fromF64_eq : ∀ x, fromF64 x = if x.isFinite then some (integral x.value) else none
  toF64_exact : ∀ n : ℤ, n.natAbs < 2 ^ 53 →
    ∃ d, toF64 n = some d ∧ d.isFinite = true ∧ d.value = n
  toF64_large : ∀ n : ℤ, 2 ^ 53 ≤ n → ∃ d, toF64 n = some d ∧ d.isNaN = false ∧
    (((2 ^ 53 : ℚ) : WithTop ℚ) : WithBot (WithTop ℚ)) ≤ d.extended
  toF64_small : ∀ n : ℤ, n ≤ -2 ^ 53 → ∃ d, toF64 n = some d ∧ d.isNaN = false ∧
    d.extended ≤ (((-2 ^ 53 : ℚ) : WithTop ℚ) : WithBot (WithTop ℚ))

/-- The conversions of strings to Numbers and, where they can be, to BigInts. -/
structure StringConversions where
  toNumber : List UInt16 → F64
  toBigInt : List UInt16 → Option ℤ

/-! ### The source -/

/-- The type of a value. -/
inductive ValueType where
  | undefined
  | null
  | boolean
  | string
  | bigInt
  | number
  deriving DecidableEq, Repr

/-- `get_type`: the type of a value, which is the same for integers and doubles. -/
def getType : PrimitiveValue → ValueType
  | .integer32 _ | .float64 _ => .number
  | .other .undefined => .undefined
  | .other .null => .null
  | .other (.boolean _) => .boolean
  | .other (.string _) => .string
  | .other (.bigInt _) => .bigInt

/-- `signum`. -/
def signum (x : F64) : F64 :=
  if x.isNaN then nan else if x.isNegative then .ofInt32 (-1) else .ofInt32 1

/-- `Number::same_value`. -/
def numberSameValue (a b : F64) : Bool :=
  if a.isNaN && b.isNaN then true else a.beq b && (signum a).beq (signum b)

/-- `Number::same_value_zero`. -/
def numberSameValueZero (x y : F64) : Bool :=
  if x.isNaN && y.isNaN then true else x.beq y

/-- `same_value_non_numeric`: values of one type that is not numeric. -/
def sameValueNonNumeric : PrimitiveValue → PrimitiveValue → Bool
  | .other .null, .other .null | .other .undefined, .other .undefined => true
  | .other (.string x), .other (.string y) => x = y
  | .other (.boolean x), .other (.boolean y) => x = y
  | _, _ => false

/-- The arms of three of the comparisons: BigInts, the four pairs of Numbers by a comparison of
doubles, and the rest. -/
def sameTypeArms (number : F64 → F64 → Bool) : PrimitiveValue → PrimitiveValue → Bool
  | .other (.bigInt x), .other (.bigInt y) => x = y
  | .float64 x, .float64 y => number x y
  | .float64 x, .integer32 y => number x (.ofInt32 y)
  | .integer32 x, .float64 y => number (.ofInt32 x) y
  | .integer32 x, .integer32 y => x = y
  | x, y => sameValueNonNumeric x y

/-- A comparison of values of one type. -/
def sameType (number : F64 → F64 → Bool) (x y : PrimitiveValue) : Bool :=
  if getType x ≠ getType y then false else sameTypeArms number x y

/-- `strict_equals`: the operator `===`. -/
def strictEquals (self other : PrimitiveValue) : Bool := sameType F64.beq self other

/-- `same_value`, which tells zeros of different signs apart. -/
def sameValue (x y : PrimitiveValue) : Bool := sameType numberSameValue x y

/-- `same_value_zero`, which does not. -/
def sameValueZero (x y : PrimitiveValue) : Bool := sameType numberSameValueZero x y

/-- `to_number`; a BigInt is a type error. -/
def toNumber (strings : StringConversions) : PrimitiveValue → Option F64
  | .other .null => some (zero false)
  | .other .undefined => some nan
  | .other (.boolean b) => some (if b then .ofInt32 1 else .ofInt32 0)
  | .other (.string s) => some (strings.toNumber s)
  | .float64 x => some x
  | .integer32 n => some (.ofInt32 n)
  | .other (.bigInt _) => none

/-- `PartialEq<f64> for JsBigInt`. -/
def bigIntEqualsF64 (library : BigIntLibrary) (self : ℤ) (other : F64) : Bool :=
  other.fract.isZero && (library.fromF64 other).any fun bigint => self = bigint

/-- `PartialEq<i32> for JsBigInt`. -/
def bigIntEqualsI32 (self : ℤ) (other : Int32) : Bool := self = other.toInt

/-- How often a comparison still replaces a boolean by a Number. -/
def booleans : PrimitiveValue → ℕ
  | .other (.boolean _) => 1
  | _ => 0

/-- `i32::from`. -/
def ofBool (b : Bool) : Int32 := if b then 1 else 0

variable (library : BigIntLibrary) (strings : StringConversions)

/-- The comparison of two values as Numbers. -/
def equalsAsNumbers (self other : PrimitiveValue) : Option Bool := do
  let x ← toNumber strings self
  let y ← toNumber strings other
  return x.beq y

/-- `equals`: the operator `==`, for primitive values. -/
def equals (self other : PrimitiveValue) : Option Bool :=
  if getType self = getType other then some (strictEquals self other)
  else
    match self, other with
    | .other .null, .other .undefined | .other .undefined, .other .null => some true
    | .integer32 x, .other (.string y) =>
      equalsAsNumbers strings (.integer32 x) (.other (.string y))
    | .integer32 x, .other (.boolean y) =>
      equalsAsNumbers strings (.integer32 x) (.other (.boolean y))
    | .float64 x, .other (.string y) => equalsAsNumbers strings (.float64 x) (.other (.string y))
    | .float64 x, .other (.boolean y) => equalsAsNumbers strings (.float64 x) (.other (.boolean y))
    | .other (.string x), .integer32 y =>
      equalsAsNumbers strings (.other (.string x)) (.integer32 y)
    | .other (.string x), .float64 y => equalsAsNumbers strings (.other (.string x)) (.float64 y)
    | .other (.bigInt a), .other (.string b) => some (strings.toBigInt b = some a)
    | .other (.string a), .other (.bigInt b) => some (strings.toBigInt a = some b)
    | .other (.boolean x), other => equals other (.integer32 (ofBool x))
    | self, .other (.boolean y) => equals self (.integer32 (ofBool y))
    | .other (.bigInt a), .float64 b => some (bigIntEqualsF64 library a b)
    | .float64 a, .other (.bigInt b) => some (bigIntEqualsF64 library b a)
    | .other (.bigInt a), .integer32 b => some (bigIntEqualsI32 a b)
    | .integer32 a, .other (.bigInt b) => some (bigIntEqualsI32 b a)
    | _, _ => some false
termination_by booleans self + booleans other
decreasing_by all_goals simp [booleans]

/-- What a value feeds to a hasher. -/
inductive HashInput where
  | nothing
  | string (units : List UInt16)
  | boolean (b : Bool)
  | bits (bits : BitVec 64)
  | bigInt (n : ℤ)
  deriving DecidableEq

/-- What a hasher is given of a value. -/
def hashInput : PrimitiveValue → HashInput
  | .other .undefined | .other .null => .nothing
  | .other (.string string) => .string string
  | .other (.boolean boolean) => .boolean boolean
  | .integer32 integer => .bits (F64.ofInt32 integer).bits
  | .other (.bigInt bigint) => .bigInt bigint
  | .float64 rational => .bits rational.bits

/-! ### Numbers are compared as doubles -/

/-- What is a number has the type of numbers. -/
theorem getType_of_asNumber {x : PrimitiveValue} {u : F64} (h : x.asNumber = some u) :
    getType x = .number := by
  cases x with
  | integer32 n => rfl
  | float64 d => rfl
  | other v => cases h

/-- The pairs of Numbers, for a comparison that tells integers apart. -/
theorem sameType_number {number : F64 → F64 → Bool}
    (hnumber : ∀ m n : Int32, number (.ofInt32 m) (.ofInt32 n) = decide (m = n))
    {x y : PrimitiveValue} {u v : F64} (hx : x.asNumber = some u) (hy : y.asNumber = some v) :
    sameType number x y = number u v := by
  rw [sameType, if_neg (not_not_intro ((getType_of_asNumber hx).trans
    (getType_of_asNumber hy).symm))]
  cases x with
  | integer32 m =>
    obtain rfl := Option.some.inj hx
    cases y with
    | integer32 n =>
      obtain rfl := Option.some.inj hy
      exact (hnumber m n).symm
    | float64 d =>
      obtain rfl := Option.some.inj hy
      rfl
    | other v => cases hy
  | float64 d =>
    obtain rfl := Option.some.inj hx
    cases y with
    | integer32 n =>
      obtain rfl := Option.some.inj hy
      rfl
    | float64 e =>
      obtain rfl := Option.some.inj hy
      rfl
    | other v => cases hy
  | other v => cases hx

/-- A Number differs in type from what is not a Number. -/
theorem getType_other_ne (v : OtherPrimitive) : getType (.other v) ≠ .number := by
  cases v <;> nofun

/-- A number and a value of another type are never the same. -/
theorem sameType_number_other (number : F64 → F64 → Bool) {x : PrimitiveValue} {u : F64}
    (hx : x.asNumber = some u) (v : OtherPrimitive) :
    sameType number x (.other v) = false ∧ sameType number (.other v) x = false := by
  have hne : getType x ≠ getType (.other v) := by
    rw [getType_of_asNumber hx]
    exact (getType_other_ne v).symm
  exact ⟨if_pos hne, if_pos hne.symm⟩

/-- Integers are the same zero-value exactly if they are equal. -/
theorem numberSameValueZero_ofInt32 (m n : Int32) :
    numberSameValueZero (.ofInt32 m) (.ofInt32 n) = decide (m = n) := by
  rw [numberSameValueZero, isNaN_ofInt32, isNaN_ofInt32, beq_ofInt32]
  rfl

/-- The sign of an integer, as a double, is positive for zero. -/
theorem signum_ofInt32 (n : Int32) :
    signum (.ofInt32 n) = if n.toInt < 0 then .ofInt32 (-1) else .ofInt32 1 := by
  simp [signum, isNaN_ofInt32, isNegative_ofInt32]

/-- Integers are the same value exactly if they are equal. -/
theorem numberSameValue_ofInt32 (m n : Int32) :
    numberSameValue (.ofInt32 m) (.ofInt32 n) = decide (m = n) := by
  rw [numberSameValue, isNaN_ofInt32, isNaN_ofInt32, beq_ofInt32]
  by_cases h : m = n
  · subst h
    have hself : ∀ k : Int32, (F64.ofInt32 k).beq (.ofInt32 k) = true := by simp [beq_ofInt32]
    rw [signum_ofInt32]
    by_cases hneg : m.toInt < 0 <;> simp [hneg, hself]
  · simp [h]

section Numbers

variable {x y : PrimitiveValue} {u v : F64} (hx : x.asNumber = some u) (hy : y.asNumber = some v)

include hx hy

/-- Numbers are strictly equal as their doubles are, whichever way they are stored. -/
theorem strictEquals_number : strictEquals x y = u.beq v := sameType_number beq_ofInt32 hx hy

/-- Numbers are the same value as their doubles are, whichever way they are stored. -/
theorem sameValue_number : sameValue x y = numberSameValue u v :=
  sameType_number numberSameValue_ofInt32 hx hy

/-- Numbers are the same zero-value as their doubles are, whichever way they are stored. -/
theorem sameValueZero_number : sameValueZero x y = numberSameValueZero u v :=
  sameType_number numberSameValueZero_ofInt32 hx hy

end Numbers

/-- The comparison of a BigInt with a machine integer is that with its double. -/
theorem bigIntEqualsI32_eq (n : ℤ) (m : Int32) :
    bigIntEqualsI32 n m = bigIntEqualsF64 library n (.ofInt32 m) := by
  have hvalue := value_ofInt32 m
  have hintegral := isIntegral_of_value (isFinite_ofInt32 m) hvalue
  rw [bigIntEqualsF64, isZero_fract, hintegral, library.fromF64_eq, isFinite_ofInt32, hvalue,
    integral_intCast]
  rfl

/-- The comparison of a BigInt with a double is exact. -/
theorem bigIntEqualsF64_iff (n : ℤ) (x : F64) :
    bigIntEqualsF64 library n x = true ↔ x.isFinite = true ∧ x.value = n := by
  rw [bigIntEqualsF64, isZero_fract, library.fromF64_eq, Bool.and_eq_true]
  constructor
  · rintro ⟨hintegral, hany⟩
    have hfinite : x.isFinite = true := by
      rw [isIntegral, Bool.and_eq_true] at hintegral
      exact hintegral.1
    rw [if_pos hfinite, Option.any_some, decide_eq_true_eq] at hany
    exact ⟨hfinite, hany ▸ value_of_isIntegral hintegral⟩
  · rintro ⟨hfinite, hvalue⟩
    rw [if_pos hfinite, hvalue, integral_intCast]
    exact ⟨isIntegral_of_value hfinite hvalue, by simp⟩

/-- The comparison of a Number with any value, by the double of the Number. -/
def equalsNumber (u : F64) : PrimitiveValue → Option Bool
  | .integer32 n => some (u.beq (.ofInt32 n))
  | .float64 v => some (u.beq v)
  | .other (.string s) => some (u.beq (strings.toNumber s))
  | .other (.boolean b) => some (u.beq (.ofInt32 (ofBool b)))
  | .other (.bigInt n) => some (bigIntEqualsF64 library n u)
  | .other .null | .other .undefined => some false

/-- Values of one type are equal exactly if they are strictly equal. -/
theorem equals_same {x y : PrimitiveValue} (h : getType x = getType y) :
    equals library strings x y = some (strictEquals x y) := by
  rw [equals.eq_def, if_pos h]

/-- A boolean is converted to the double of one or zero. -/
theorem ofBool_eq (b : Bool) :
    (if b then F64.ofInt32 1 else .ofInt32 0) = .ofInt32 (ofBool b) := by
  cases b <;> rfl

/-- Numbers among themselves are compared as their doubles. -/
theorem equals_numbers {x y : PrimitiveValue} {u v : F64} (hx : x.asNumber = some u)
    (hy : y.asNumber = some v) : equals library strings x y = some (u.beq v) := by
  rw [equals_same library strings ((getType_of_asNumber hx).trans (getType_of_asNumber hy).symm),
    strictEquals_number hx hy]

/-- A Number on the left is compared as its double. -/
theorem equals_number_left {x : PrimitiveValue} {u : F64} (hx : x.asNumber = some u)
    (y : PrimitiveValue) :
    equals library strings x y = equalsNumber library strings u y := by
  cases y with
  | integer32 n => exact equals_numbers library strings hx rfl
  | float64 v => exact equals_numbers library strings hx rfl
  | other v =>
    cases x with
    | integer32 m =>
      obtain rfl := Option.some.inj hx
      cases v with rw [equals.eq_def, if_neg nofun]
      | bigInt n => exact congrArg some (bigIntEqualsI32_eq library n m)
      | boolean b => exact congrArg (fun d => some ((F64.ofInt32 m).beq d)) (ofBool_eq b)
      | string s => rfl
      | null => rfl
      | undefined => rfl
    | float64 d =>
      obtain rfl := Option.some.inj hx
      cases v with rw [equals.eq_def, if_neg nofun]
      | bigInt n => rfl
      | boolean b => exact congrArg (fun e => some (d.beq e)) (ofBool_eq b)
      | string s => rfl
      | null => rfl
      | undefined => rfl
    | other w => cases hx

/-- A Number on the right is compared as its double. -/
theorem equals_number_right {x : PrimitiveValue} {u : F64} (hx : x.asNumber = some u)
    (y : PrimitiveValue) :
    equals library strings y x = equalsNumber library strings u y := by
  cases y with
  | integer32 n =>
    rw [equals_numbers library strings rfl hx, beq_comm]
    rfl
  | float64 v =>
    rw [equals_numbers library strings rfl hx, beq_comm]
    rfl
  | other v =>
    cases x with
    | integer32 m =>
      obtain rfl := Option.some.inj hx
      cases v with rw [equals.eq_def, if_neg nofun]
      | bigInt n => exact congrArg some (bigIntEqualsI32_eq library n m)
      | boolean b => exact equals_numbers library strings hx rfl
      | string s => exact congrArg some (beq_comm _ _)
      | null => rfl
      | undefined => rfl
    | float64 d =>
      obtain rfl := Option.some.inj hx
      cases v with rw [equals.eq_def, if_neg nofun]
      | bigInt n => rfl
      | boolean b => exact equals_numbers library strings hx rfl
      | string s => exact congrArg some (beq_comm _ _)
      | null => rfl
      | undefined => rfl
    | other w => cases hx

/-! ### Keys and hashes -/

/-- What `same_value_zero` distinguishes. -/
def key : PrimitiveValue → Option (WithBot (WithTop ℚ)) ⊕ OtherPrimitive
  | .integer32 n => .inl (some (F64.ofInt32 n).extended)
  | .float64 x => .inl (if x.isNaN then none else some x.extended)
  | .other v => .inr v

/-- The key of a number is its extended value, or that it is not a number. -/
theorem key_of_asNumber {x : PrimitiveValue} {u : F64} (h : x.asNumber = some u) :
    key x = .inl (if u.isNaN then none else some u.extended) := by
  cases x with
  | integer32 n =>
    obtain rfl := Option.some.inj h
    rw [isNaN_ofInt32]
    rfl
  | float64 d =>
    obtain rfl := Option.some.inj h
    rfl
  | other v => cases h

/-- Doubles are the same zero-value exactly if neither is a number, or both are and have one value.
-/
theorem numberSameValueZero_iff (u v : F64) :
    numberSameValueZero u v = true ↔
      (if u.isNaN then none else some u.extended) = if v.isNaN then none else some v.extended := by
  unfold numberSameValueZero
  cases hu : u.isNaN <;> cases hv : v.isNaN
  · simpa using beq_iff hu hv
  · simp [beq, hv]
  · simp [beq, hu]
  · simp

/-- Values that are no numbers are the same zero-value exactly if they are identical. -/
theorem sameValueZero_other (v w : OtherPrimitive) :
    sameValueZero (.other v) (.other w) = true ↔ v = w := by
  cases v <;> cases w <;>
    simp [sameValueZero, getType, sameType, sameTypeArms, sameValueNonNumeric]

/-- Values are equal as keys exactly if they are the same but for the sign of zero. -/
theorem sameValueZero_iff (x y : PrimitiveValue) : sameValueZero x y = true ↔ key x = key y := by
  have hnumbers : ∀ {x y : PrimitiveValue} {u v : F64}, x.asNumber = some u → y.asNumber = some v →
      (sameValueZero x y = true ↔ key x = key y) := by
    intro x y u v hx hy
    rw [sameValueZero_number hx hy, key_of_asNumber hx, key_of_asNumber hy, Sum.inl.injEq,
      numberSameValueZero_iff]
  cases x with
  | integer32 m =>
    cases y with
    | integer32 n => exact hnumbers rfl rfl
    | float64 d => exact hnumbers rfl rfl
    | other w => cases w <;> simp [sameValueZero, sameType, getType, key]
  | float64 d =>
    cases y with
    | integer32 n => exact hnumbers rfl rfl
    | float64 e => exact hnumbers rfl rfl
    | other w => cases w <;> simp [sameValueZero, sameType, getType, key]
  | other v =>
    cases y with
    | integer32 n => cases v <;> simp [sameValueZero, sameType, getType, key]
    | float64 e => cases v <;> simp [sameValueZero, sameType, getType, key]
    | other w => rw [sameValueZero_other, key, key, Sum.inr.injEq]

/-- The equality of keys is an equivalence relation. -/
theorem sameValueZero_equivalence : Equivalence fun x y => sameValueZero x y = true where
  refl x := (sameValueZero_iff x x).mpr rfl
  symm h := (sameValueZero_iff _ _).mpr ((sameValueZero_iff _ _).mp h).symm
  trans h₁ h₂ := (sameValueZero_iff _ _).mpr
    (((sameValueZero_iff _ _).mp h₁).trans ((sameValueZero_iff _ _).mp h₂))

/-- Zeros of different sign, and NaNs with different bits. -/
def BitsDiffer (x y : PrimitiveValue) : Prop :=
  ∃ u v, x.asNumber = some u ∧ y.asNumber = some v ∧
    (u.isZero = true ∧ v.isZero = true ∧ u.isNegative ≠ v.isNegative ∨
      u.isNaN = true ∧ v.isNaN = true ∧ u.bits ≠ v.bits)

/-- The hash of a number is that of the bits of its double, whichever way it is stored. -/
theorem hashInput_of_asNumber {x : PrimitiveValue} {u : F64} (h : x.asNumber = some u) :
    hashInput x = .bits u.bits := by
  cases x with
  | integer32 n =>
    obtain rfl := Option.some.inj h
    rfl
  | float64 d =>
    obtain rfl := Option.some.inj h
    rfl
  | other v => cases h

/-- A zero is a number. -/
theorem isNaN_of_isZero {u : F64} (h : u.isZero = true) : u.isNaN = false := by
  rw [isZero_iff] at h
  simp [isNaN, h.1]

/-- Zeros are equal as keys, and so are NaNs. -/
theorem sameValueZero_of_bitsDiffer {x y : PrimitiveValue} (h : BitsDiffer x y) :
    sameValueZero x y = true := by
  obtain ⟨u, v, hx, hy, ⟨hu, hv, -⟩ | ⟨hu, hv, -⟩⟩ := h
  · have hunits : u.units = v.units := by
      have hu := of_decide_eq_true hu
      have hv := of_decide_eq_true hv
      simp [units, hu, hv]
    rw [sameValueZero_number hx hy, numberSameValueZero, isNaN_of_isZero hu, beq,
      isNaN_of_isZero hu, isNaN_of_isZero hv, decide_eq_true hunits]
    rfl
  · rw [sameValueZero_number hx hy, numberSameValueZero, hu, hv]
    rfl

/-- Numbers that are equal as keys have the same bits, but for zeros and NaNs. -/
theorem bits_eq_of_sameValueZero {u v : F64} (h : numberSameValueZero u v = true)
    (hzero : u.isZero = true → v.isZero = true → u.isNegative = v.isNegative)
    (hnan : u.isNaN = true → v.isNaN = true → u.bits = v.bits) : u.bits = v.bits := by
  unfold numberSameValueZero at h
  split at h
  case isTrue hboth =>
    rw [Bool.and_eq_true] at hboth
    exact hnan hboth.1 hboth.2
  case isFalse =>
    have hunits := units_of_beq h
    cases hu : u.isZero
    · rw [eq_of_beq h hu]
    · have hv : v.isZero = true := by
        rw [isZero, ← natAbs_units, ← hunits, natAbs_units]
        exact hu
      rw [eq_of_units hunits (hzero hu hv)]

/-- **Hashes of equal values**: they agree but for zeros of different sign and NaNs with
different bits. -/
theorem hashInput_eq_iff (x y : PrimitiveValue) :
    (sameValueZero x y = true → hashInput x = hashInput y) ↔ ¬ BitsDiffer x y := by
  constructor
  · rintro hcoherent hdiffer
    have hhash := hcoherent (sameValueZero_of_bitsDiffer hdiffer)
    obtain ⟨u, v, hx, hy, hcases⟩ := hdiffer
    rw [hashInput_of_asNumber hx, hashInput_of_asNumber hy, HashInput.bits.injEq] at hhash
    obtain rfl : u = v := by
      cases u
      cases v
      exact congrArg F64.mk hhash
    obtain ⟨-, -, hne⟩ | ⟨-, -, hne⟩ := hcases <;> exact hne rfl
  · intro hsame h
    have hnumbers : ∀ u v, x.asNumber = some u → y.asNumber = some v →
        hashInput x = hashInput y := by
      intro u v hx hy
      rw [sameValueZero_number hx hy] at h
      rw [hashInput_of_asNumber hx, hashInput_of_asNumber hy, HashInput.bits.injEq]
      refine bits_eq_of_sameValueZero h (fun hu hv => ?_) fun hu hv => ?_
      · by_contra hne
        exact hsame ⟨u, v, hx, hy, .inl ⟨hu, hv, hne⟩⟩
      · by_contra hne
        exact hsame ⟨u, v, hx, hy, .inr ⟨hu, hv, hne⟩⟩
    rw [sameValueZero_iff] at h
    cases x with
    | integer32 m =>
      cases y with
      | integer32 n => exact hnumbers _ _ rfl rfl
      | float64 d => exact hnumbers _ _ rfl rfl
      | other w => cases h
    | float64 d =>
      cases y with
      | integer32 n => exact hnumbers _ _ rfl rfl
      | float64 e => exact hnumbers _ _ rfl rfl
      | other w => cases h
    | other v =>
      cases y with
      | integer32 n => cases h
      | float64 e => cases h
      | other w => rw [Sum.inr.inj h]

end Comparison

end BoaLigero
