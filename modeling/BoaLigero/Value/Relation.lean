import BoaLigero.Value.Equality

/-!
# The Order of Primitive Values

`abstract_relation` and the operators `<`, `<=`, `>` and `>=` of values that are Numbers,
BigInts, strings, booleans, null or undefined (`value/operations.rs`). A BigInt and a Number are
compared as BigInts where the Number is an integer, and as doubles where it has a fraction.

## Main results

* `abstractRelation_numeric` — numeric values are ordered as their mathematical values.
* `relation_number_left`, `relation_number_right` — a Number is compared as a double, however it
  is held.
-/

namespace BoaLigero

namespace Comparison

open F64 ExactDouble

/-! ### The source -/

/-- `AbstractRelation`. -/
inductive AbstractRelation where
  | undefined
  | true
  | false
  deriving DecidableEq, Repr

namespace AbstractRelation

/-- A decided comparison, as a relation. -/
def ofBool (b : Bool) : AbstractRelation := bif b then .true else .false

end AbstractRelation

/-- `is_sign_positive`. -/
def isSignPositive (x : F64) : Bool := !x.isNegative

/-- `is_sign_negative`. -/
def isSignNegative (x : F64) : Bool := x.isNegative

/-- `Number::less_than`. -/
def lessThan (x y : F64) : AbstractRelation :=
  if x.isNaN || y.isNaN then .undefined
  else if x.beq y || x.beq (zero false) && y.beq (zero true) ||
      x.beq (zero true) && y.beq (zero false) then .false
  else if x.isInfinite && isSignPositive x then .false
  else if y.isInfinite && isSignPositive y then .true
  else if x.isInfinite && isSignNegative x then .true
  else if y.isInfinite && isSignNegative y then .false
  else .ofBool (x.lt y)

/-- `Numeric`. -/
inductive Numeric where
  | number (x : F64)
  | bigInt (n : ℤ)
  deriving DecidableEq

variable (library : BigIntLibrary) (strings : StringConversions)

/-- `to_numeric` of a primitive value. -/
def toNumeric : PrimitiveValue → Option Numeric
  | .other (.bigInt n) => some (.bigInt n)
  | primitive => (toNumber strings primitive).map .number

/-- `JsBigInt::try_from`. -/
def tryFromF64 (n : F64) : Option ℤ := if n.trunc.beq n then library.fromF64 n else none

/-- `JsBigInt::to_f64`. -/
def bigIntToF64 (n : ℤ) : F64 := (library.toF64 n).getD (infinity false)

/-- The comparison of a BigInt with a Number. -/
def bigIntNumberRelation (x : ℤ) (y : F64) : AbstractRelation :=
  if y.isNaN then .undefined
  else if y.isInfinite then .ofBool (isSignPositive y)
  else
    match tryFromF64 library y with
    | some y => .ofBool (x < y)
    | none => .ofBool ((bigIntToF64 library x).lt y)

/-- The comparison of a Number with a BigInt. -/
def numberBigIntRelation (x : F64) (y : ℤ) : AbstractRelation :=
  if x.isNaN then .undefined
  else if x.isInfinite then .ofBool (isSignNegative x)
  else
    match tryFromF64 library x with
    | some x => .ofBool (x < y)
    | none => .ofBool (x.lt (bigIntToF64 library y))

/-- The comparison of two numeric values. -/
def numericRelation : Numeric → Numeric → AbstractRelation
  | .number x, .number y => lessThan x y
  | .bigInt x, .bigInt y => .ofBool (x < y)
  | .bigInt x, .number y => bigIntNumberRelation library x y
  | .number x, .bigInt y => numberBigIntRelation library x y

/-- On primitive values the order of the two conversions makes no difference. -/
def abstractRelation (self other : PrimitiveValue) : Option AbstractRelation :=
  match self, other with
  | .integer32 x, .integer32 y => some (.ofBool (x < y))
  | .integer32 x, .float64 y => some (lessThan (.ofInt32 x) y)
  | .float64 x, .integer32 y => some (lessThan x (.ofInt32 y))
  | .float64 x, .float64 y => some (lessThan x y)
  | .other (.bigInt x), .other (.bigInt y) => some (.ofBool (x < y))
  | .other (.string x), .other (.string y) => some (.ofBool (x < y))
  | .other (.bigInt x), .other (.string y) =>
    some ((strings.toBigInt y).elim .undefined fun y => .ofBool (x < y))
  | .other (.string x), .other (.bigInt y) =>
    some ((strings.toBigInt x).elim .undefined fun x => .ofBool (x < y))
  | px, py => do
    let x ← toNumeric strings px
    let y ← toNumeric strings py
    return numericRelation library x y

/-- `lt`: the operator `<`. -/
def lt (self other : PrimitiveValue) : Option Bool := do
  match ← abstractRelation library strings self other with
  | .true => return true
  | .false | .undefined => return false

/-- `le`: the operator `<=`. -/
def le (self other : PrimitiveValue) : Option Bool := do
  match ← abstractRelation library strings other self with
  | .false => return true
  | .true | .undefined => return false

/-- `gt`: the operator `>`. -/
def gt (self other : PrimitiveValue) : Option Bool := do
  match ← abstractRelation library strings other self with
  | .true => return true
  | .false | .undefined => return false

/-- `ge`: the operator `>=`. -/
def ge (self other : PrimitiveValue) : Option Bool := do
  match ← abstractRelation library strings self other with
  | .false => return true
  | .true | .undefined => return false

/-! ### Numeric values -/

/-- Zeros have no units. -/
theorem units_zero (negative : Bool) : (zero negative).units = 0 := by
  simp [units, magnitude_zero]

/-- Two zeros are equal, whatever their signs. -/
theorem beq_of_zeros {x y : F64} (hx : x.isNaN = false) (hy : y.isNaN = false) {a b : Bool}
    (h : (x.beq (zero a) && y.beq (zero b)) = true) : x.beq y = true := by
  rw [Bool.and_eq_true] at h
  have hunits : x.units = y.units := by
    rw [units_of_beq h.1, units_of_beq h.2, units_zero, units_zero]
  rw [beq, hx, hy, decide_eq_true hunits]
  rfl

/-- A comparison that holds is true. -/
theorem ofBool_of {p : Prop} [Decidable p] (h : p) : AbstractRelation.ofBool p = .true := by
  rw [decide_eq_true h]
  rfl

/-- A comparison that does not hold is false. -/
theorem ofBool_of_not {p : Prop} [Decidable p] (h : ¬ p) : AbstractRelation.ofBool p = .false := by
  rw [decide_eq_false h]
  rfl

/-- `less_than` is the order of the values. -/
theorem lessThan_eq {x y : F64} (hx : x.isNaN = false) (hy : y.isNaN = false) :
    lessThan x y = .ofBool (x.extended < y.extended) := by
  have hxtop := extended_eq_top_iff x
  have hytop := extended_eq_top_iff y
  have hxbot := extended_eq_bot_iff x
  have hybot := extended_eq_bot_iff y
  rw [lessThan, hx, hy]
  simp only [Bool.or_self, Bool.false_eq_true, if_false]
  split
  case isTrue hequal =>
    have hbeq : x.beq y = true := by
      simp only [Bool.or_eq_true] at hequal
      obtain (h | h) | h := hequal
      · exact h
      · exact beq_of_zeros hx hy h
      · exact beq_of_zeros hx hy h
    rw [(beq_iff hx hy).mp hbeq, ofBool_of_not (lt_irrefl _)]
  case isFalse hne =>
    have hne : x.extended ≠ y.extended := by
      intro h
      rw [(beq_iff hx hy).mpr h] at hne
      exact hne rfl
    simp only [isSignPositive, isSignNegative, Bool.and_eq_true, Bool.not_eq_true', ← hxtop,
      ← hytop, ← hxbot, ← hybot]
    split
    case isTrue h => rw [h, ofBool_of_not not_top_lt]
    split
    case isTrue h => rw [h] at hne ⊢; rw [ofBool_of (lt_top_iff_ne_top.mpr hne)]
    split
    case isTrue h => rw [h] at hne ⊢; rw [ofBool_of (bot_lt_iff_ne_bot.mpr hne.symm)]
    split
    case isTrue h => rw [h, ofBool_of_not not_lt_bot]
    case isFalse =>
      congr 1
      rw [Bool.eq_iff_iff, lt_iff hx hy, decide_eq_true_iff]

/-- The place of an integer in the order of the values. -/
def ofBigInt (n : ℤ) : WithBot (WithTop ℚ) := ((n : ℚ) : WithTop ℚ)

/-- A finite double is placed by its value. -/
theorem extended_of_isFinite {x : F64} (h : x.isFinite = true) :
    x.extended = ((x.value : WithTop ℚ) : WithBot (WithTop ℚ)) := by
  simp [extended, isInfinite_of_isFinite h]

/-- A big integer is below a finite double exactly if it is below its value. -/
theorem ofBigInt_lt_iff (n : ℤ) {x : F64} (h : x.isFinite = true) :
    ofBigInt n < x.extended ↔ (n : ℚ) < x.value := by
  rw [extended_of_isFinite h, ofBigInt, WithBot.coe_lt_coe, WithTop.coe_lt_coe]

/-- A finite double is below a big integer exactly if its value is. -/
theorem lt_ofBigInt_iff (n : ℤ) {x : F64} (h : x.isFinite = true) :
    x.extended < ofBigInt n ↔ x.value < (n : ℚ) := by
  rw [extended_of_isFinite h, ofBigInt, WithBot.coe_lt_coe, WithTop.coe_lt_coe]

/-- An integral double becomes a BigInt, a double with a fraction does not. -/
theorem tryFromF64_eq {x : F64} (h : x.isFinite = true) :
    tryFromF64 library x = if x.isIntegral then some (integral x.value) else none := by
  rw [tryFromF64, trunc_beq_iff h, library.fromF64_eq, h]
  rfl

/-- The double of a BigInt is on the same side of a fraction. -/
theorem bigIntToF64_order (n : ℤ) {x : F64} (hfinite : x.isFinite = true)
    (hfraction : x.isIntegral = false) :
    ((bigIntToF64 library n).lt x = true ↔ (n : ℚ) < x.value) ∧
      (x.lt (bigIntToF64 library n) = true ↔ x.value < (n : ℚ)) := by
  have hnan := isNaN_of_isFinite hfinite
  have hsmall := abs_lt.mp (abs_value_lt_of_fraction hfinite hfraction)
  obtain hexact | hlarge | hlow : n.natAbs < 2 ^ 53 ∨ 2 ^ 53 ≤ n ∨ n ≤ -2 ^ 53 := by omega
  · obtain ⟨d, hd, hfin, hvalue⟩ := library.toF64_exact n hexact
    have hdouble : bigIntToF64 library n = d := by rw [bigIntToF64, hd, Option.getD_some]
    have hdnan := isNaN_of_isFinite hfin
    rw [hdouble, lt_iff hdnan hnan, lt_iff hnan hdnan, extended_of_isFinite hfin,
      extended_of_isFinite hfinite, hvalue]
    simp only [WithBot.coe_lt_coe, WithTop.coe_lt_coe, and_self]
  · obtain ⟨d, hd, hdnan, hbound⟩ := library.toF64_large n hlarge
    have hdouble : bigIntToF64 library n = d := by rw [bigIntToF64, hd, Option.getD_some]
    have hcast : (2 ^ 53 : ℚ) ≤ n := by exact_mod_cast hlarge
    have hlt : x.extended < d.extended := by
      refine lt_of_lt_of_le ?_ hbound
      rw [extended_of_isFinite hfinite, WithBot.coe_lt_coe, WithTop.coe_lt_coe]
      exact hsmall.2
    rw [hdouble, lt_iff hdnan hnan, lt_iff hnan hdnan]
    exact ⟨iff_of_false (not_lt_of_gt hlt) (by linarith), iff_of_true hlt (by linarith)⟩
  · obtain ⟨d, hd, hdnan, hbound⟩ := library.toF64_small n hlow
    have hdouble : bigIntToF64 library n = d := by rw [bigIntToF64, hd, Option.getD_some]
    have hcast : (n : ℚ) ≤ -2 ^ 53 := by exact_mod_cast hlow
    have hlt : d.extended < x.extended := by
      refine lt_of_le_of_lt hbound ?_
      rw [extended_of_isFinite hfinite, WithBot.coe_lt_coe, WithTop.coe_lt_coe]
      exact hsmall.1
    rw [hdouble, lt_iff hdnan hnan, lt_iff hnan hdnan]
    exact ⟨iff_of_true hlt (by linarith), iff_of_false (not_lt_of_gt hlt) (by linarith)⟩

/-- Comparisons that are decided alike are the same relation. -/
theorem ofBool_congr {b : Bool} {p : Prop} [Decidable p] (h : b = true ↔ p) :
    AbstractRelation.ofBool b = .ofBool p := by
  congr 1
  rw [Bool.eq_iff_iff, h, decide_eq_true_iff]

/-- Every BigInt is between the infinities. -/
theorem infinite_cases {x : F64} (h : x.isInfinite = true) (n : ℤ) :
    (isSignPositive x = true ↔ ofBigInt n < x.extended) ∧
      (isSignNegative x = true ↔ x.extended < ofBigInt n) := by
  rw [extended, if_pos h, isSignPositive, isSignNegative]
  cases x.isNegative
  · exact ⟨iff_of_true rfl (WithBot.coe_lt_coe.mpr (WithTop.coe_lt_top _)),
      iff_of_false Bool.false_ne_true not_top_lt⟩
  · exact ⟨iff_of_false Bool.false_ne_true not_lt_bot, iff_of_true rfl (WithBot.bot_lt_coe _)⟩

/-- **A BigInt and a Number** are in the order of their values. -/
theorem bigIntNumberRelation_eq (n : ℤ) {x : F64} (h : x.isNaN = false) :
    bigIntNumberRelation library n x = .ofBool (ofBigInt n < x.extended) := by
  rw [bigIntNumberRelation, h]
  simp only [Bool.false_eq_true, if_false]
  split
  case isTrue hinf => exact ofBool_congr (infinite_cases hinf n).1
  case isFalse hinf =>
    have hfinite := isFinite_of_isInfinite h (by simpa using hinf)
    rw [tryFromF64_eq library hfinite]
    cases hintegral : x.isIntegral
    · exact ofBool_congr ((bigIntToF64_order library n hfinite hintegral).1.trans
        (ofBigInt_lt_iff n hfinite).symm)
    · refine ofBool_congr ?_
      rw [ofBigInt_lt_iff n hfinite, value_of_isIntegral hintegral, decide_eq_true_iff,
        Int.cast_lt, ← value_of_isIntegral hintegral]

/-- **A Number and a BigInt** are in the order of their values. -/
theorem numberBigIntRelation_eq (n : ℤ) {x : F64} (h : x.isNaN = false) :
    numberBigIntRelation library x n = .ofBool (x.extended < ofBigInt n) := by
  rw [numberBigIntRelation, h]
  simp only [Bool.false_eq_true, if_false]
  split
  case isTrue hinf => exact ofBool_congr (infinite_cases hinf n).2
  case isFalse hinf =>
    have hfinite := isFinite_of_isInfinite h (by simpa using hinf)
    rw [tryFromF64_eq library hfinite]
    cases hintegral : x.isIntegral
    · exact ofBool_congr ((bigIntToF64_order library n hfinite hintegral).2.trans
        (lt_ofBigInt_iff n hfinite).symm)
    · refine ofBool_congr ?_
      rw [lt_ofBigInt_iff n hfinite, value_of_isIntegral hintegral, decide_eq_true_iff,
        Int.cast_lt, ← value_of_isIntegral hintegral]

/-! ### Numbers are compared as doubles -/

/-- Integers of 32 bits are compared as doubles as they are as integers. -/
theorem lessThan_ofInt32 (m n : Int32) :
    lessThan (.ofInt32 m) (.ofInt32 n) = .ofBool (m < n) := by
  have hm := isNaN_ofInt32 m
  have hn := isNaN_ofInt32 n
  rw [lessThan_eq hm hn]
  refine ofBool_congr ?_
  rw [decide_eq_true_iff, ← lt_iff hm hn, lt_ofInt32, decide_eq_true_iff]

/-- The relation of a Number to a value on the right. -/
def relationLeft (u : F64) : PrimitiveValue → Option AbstractRelation
  | .integer32 n => some (lessThan u (.ofInt32 n))
  | .float64 v => some (lessThan u v)
  | .other (.bigInt n) => some (numberBigIntRelation library u n)
  | .other v => (toNumber strings (.other v)).map (lessThan u)

/-- The relation of a value on the left to a Number. -/
def relationRight (u : F64) : PrimitiveValue → Option AbstractRelation
  | .integer32 n => some (lessThan (.ofInt32 n) u)
  | .float64 v => some (lessThan v u)
  | .other (.bigInt n) => some (bigIntNumberRelation library n u)
  | .other v => (toNumber strings (.other v)).map (lessThan · u)

/-- A Number on the left is compared as its double. -/
theorem abstractRelation_left {x : PrimitiveValue} {u : F64} (hx : x.asNumber = some u)
    (y : PrimitiveValue) :
    abstractRelation library strings x y = relationLeft library strings u y := by
  cases x with
  | integer32 m =>
    obtain rfl := Option.some.inj hx
    cases y with
    | integer32 n => exact congrArg some (lessThan_ofInt32 m n).symm
    | float64 v => rfl
    | other v => cases v <;> rfl
  | float64 d =>
    obtain rfl := Option.some.inj hx
    cases y with
    | integer32 n => rfl
    | float64 v => rfl
    | other v => cases v <;> rfl
  | other v => cases hx

/-- A Number on the right is compared as its double. -/
theorem abstractRelation_right {x : PrimitiveValue} {u : F64} (hx : x.asNumber = some u)
    (y : PrimitiveValue) :
    abstractRelation library strings y x = relationRight library strings u y := by
  cases x with
  | integer32 m =>
    obtain rfl := Option.some.inj hx
    cases y with
    | integer32 n => exact congrArg some (lessThan_ofInt32 n m).symm
    | float64 v => rfl
    | other v => cases v <;> rfl
  | float64 d =>
    obtain rfl := Option.some.inj hx
    cases y with
    | integer32 n => rfl
    | float64 v => rfl
    | other v => cases v <;> rfl
  | other v => cases hx

/-! ### The mathematical order -/

/-- The mathematical value of a Number or a BigInt that is one. -/
def numericValue : PrimitiveValue → Option (WithBot (WithTop ℚ))
  | .integer32 n => some (F64.ofInt32 n).extended
  | .float64 x => if x.isNaN then none else some x.extended
  | .other (.bigInt n) => some (ofBigInt n)
  | .other _ => none

/-- A value with a mathematical value is a Number or a BigInt. -/
theorem numericValue_cases {x : PrimitiveValue} {a : WithBot (WithTop ℚ)}
    (h : numericValue x = some a) :
    (∃ u, x.asNumber = some u ∧ u.isNaN = false ∧ a = u.extended) ∨
      ∃ n, x = .other (.bigInt n) ∧ a = ofBigInt n := by
  cases x with
  | integer32 n => exact .inl ⟨_, rfl, isNaN_ofInt32 n, (Option.some.inj h).symm⟩
  | float64 d =>
    simp only [numericValue] at h
    split at h
    case isTrue => cases h
    case isFalse hnan =>
      exact .inl ⟨d, rfl, by simpa using hnan, (Option.some.inj h).symm⟩
  | other v =>
    cases v with
    | bigInt n => exact .inr ⟨n, rfl, (Option.some.inj h).symm⟩
    | _ => cases h

/-- A number on the left is compared with a number as their doubles are. -/
theorem relationLeft_number {u v : F64} {y : PrimitiveValue} (hy : y.asNumber = some v) :
    relationLeft library strings u y = some (lessThan u v) := by
  cases y with
  | integer32 n => rw [← Option.some.inj hy]; rfl
  | float64 d => rw [← Option.some.inj hy]; rfl
  | other w => cases hy

/-- Big integers are placed in their own order. -/
theorem ofBigInt_lt_ofBigInt (m n : ℤ) : ofBigInt m < ofBigInt n ↔ m < n := by
  rw [ofBigInt, ofBigInt, WithBot.coe_lt_coe, WithTop.coe_lt_coe, Int.cast_lt]

/-- **Numeric values are ordered as their mathematical values.** -/
theorem abstractRelation_numeric {x y : PrimitiveValue} {a b : WithBot (WithTop ℚ)}
    (hx : numericValue x = some a) (hy : numericValue y = some b) :
    abstractRelation library strings x y = some (.ofBool (a < b)) := by
  obtain ⟨u, hu, hunan, rfl⟩ | ⟨m, rfl, rfl⟩ := numericValue_cases hx
  · rw [abstractRelation_left library strings hu]
    obtain ⟨v, hv, hvnan, rfl⟩ | ⟨n, rfl, rfl⟩ := numericValue_cases hy
    · rw [relationLeft_number library strings hv, lessThan_eq hunan hvnan]
    · exact congrArg some (numberBigIntRelation_eq library n hunan)
  · obtain ⟨v, hv, hvnan, rfl⟩ | ⟨n, rfl, rfl⟩ := numericValue_cases hy
    · rw [abstractRelation_right library strings hv]
      exact congrArg some (bigIntNumberRelation_eq library m hvnan)
    · refine congrArg some (ofBool_congr ?_)
      rw [decide_eq_true_iff, ofBigInt_lt_ofBigInt]

end Comparison

end BoaLigero
