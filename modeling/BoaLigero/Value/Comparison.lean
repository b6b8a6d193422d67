import BoaLigero.Value.Relation

/-!
# Comparisons of Primitive Values

What all comparisons of primitive values have in common: they depend on the values of the
language only, a Number being its value with the sign of zero, and they order Numbers and BigInts
together as their mathematical values. Equality of keys is an equivalence relation, and equal
keys feed the same to a hasher, but for zeros of different sign and NaNs with different bits.

## Main results

* `onLanguageValues_equals`, `onLanguageValues_relation` — comparisons do not see how a Number is
  held.
* `ordered_of_numeric` — Numbers and BigInts are in the order of their values.
* `comparison_spec` — all of it, with the condition for hashes.
-/

namespace BoaLigero

namespace Comparison

open F64 ExactDouble

/-! ### Values of the language -/

/-- A value of the language. -/
inductive LanguageValue where
  | number (datum : Datum)
  | other (value : OtherPrimitive)
  deriving DecidableEq

/-- The value of the language that a value holds. -/
def language : PrimitiveValue → LanguageValue
  | .integer32 n => .number (F64.ofInt32 n).datum
  | .float64 x => .number x.datum
  | .other v => .other v

/-- A comparison that depends on the values of the language only. -/
def OnLanguageValues {α : Type} (f : PrimitiveValue → PrimitiveValue → α) : Prop :=
  ∀ x x' y y', language x = language x' → language y = language y' → f x y = f x' y'

/-- Values of one language value are Numbers of one datum, or the same. -/
theorem language_cases {x x' : PrimitiveValue} (h : language x = language x') :
    (∃ u u', x.asNumber = some u ∧ x'.asNumber = some u' ∧ u.datum = u'.datum) ∨ x = x' := by
  cases x with
  | integer32 m =>
    cases x' with
    | integer32 n => exact .inl ⟨_, _, rfl, rfl, LanguageValue.number.inj h⟩
    | float64 e => exact .inl ⟨_, _, rfl, rfl, LanguageValue.number.inj h⟩
    | other w => cases h
  | float64 d =>
    cases x' with
    | integer32 n => exact .inl ⟨_, _, rfl, rfl, LanguageValue.number.inj h⟩
    | float64 e => exact .inl ⟨_, _, rfl, rfl, LanguageValue.number.inj h⟩
    | other w => cases h
  | other v =>
    cases x' with
    | integer32 n => cases h
    | float64 e => cases h
    | other w => rw [LanguageValue.other.inj h]; exact .inr rfl

/-- A comparison that goes by the double of a Number on either side, and for which all NaNs are
one, depends on the values of the language only. -/
theorem onLanguageValues_of {α : Type} {f : PrimitiveValue → PrimitiveValue → α}
    (left right : F64 → PrimitiveValue → α)
    (hleft : ∀ {x : PrimitiveValue} {u : F64}, x.asNumber = some u → ∀ y, f x y = left u y)
    (hright : ∀ {x : PrimitiveValue} {u : F64}, x.asNumber = some u → ∀ y, f y x = right u y)
    (hnan : ∀ u u' y, u.isNaN = true → u'.isNaN = true →
      left u y = left u' y ∧ right u y = right u' y) : OnLanguageValues f := by
  intro x x' y y' hx hy
  have hfirst : f x y = f x' y := by
    obtain ⟨u, u', hu, hu', hdatum⟩ | rfl := language_cases hx
    · rw [hleft hu, hleft hu']
      obtain ⟨hn, hn'⟩ | rfl := datum_eq_iff.mp hdatum
      · exact (hnan u u' y hn hn').1
      · rfl
    · rfl
  have hsecond : f x' y = f x' y' := by
    obtain ⟨u, u', hu, hu', hdatum⟩ | rfl := language_cases hy
    · rw [hright hu, hright hu']
      obtain ⟨hn, hn'⟩ | rfl := datum_eq_iff.mp hdatum
      · exact (hnan u u' x' hn hn').2
      · rfl
    · rfl
  exact hfirst.trans hsecond

/-! ### Comparisons of one type -/

/-- The comparison of a Number with any value, where other values are different. -/
def sameNumber (number : F64 → F64 → Bool) (u : F64) (y : PrimitiveValue) : Bool :=
  y.asNumber.elim false (number u)

/-- The three comparisons of values of one type. -/
theorem onLanguageValues_sameType {number : F64 → F64 → Bool}
    (hnumber : ∀ m n : Int32, number (.ofInt32 m) (.ofInt32 n) = decide (m = n))
    (hsymm : ∀ u v, number u v = number v u)
    (hnan : ∀ u u' v, u.isNaN = true → u'.isNaN = true → number u v = number u' v) :
    OnLanguageValues (sameType number) := by
  have hleft : ∀ {x : PrimitiveValue} {u : F64}, x.asNumber = some u → ∀ y,
      sameType number x y = sameNumber number u y := by
    intro x u hx y
    cases y with
    | integer32 n => exact sameType_number hnumber hx rfl
    | float64 v => exact sameType_number hnumber hx rfl
    | other v => exact (sameType_number_other number hx v).1
  have hright : ∀ {x : PrimitiveValue} {u : F64}, x.asNumber = some u → ∀ y,
      sameType number y x = sameNumber number u y := by
    intro x u hx y
    cases y with
    | integer32 n => exact (sameType_number hnumber rfl hx).trans (hsymm _ _)
    | float64 v => exact (sameType_number hnumber rfl hx).trans (hsymm _ _)
    | other v => exact (sameType_number_other number hx v).2
  refine onLanguageValues_of _ _ hleft hright fun u u' y hu hu' => ?_
  have hsame : sameNumber number u y = sameNumber number u' y := by
    unfold sameNumber
    cases y.asNumber with
    | none => rfl
    | some v => exact hnan u u' v hu hu'
  exact ⟨hsame, hsame⟩

/-- Strict equality does not see whether a Number is held as an integer or as a double. -/
theorem onLanguageValues_strictEquals : OnLanguageValues strictEquals := by
  refine onLanguageValues_sameType beq_ofInt32 beq_comm fun u u' v hu hu' => ?_
  rw [beq_of_isNaN_left hu, beq_of_isNaN_left hu']

/-- `SameValue` does not see the representation of a Number either: it tells zeros and nothing else
apart. -/
theorem onLanguageValues_sameValue : OnLanguageValues sameValue := by
  refine onLanguageValues_sameType numberSameValue_ofInt32 (fun u v => ?_) fun u u' v hu hu' => ?_
  · rw [numberSameValue, numberSameValue, Bool.and_comm, beq_comm u, beq_comm (signum u)]
  · simp [numberSameValue, hu, hu', beq_of_isNaN_left]

/-- `SameValueZero` does not see the representation of a Number, and treats both zeros alike. -/
theorem onLanguageValues_sameValueZero : OnLanguageValues sameValueZero := by
  refine onLanguageValues_sameType numberSameValueZero_ofInt32 (fun u v => ?_)
    fun u u' v hu hu' => ?_
  · rw [numberSameValueZero, numberSameValueZero, Bool.and_comm, beq_comm u]
  · simp [numberSameValueZero, hu, hu', beq_of_isNaN_left]

/-! ### Comparisons across types -/

variable (library : BigIntLibrary) (strings : StringConversions)

section NaN

variable {u : F64} (hnan : u.isNaN = true) (y : PrimitiveValue)

include hnan

/-- A NaN that is compared as a number with anything is unequal to it. -/
theorem equalsNumber_of_isNaN : equalsNumber library strings u y = some false := by
  cases y with
  | integer32 n => simp [equalsNumber, beq_of_isNaN_left hnan]
  | float64 v => simp [equalsNumber, beq_of_isNaN_left hnan]
  | other v =>
    cases v <;> simp [equalsNumber, beq_of_isNaN_left hnan, bigIntEqualsF64, isZero_fract,
      isIntegral_of_isNaN hnan]

/-- A NaN on the left makes the relation undefined, whatever primitive stands on the right. -/
theorem relationLeft_of_isNaN : relationLeft library strings u y = some .undefined := by
  cases y with
  | integer32 n => simp [relationLeft, lessThan, hnan]
  | float64 v => simp [relationLeft, lessThan, hnan]
  | other v => cases v <;> simp [relationLeft, lessThan, toNumber, numberBigIntRelation, hnan]

/-- A NaN on the right makes the relation undefined, whatever primitive stands on the left. -/
theorem relationRight_of_isNaN : relationRight library strings u y = some .undefined := by
  cases y with
  | integer32 n => simp [relationRight, lessThan, hnan]
  | float64 v => simp [relationRight, lessThan, hnan]
  | other v => cases v <;> simp [relationRight, lessThan, toNumber, bigIntNumberRelation, hnan]

end NaN

/-- Loose equality does not see whether a Number is held as an integer or as a double. -/
theorem onLanguageValues_equals : OnLanguageValues (equals library strings) := by
  refine onLanguageValues_of _ _ (equals_number_left library strings)
    (equals_number_right library strings) fun u u' y hu hu' => ?_
  rw [equalsNumber_of_isNaN library strings hu, equalsNumber_of_isNaN library strings hu']
  exact ⟨rfl, rfl⟩

/-- The relation of two values, on which the four operators are based. -/
theorem onLanguageValues_relation : OnLanguageValues (abstractRelation library strings) := by
  refine onLanguageValues_of _ _ (abstractRelation_left library strings)
    (abstractRelation_right library strings) fun u u' y hu hu' => ?_
  rw [relationLeft_of_isNaN library strings hu, relationLeft_of_isNaN library strings hu',
    relationRight_of_isNaN library strings hu, relationRight_of_isNaN library strings hu']
  exact ⟨rfl, rfl⟩

/-! ### The order of numeric values -/

/-- The results of the comparisons of two values that stand at places of the order. -/
structure Ordered (x y : PrimitiveValue) (a b : WithBot (WithTop ℚ)) : Prop where
  equals : equals library strings x y = some (decide (a = b))
  lt : lt library strings x y = some (decide (a < b))
  le : le library strings x y = some (decide (a ≤ b))
  gt : gt library strings x y = some (decide (b < a))
  ge : ge library strings x y = some (decide (b ≤ a))

/-- A BigInt equals a double if and only if both are the same number, without rounding either of
them. -/
theorem bigIntEqualsF64_eq (n : ℤ) {x : F64} (h : x.isNaN = false) :
    bigIntEqualsF64 library n x = decide (x.extended = ofBigInt n) := by
  rw [Bool.eq_iff_iff, bigIntEqualsF64_iff, decide_eq_true_iff]
  cases hinf : x.isInfinite
  · have hfinite := isFinite_of_isInfinite h hinf
    rw [extended_of_isFinite hfinite, ofBigInt, WithBot.coe_inj, WithTop.coe_inj,
      and_iff_right hfinite]
  · refine iff_of_false (fun hfinite => ?_) fun hvalue => ?_
    · rw [isInfinite_of_isFinite hfinite.1] at hinf
      cases hinf
    · obtain ⟨hpos, hneg⟩ := infinite_cases hinf n
      rw [hvalue] at hpos hneg
      cases hsign : x.isNegative
      · exact lt_irrefl _ (hpos.mp (by rw [isSignPositive, hsign]; rfl))
      · exact lt_irrefl _ (hneg.mp hsign)

/-- Two values that are both read as numbers are compared as doubles. -/
theorem equalsNumber_number {u v : F64} {y : PrimitiveValue} (hy : y.asNumber = some v) :
    equalsNumber library strings u y = some (u.beq v) := by
  cases y with
  | integer32 n => rw [← Option.some.inj hy]; rfl
  | float64 d => rw [← Option.some.inj hy]; rfl
  | other w => cases hy

/-- Equality of numeric values is that of their mathematical values. -/
theorem equals_numeric {x y : PrimitiveValue} {a b : WithBot (WithTop ℚ)}
    (hx : numericValue x = some a) (hy : numericValue y = some b) :
    equals library strings x y = some (decide (a = b)) := by
  obtain ⟨u, hu, hunan, rfl⟩ | ⟨m, rfl, rfl⟩ := numericValue_cases hx
  · rw [equals_number_left library strings hu]
    obtain ⟨v, hv, hvnan, rfl⟩ | ⟨n, rfl, rfl⟩ := numericValue_cases hy
    · rw [equalsNumber_number library strings hv, Option.some.injEq, Bool.eq_iff_iff,
        beq_iff hunan hvnan, decide_eq_true_iff]
    · exact congrArg some (bigIntEqualsF64_eq library n hunan)
  · obtain ⟨v, hv, hvnan, rfl⟩ | ⟨n, rfl, rfl⟩ := numericValue_cases hy
    · rw [equals_number_right library strings hv]
      refine congrArg some ((bigIntEqualsF64_eq library m hvnan).trans ?_)
      rw [decide_eq_decide, eq_comm]
    · have hinj : ofBigInt m = ofBigInt n ↔ m = n := by
        rw [ofBigInt, ofBigInt, WithBot.coe_inj, WithTop.coe_inj, Int.cast_inj]
      have htypes : getType (.other (.bigInt m)) = getType (.other (.bigInt n)) := rfl
      rw [equals_same library strings htypes, Option.some.injEq, Bool.eq_iff_iff,
        decide_eq_true_iff, hinj]
      exact decide_eq_true_iff

/-- **Numbers and BigInts** are in the order of their mathematical values. -/
theorem ordered_of_numeric {x y : PrimitiveValue} {a b : WithBot (WithTop ℚ)}
    (hx : numericValue x = some a) (hy : numericValue y = some b) :
    Ordered library strings x y a b := by
  have hxy := abstractRelation_numeric library strings hx hy
  have hyx := abstractRelation_numeric library strings hy hx
  refine ⟨equals_numeric library strings hx hy, ?_, ?_, ?_, ?_⟩
  · rw [Comparison.lt, hxy]
    by_cases h : a < b <;> simp [h, AbstractRelation.ofBool]
  · rw [Comparison.le, hyx]
    by_cases h : b < a <;> simp [h, AbstractRelation.ofBool, not_lt.mp]
  · rw [Comparison.gt, hyx]
    by_cases h : b < a <;> simp [h, AbstractRelation.ofBool]
  · rw [Comparison.ge, hxy]
    by_cases h : a < b <;> simp [h, AbstractRelation.ofBool, not_lt.mp]

/-- The results of the comparisons of two values of which one is NaN. -/
structure Unordered (x y : PrimitiveValue) : Prop where
  equals : equals library strings x y = some false
  lt : lt library strings x y = some false
  le : le library strings x y = some false
  gt : gt library strings x y = some false
  ge : ge library strings x y = some false

/-- Whether a value is a Number that is NaN. -/
def IsNaN (x : PrimitiveValue) : Prop := ∃ u, x.asNumber = some u ∧ u.isNaN = true

/-- NaN is neither equal to a value nor before or after it. -/
theorem nan_relations {x : PrimitiveValue} (hx : IsNaN x) (y : PrimitiveValue) :
    equals library strings x y = some false ∧ equals library strings y x = some false ∧
      abstractRelation library strings x y = some .undefined ∧
      abstractRelation library strings y x = some .undefined := by
  obtain ⟨u, hu, hnan⟩ := hx
  rw [equals_number_left library strings hu, equals_number_right library strings hu,
    abstractRelation_left library strings hu, abstractRelation_right library strings hu]
  exact ⟨equalsNumber_of_isNaN library strings hnan y,
    equalsNumber_of_isNaN library strings hnan y, relationLeft_of_isNaN library strings hnan y,
    relationRight_of_isNaN library strings hnan y⟩

/-- With a NaN on either side all four relational operators are false. -/
theorem unordered_of_isNaN {x y : PrimitiveValue} (h : IsNaN x ∨ IsNaN y) :
    Unordered library strings x y := by
  have hrelations : equals library strings x y = some false ∧
      abstractRelation library strings x y = some .undefined ∧
      abstractRelation library strings y x = some .undefined := by
    cases h with
    | inl hx =>
      obtain ⟨hequals, -, hleft, hright⟩ := nan_relations library strings hx y
      exact ⟨hequals, hleft, hright⟩
    | inr hy =>
      obtain ⟨-, hequals, hleft, hright⟩ := nan_relations library strings hy x
      exact ⟨hequals, hright, hleft⟩
  obtain ⟨hequals, hxy, hyx⟩ := hrelations
  exact ⟨hequals, by simp [Comparison.lt, hxy], by simp [Comparison.le, hyx],
    by simp [Comparison.gt, hyx], by simp [Comparison.ge, hxy]⟩

/-- An operator on the relation of two values. -/
theorem onLanguageValues_operators :
    OnLanguageValues (lt library strings) ∧ OnLanguageValues (le library strings) ∧
      OnLanguageValues (gt library strings) ∧ OnLanguageValues (ge library strings) := by
  have hrelation := onLanguageValues_relation library strings
  refine ⟨?_, ?_, ?_, ?_⟩ <;> intro x x' y y' hx hy
  · rw [Comparison.lt, Comparison.lt, hrelation x x' y y' hx hy]
  · rw [Comparison.le, Comparison.le, hrelation y y' x x' hy hx]
  · rw [Comparison.gt, Comparison.gt, hrelation y y' x x' hy hx]
  · rw [Comparison.ge, Comparison.ge, hrelation x x' y y' hx hy]

/-! ### All comparisons -/

/-- **Comparisons of values**: they depend on the values of the language only; Numbers and
BigInts are ordered together as their mathematical values, so that of `<`, `==` and `>` exactly
one holds and all are transitive, and NaN is in no relation to anything; equality of keys is an
equivalence relation; and equal keys feed the same to a hasher if and only if they are not zeros
of different sign and not NaNs with different bits. -/
theorem comparison_spec :
    (OnLanguageValues strictEquals ∧ OnLanguageValues sameValue ∧
      OnLanguageValues sameValueZero ∧ OnLanguageValues (equals library strings) ∧
      OnLanguageValues (lt library strings) ∧ OnLanguageValues (le library strings) ∧
      OnLanguageValues (gt library strings) ∧ OnLanguageValues (ge library strings)) ∧
    (∀ x y a b, numericValue x = some a → numericValue y = some b →
      Ordered library strings x y a b) ∧
    (∀ x y, IsNaN x ∨ IsNaN y → Unordered library strings x y) ∧
    (Equivalence fun x y => sameValueZero x y = true) ∧
    ∀ x y, (sameValueZero x y = true → hashInput x = hashInput y) ↔ ¬ BitsDiffer x y :=
  ⟨⟨onLanguageValues_strictEquals, onLanguageValues_sameValue, onLanguageValues_sameValueZero,
      onLanguageValues_equals library strings, onLanguageValues_operators library strings⟩,
    fun _ _ _ _ => ordered_of_numeric library strings,
    fun _ _ => unordered_of_isNaN library strings, sameValueZero_equivalence, hashInput_eq_iff⟩

/-- A library that knows integers of 53 bits. -/
def smallLibrary : BigIntLibrary where
  fromF64 x := if x.isFinite then some (integral x.value) else none
  toF64 n := some (if n.natAbs < 2 ^ 53 then ofInteger n else infinity (n < 0))
  fromF64_eq _ := rfl
  toF64_exact n hn :=
    ⟨ofInteger n, congrArg some (if_pos hn), isFinite_ofInteger hn, value_ofInteger hn⟩
  toF64_large n hn := by
    refine ⟨infinity false, ?_, by decide, le_top⟩
    rw [if_neg (by omega), decide_eq_false (by omega)]
  toF64_small n hn := by
    refine ⟨infinity true, ?_, by decide, bot_le⟩
    rw [if_neg (by omega), decide_eq_true (by omega)]

/-- The BigInt 2 is before the Number 3, and NaN is in no relation to it. -/
theorem comparison_of_two :
    Ordered smallLibrary ⟨fun _ => nan, fun _ => none⟩ (.other (.bigInt 2)) (.integer32 3)
      (ofBigInt 2) (F64.ofInt32 3).extended ∧
    Unordered smallLibrary ⟨fun _ => nan, fun _ => none⟩ (.other (.bigInt 2)) (.float64 nan) := by
  obtain ⟨-, hordered, hunordered, -, -⟩ :=
    comparison_spec smallLibrary ⟨fun _ => nan, fun _ => none⟩
  exact ⟨hordered _ _ _ _ rfl rfl, hunordered _ _ (.inr ⟨nan, rfl, by decide⟩)⟩

/-- Zeros of both signs are equal as keys, and feed different bits to a hasher. -/
theorem hashInput_of_zeros :
    ¬ (sameValueZero (.float64 (zero false)) (.float64 (zero true)) = true →
      hashInput (.float64 (zero false)) = hashInput (.float64 (zero true))) := by
  decide

end Comparison

end BoaLigero
