import BoaLigero.Object.IndexedProperties
import BoaLigero.Util.DoubleArithmetic

/-!
# Arithmetic Operators on Numbers

The operators `+`, `-`, `*`, `/`, `%` and unary `-` of values (`value/operations.rs`), each with
its path for two machine integers and its paths for doubles, and the fast variants of the binary
operators. What the operators do with operands that are not both Numbers is a parameter.

Integer division lacks the check for a negative zero that integer multiplication has, and the
remainder and the negation of the least integer overflow.

## Main results

* `exact_integers_iff` — when the integer path of an operator gives the exact result.
* `fast_eq` — the fast variant is the operator itself on Numbers.
* `integerOperators_exact_iff` — both together, for all operators.
-/

namespace BoaLigero

/-- An arithmetic overflow, which the program does not survive. -/
inductive Panic where
  | overflow
  deriving DecidableEq, Repr

namespace Operations

open F64

variable {P : Type}

/-! ### The source -/

/-- A machine integer, where the result is in its range. -/
def checked (n : ℤ) : Option Int32 :=
  if -2 ^ 31 ≤ n ∧ n < 2 ^ 31 then some (Int32.ofInt n) else none

/-- `checked_div`. -/
def checkedDiv (x y : Int32) : Option Int32 :=
  if y = 0 then none else checked (x.toInt.tdiv y.toInt)

/-- `%` on `i32`, which overflows where the quotient does. -/
def remainder (x y : Int32) : Except Panic Int32 :=
  if x = Int32.minValue ∧ y = -1 then .error .overflow
  else .ok (Int32.ofInt (x.toInt.tmod y.toInt))

/-- An integer result, or else that of the doubles. -/
def integerOr (integer : Option Int32) (double : F64) : JsVariant P :=
  integer.elim (.float64 double) .integer32

/-- `as_integer32`. -/
def asInteger32 : JsVariant P → Option Int32
  | .integer32 n => some n
  | _ => none

/-- The arms of an operator: two integers, doubles, and all other operands. -/
def numeric (integers : Int32 → Int32 → Except Panic (JsVariant P)) (doubles : F64 → F64 → F64)
    (others : JsVariant P → JsVariant P → Except Panic (JsVariant P)) :
    JsVariant P → JsVariant P → Except Panic (JsVariant P)
  | .integer32 x, .integer32 y => integers x y
  | .float64 x, .float64 y => .ok (.float64 (doubles x y))
  | .integer32 x, .float64 y => .ok (.float64 (doubles (.ofInt32 x) y))
  | .float64 x, .integer32 y => .ok (.float64 (doubles x (.ofInt32 y)))
  | x, y => others x y

/-- The fast variant of an operator, which declines operands that are not both Numbers. -/
def numericFast (integers : Int32 → Int32 → Except Panic (JsVariant P)) (doubles : F64 → F64 → F64)
    (a b : JsVariant P) : Except Panic (Option (JsVariant P)) :=
  match asInteger32 a, asInteger32 b with
  | some x, some y => (integers x y).map some
  | _, _ =>
    match a.asNumber, b.asNumber with
    | some x, some y => .ok (some (.float64 (doubles x y)))
    | _, _ => .ok none

def addIntegers (x y : Int32) : Except Panic (JsVariant P) :=
  .ok (integerOr (checked (x.toInt + y.toInt)) (.add (.ofInt32 x) (.ofInt32 y)))

def subIntegers (x y : Int32) : Except Panic (JsVariant P) :=
  .ok (integerOr (checked (x.toInt - y.toInt)) (.sub (.ofInt32 x) (.ofInt32 y)))

/-- A product that is zero is an integer only if no operand is negative. -/
def mulIntegers (x y : Int32) : Except Panic (JsVariant P) :=
  .ok (integerOr ((checked (x.toInt * y.toInt)).filter fun v => v ≠ 0 ∨ 0 ≤ min x y)
    (.mul (.ofInt32 x) (.ofInt32 y)))

/-- A quotient is an integer if it is exact. -/
def divIntegers (x y : Int32) : Except Panic (JsVariant P) :=
  .ok (integerOr ((checkedDiv x y).filter fun div => y * div = x)
    (.div (.ofInt32 x) (.ofInt32 y)))

def remIntegers (x y : Int32) : Except Panic (JsVariant P) :=
  if y = 0 then .ok (.float64 .nan)
  else do
    let rem ← remainder x y
    return if rem = 0 ∧ x < 0 then .float64 (.zero true) else .integer32 rem

/-- The remainder of doubles, with the sign of the dividend. -/
def remDoubles (x y : F64) : F64 := (x.rem y).copysign x

/-- Unary `-`; what it does with operands that are not Numbers is a parameter. -/
def neg (others : JsVariant P → Except Panic (JsVariant P)) :
    JsVariant P → Except Panic (JsVariant P)
  | .float64 num => .ok (.float64 num.neg)
  | .integer32 num =>
    if num = 0 then .ok (.float64 (.zero true))
    else
      match checked (-num.toInt) with
      | some n => .ok (.integer32 n)
      | none => .error .overflow
  | value => others value

/-- The binary operators. -/
inductive Operator where
  | add
  | sub
  | mul
  | div
  | rem
  deriving DecidableEq, Repr

namespace Operator

/-- The path of an operator for two integers. -/
def integers : Operator → Int32 → Int32 → Except Panic (JsVariant P)
  | add => addIntegers
  | sub => subIntegers
  | mul => mulIntegers
  | div => divIntegers
  | rem => remIntegers

/-- The path of an operator for doubles. -/
def doubles : Operator → F64 → F64 → F64
  | add => .add
  | sub => .sub
  | mul => .mul
  | div => .div
  | rem => remDoubles

/-- `JsValue::add`, `sub`, `mul`, `div` and `rem`. -/
def apply (op : Operator) (others : JsVariant P → JsVariant P → Except Panic (JsVariant P)) :
    JsVariant P → JsVariant P → Except Panic (JsVariant P) :=
  numeric op.integers op.doubles others

/-- `add_fast`, `sub_fast`, `mul_fast`, `div_fast` and `rem_fast`. -/
def applyFast (op : Operator) : JsVariant P → JsVariant P → Except Panic (Option (JsVariant P)) :=
  numericFast op.integers op.doubles

/-! ### The language -/

/-- The operation of the language on Numbers. -/
def exact : Operator → F64 → F64 → F64
  | add => .add
  | sub => .sub
  | mul => .mul
  | div => .div
  | rem => .rem

/-- The operands of which the integer path makes something else. -/
def Inexact : Operator → Int32 → Int32 → Prop
  | div, x, y => x = 0 ∧ y < 0
  | rem, x, y => x = Int32.minValue ∧ y = -1
  | _, _, _ => False

end Operator

/-! ### Integer results -/

theorem toInt_zero : (0 : Int32).toInt = 0 := rfl

theorem checked_eq_some {n : ℤ} {m : Int32} (h : checked n = some m) : m.toInt = n := by
  unfold checked at h
  split at h
  case isTrue hrange =>
    obtain rfl := Option.some.inj h
    exact Int32.toInt_ofInt_of_le hrange.1 hrange.2
  case isFalse => cases h

/-- An integer path is exact where its integer is the double. -/
theorem asNumber_integerOr {integer : Option Int32} {double : F64}
    (h : ∀ n, integer = some n → double = .ofInt32 n) :
    (integerOr integer double : JsVariant P).asNumber = some double := by
  cases integer with
  | none => rfl
  | some n =>
    rw [h n rfl]
    rfl

theorem add_eq_ofInt32 {x y n : Int32} (h : checked (x.toInt + y.toInt) = some n) :
    F64.add (.ofInt32 x) (.ofInt32 y) = .ofInt32 n := by
  have hn := checked_eq_some h
  rw [add_ofInt32, ← hn]
  refine ofValue_intCast ?_
  rintro rfl
  rw [toInt_zero] at hn
  simp only [Bool.and_eq_false_iff, decide_eq_false_iff_not]
  omega

theorem sub_eq_ofInt32 {x y n : Int32} (h : checked (x.toInt - y.toInt) = some n) :
    F64.sub (.ofInt32 x) (.ofInt32 y) = .ofInt32 n := by
  have hn := checked_eq_some h
  rw [sub_ofInt32, ← hn]
  refine ofValue_intCast ?_
  rintro rfl
  rw [toInt_zero] at hn
  obtain rfl : x = y := Int32.toInt_inj.mp (by omega)
  cases decide (x.toInt < 0) <;> rfl

theorem mul_eq_ofInt32 {x y n : Int32}
    (h : (checked (x.toInt * y.toInt)).filter (fun v => v ≠ 0 ∨ 0 ≤ min x y) = some n) :
    F64.mul (.ofInt32 x) (.ofInt32 y) = .ofInt32 n := by
  obtain ⟨hchecked, hsign⟩ := Option.filter_eq_some_iff.mp h
  have hn := checked_eq_some hchecked
  rw [mul_ofInt32, ← hn]
  refine ofValue_intCast ?_
  rintro rfl
  have hmin : 0 ≤ min x y := by simpa using hsign
  have hboth : 0 ≤ x.toInt ∧ 0 ≤ y.toInt := by
    have hdef : min x y = if x ≤ y then x else y := rfl
    rw [hdef] at hmin
    split at hmin <;> simp only [Int32.le_iff_toInt_le, toInt_zero] at * <;> omega
  simp [not_lt.mpr hboth.1, not_lt.mpr hboth.2]

/-- The product with the truncated quotient does not wrap. -/
theorem toInt_mul_checkedDiv {x y n : Int32} (h : checkedDiv x y = some n) :
    y ≠ 0 ∧ (y * n).toInt = y.toInt * n.toInt := by
  unfold checkedDiv at h
  split at h
  case isTrue => cases h
  case isFalse hy =>
    refine ⟨hy, ?_⟩
    have hn := checked_eq_some h
    have hsum := Int.tmod_add_mul_tdiv x.toInt y.toInt
    have hlow := x.le_toInt
    have hhigh := x.toInt_lt
    have hsize : (x.toInt.tmod y.toInt).natAbs ≤ x.toInt.natAbs := by
      rw [Int.natAbs_tmod]
      exact Nat.mod_le _ _
    have hpos : 0 ≤ x.toInt → 0 ≤ x.toInt.tmod y.toInt := Int.tmod_nonneg _
    have hneg : 0 ≤ -x.toInt → 0 ≤ (-x.toInt).tmod y.toInt := Int.tmod_nonneg _
    rw [Int.neg_tmod] at hneg
    rw [Int32.toInt_mul, hn]
    exact Int.bmod_eq_of_le (by omega) (by omega)

/-- A remainder is no larger than the dividend. -/
theorem toInt_ofInt_tmod (x y : Int32) :
    (Int32.ofInt (x.toInt.tmod y.toInt)).toInt = x.toInt.tmod y.toInt := by
  have hsize : (x.toInt.tmod y.toInt).natAbs ≤ x.toInt.natAbs := by
    rw [Int.natAbs_tmod]
    exact Nat.mod_le _ _
  have hpos : 0 ≤ x.toInt → 0 ≤ x.toInt.tmod y.toInt := Int.tmod_nonneg _
  have hneg : 0 ≤ -x.toInt → 0 ≤ (-x.toInt).tmod y.toInt := Int.tmod_nonneg _
  have hlow := x.le_toInt
  have hhigh := x.toInt_lt
  rw [Int.neg_tmod] at hneg
  exact Int32.toInt_ofInt_of_le (by omega) (by omega)

/-- A quotient that is kept is exact. -/
theorem div_eq_ofValue {x y n : Int32}
    (h : (checkedDiv x y).filter (fun div => y * div = x) = some n) :
    F64.div (.ofInt32 x) (.ofInt32 y) =
      .ofValue n.toInt (decide (x.toInt < 0) ^^ decide (y.toInt < 0)) := by
  obtain ⟨hchecked, hexact⟩ := Option.filter_eq_some_iff.mp h
  obtain ⟨hy, hmul⟩ := toInt_mul_checkedDiv hchecked
  rw [of_decide_eq_true hexact] at hmul
  exact div_ofInt32 hy hmul.symm

/-- The quotient of zero is kept. -/
theorem checkedDiv_zero {y : Int32} (hy : y ≠ 0) :
    (checkedDiv 0 y).filter (fun div => y * div = 0) = some 0 := by
  rw [checkedDiv, if_neg hy, toInt_zero, Int.zero_tdiv]
  simp [checked]

/-- What an operator is to return: the Number of the language. -/
def Exact (result : Except Panic (JsVariant P)) (double : F64) : Prop :=
  ∃ v, result = .ok v ∧ v.asNumber = some double

theorem exact_ok {v : JsVariant P} {double : F64} :
    Exact (.ok v) double ↔ v.asNumber = some double := by
  simp [Exact]

/-- Integer division is exact, but for the negative zero. -/
theorem exact_divIntegers_iff (x y : Int32) :
    Exact (divIntegers x y : Except Panic (JsVariant P)) (.div (.ofInt32 x) (.ofInt32 y)) ↔
      ¬ (x = 0 ∧ y < 0) := by
  rw [divIntegers, exact_ok]
  constructor
  · rintro h ⟨rfl, hneg⟩
    have hy : y ≠ 0 := by
      rintro rfl
      exact absurd hneg (by decide)
    have hkept := checkedDiv_zero hy
    rw [hkept, div_eq_ofValue hkept] at h
    have hneg' := Int32.lt_iff_toInt_lt.mp hneg
    rw [toInt_zero] at hneg'
    simp [integerOr, JsVariant.asNumber, toInt_zero, ofValue, hneg'] at h
    exact absurd h (by decide)
  · intro hcond
    refine asNumber_integerOr fun n hn => ?_
    rw [div_eq_ofValue hn]
    refine ofValue_intCast ?_
    rintro rfl
    obtain ⟨-, hexact⟩ := Option.filter_eq_some_iff.mp hn
    obtain rfl : x = 0 := by simpa using (of_decide_eq_true hexact).symm
    have hy : ¬ y.toInt < 0 := fun h => hcond ⟨rfl, Int32.lt_iff_toInt_lt.mpr h⟩
    simp [toInt_zero, hy]

/-- The integer remainder is exact wherever it does not overflow. -/
theorem exact_remIntegers_iff (x y : Int32) :
    Exact (remIntegers x y : Except Panic (JsVariant P)) (.rem (.ofInt32 x) (.ofInt32 y)) ↔
      ¬ (x = Int32.minValue ∧ y = -1) := by
  unfold remIntegers
  by_cases hy : y = 0
  · have hnan : F64.rem (.ofInt32 x) (.ofInt32 y) = .nan := by
      have hzero : (ofInt32 y).isZero = true := by rw [isZero_ofInt32, decide_eq_true hy]
      simp only [F64.rem, hzero, Bool.or_true, if_true]
    have hne : y ≠ -1 := by
      rintro rfl
      exact absurd hy (by decide)
    rw [if_pos hy, exact_ok, hnan]
    exact iff_of_true rfl fun h => hne h.2
  rw [if_neg hy]
  by_cases hoverflow : x = Int32.minValue ∧ y = -1
  · have herror : remainder x y = .error .overflow := if_pos hoverflow
    rw [herror]
    refine iff_of_false ?_ (not_not_intro hoverflow)
    rintro ⟨v, hv, -⟩
    cases hv
  have hok : remainder x y = .ok (Int32.ofInt (x.toInt.tmod y.toInt)) := if_neg hoverflow
  have hrem : (Int32.ofInt (x.toInt.tmod y.toInt)).toInt = x.toInt.tmod y.toInt :=
    toInt_ofInt_tmod x y
  rw [hok, rem_ofInt32 hy]
  generalize Int32.ofInt (x.toInt.tmod y.toInt) = rem at hrem
  rw [← hrem]
  refine iff_of_true ⟨_, rfl, ?_⟩ hoverflow
  split
  case isTrue hzero =>
    obtain ⟨rfl, hneg⟩ := hzero
    have hneg := Int32.lt_iff_toInt_lt.mp hneg
    rw [toInt_zero] at hneg
    simp [JsVariant.asNumber, ofValue, hneg]
  case isFalse hnot =>
    rw [ofValue_intCast]
    · rfl
    · rintro rfl
      have hpos : ¬ x.toInt < 0 := fun h => hnot ⟨rfl, Int32.lt_iff_toInt_lt.mpr h⟩
      simp [hpos]

/-- Negation is exact, but for the least integer. -/
theorem exact_neg_iff (others : JsVariant P → Except Panic (JsVariant P)) (x : Int32) :
    Exact (neg others (.integer32 x)) (.neg (.ofInt32 x)) ↔ x ≠ Int32.minValue := by
  unfold neg
  by_cases hzero : x = 0
  · subst hzero
    have hneg : (ofInt32 0).neg = zero true := by decide
    exact iff_of_true ⟨_, rfl, congrArg some hneg.symm⟩ (by decide)
  simp only [if_neg hzero]
  cases hchecked : checked (-x.toInt) with
  | some n =>
    have hn := checked_eq_some hchecked
    refine iff_of_true ⟨_, rfl, ?_⟩ ?_
    · rw [neg_ofInt32 hzero hn]
      rfl
    · rintro rfl
      have hmin : checked (-Int32.minValue.toInt) = none := by decide
      rw [hmin] at hchecked
      cases hchecked
  | none =>
    refine iff_of_false ?_ (not_not_intro ?_)
    · rintro ⟨v, hv, -⟩
      cases hv
    · have hlow := x.le_toInt
      have hhigh := x.toInt_lt
      have hmin : Int32.minValue.toInt = -2 ^ 31 := rfl
      unfold checked at hchecked
      split at hchecked
      case isTrue => cases hchecked
      case isFalse hrange =>
        rw [← Int32.toInt_inj, hmin]
        omega

/-! ### All operators -/

/-- When the integer path of an operator gives the exact result. -/
theorem exact_integers_iff (op : Operator) (x y : Int32) :
    Exact (op.integers x y : Except Panic (JsVariant P)) (op.exact (.ofInt32 x) (.ofInt32 y)) ↔
      ¬ op.Inexact x y := by
  cases op with
  | add =>
    refine iff_of_true (exact_ok.mpr (asNumber_integerOr fun n hn => ?_)) not_false
    exact add_eq_ofInt32 hn
  | sub =>
    refine iff_of_true (exact_ok.mpr (asNumber_integerOr fun n hn => ?_)) not_false
    exact sub_eq_ofInt32 hn
  | mul =>
    refine iff_of_true (exact_ok.mpr (asNumber_integerOr fun n hn => ?_)) not_false
    exact mul_eq_ofInt32 hn
  | div => exact exact_divIntegers_iff x y
  | rem => exact exact_remIntegers_iff x y

/-- The fast variant is the operator itself on Numbers. -/
theorem fast_eq (op : Operator)
    (others : JsVariant P → JsVariant P → Except Panic (JsVariant P)) {a b : JsVariant P}
    (ha : a.asNumber.isSome) (hb : b.asNumber.isSome) :
    op.applyFast a b = (op.apply others a b).map some := by
  cases a with
  | integer32 x =>
    cases b with
    | integer32 y => rfl
    | float64 y => rfl
    | other v => cases hb
  | float64 x =>
    cases b with
    | integer32 y => rfl
    | float64 y => rfl
    | other v => cases hb
  | other v => cases ha

theorem exact_fast_iff (op : Operator) (x y : Int32) (double : F64) :
    (∃ v : JsVariant P, op.applyFast (.integer32 x) (.integer32 y) = .ok (some v) ∧
      v.asNumber = some double) ↔
      Exact (op.integers x y : Except Panic (JsVariant P)) double := by
  have hfast : op.applyFast (.integer32 x) (.integer32 y : JsVariant P) =
      (op.integers x y).map some := rfl
  rw [hfast]
  cases op.integers (P := P) x y with
  | error e => simp [Exact, Except.map]
  | ok v => simp [Exact, Except.map]

/-- **Operators on integers are exact but for two slips**: the quotient of zero by a negative
integer loses its sign, and the remainder and the negation of the least integer overflow. On all
other integers the operators and their fast variants return the Number of the language, and on
all Numbers the fast variants return what the operators do. -/
theorem integerOperators_exact_iff
    (others : JsVariant P → JsVariant P → Except Panic (JsVariant P))
    (unary : JsVariant P → Except Panic (JsVariant P)) (op : Operator) (x y : Int32) :
    (Exact (op.apply others (.integer32 x) (.integer32 y))
        (op.exact (.ofInt32 x) (.ofInt32 y)) ↔ ¬ op.Inexact x y) ∧
    ((∃ v : JsVariant P, op.applyFast (.integer32 x) (.integer32 y) = .ok (some v) ∧
        v.asNumber = some (op.exact (.ofInt32 x) (.ofInt32 y))) ↔ ¬ op.Inexact x y) ∧
    (Exact (neg unary (.integer32 x)) (.neg (.ofInt32 x)) ↔ x ≠ Int32.minValue) ∧
    ∀ a b : JsVariant P, a.asNumber.isSome → b.asNumber.isSome →
      op.applyFast a b = (op.apply others a b).map some :=
  ⟨exact_integers_iff op x y, (exact_fast_iff op x y _).trans (exact_integers_iff op x y),
    exact_neg_iff unary x, fun _ _ ha hb => fast_eq op others ha hb⟩

/-- A quotient that keeps its sign, and a fast sum of an integer and a double. -/
theorem integerOperators_exact_of_six :
    (∃ v : JsVariant Empty,
      Operator.div.applyFast (.integer32 6) (.integer32 (-3)) = .ok (some v) ∧
        v.asNumber = some (.div (.ofInt32 6) (.ofInt32 (-3)))) ∧
    Operator.div.applyFast (.integer32 6 : JsVariant Empty) (.float64 .nan) =
      (Operator.div.apply (fun a _ => .ok a) (.integer32 6) (.float64 .nan)).map some := by
  obtain ⟨-, hexact, -, hfast⟩ :=
    integerOperators_exact_iff (P := Empty) (fun a _ => .ok a) .ok .div 6 (-3)
  exact ⟨hexact.mpr fun h => absurd h.1 (by decide), hfast _ _ rfl rfl⟩

/-- Zero by a negative integer is positive zero. -/
theorem div_zero_by_negative :
    ¬ Exact (Operator.div.apply (P := Empty) (fun a _ => .ok a) (.integer32 0) (.integer32 (-5)))
      (Operator.div.exact (.ofInt32 0) (.ofInt32 (-5))) := by
  rintro ⟨v, hv, hnumber⟩
  obtain rfl := Except.ok.inj hv
  exact absurd hnumber (by decide +kernel)

end Operations

end BoaLigero
