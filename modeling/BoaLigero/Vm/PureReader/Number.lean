import BoaLigero.Util.IntegerDouble
import BoaLigero.Object.InternalMethods

/-!
# Numbers in Loop Summaries

The Numbers that the summarised loops compute with: a machine integer, or a double once a
result leaves the machine range. Every double that a loop over machine integers computes is
integral, so a double is given by its integral value.
-/

namespace BoaLigero

/-- A Number as the machine holds it (`JsVariant::Integer32`, `JsVariant::Float64`). -/
inductive JsNumber where
  | integer32 (value : Int32)
  | float64 (value : ℤ)
  deriving DecidableEq, Repr

/-- A primitive value, of which the loops only tell numbers from others. -/
inductive VmPrimitive where
  | number (value : JsNumber)
  | other (tag : ℕ)
  deriving DecidableEq, Repr

/-- The values in the machine's registers and bindings. -/
abbrev VmValue := JsValue VmPrimitive

/-- Whether an integer is in the range of `i32`. -/
def InI32 (n : ℤ) : Prop := -2 ^ 31 ≤ n ∧ n < 2 ^ 31

instance (n : ℤ) : Decidable (InI32 n) := inferInstanceAs (Decidable (_ ∧ _))

namespace JsNumber

/-- The value of a Number. -/
def value : JsNumber → ℤ
  | integer32 n => n.toInt
  | float64 n => n

/-- Whether the Number is held as a machine integer. -/
def isInteger32 : JsNumber → Bool
  | integer32 _ => true
  | float64 _ => false

/-- `JsValue::add` on two Numbers. -/
def add : JsNumber → JsNumber → JsNumber
  | integer32 x, integer32 y =>
      if InI32 (x.toInt + y.toInt) then integer32 (x + y)
      else float64 (roundToDouble (x.toInt + y.toInt))
  | x, y => float64 (roundToDouble (x.value + y.value))

/-- `Inc` on a Number. -/
def inc : JsNumber → JsNumber
  | integer32 n => if n < Int32.maxValue then integer32 (n + 1) else float64 (n.toInt + 1)
  | float64 n => float64 (roundToDouble (n + 1))

/-- The bitwise or of a Number and zero. -/
def bitOrZero : JsNumber → JsNumber
  | integer32 n => integer32 n
  | float64 n => integer32 (Int32.ofInt n)

/-- The comparison of `JumpIfNotLessThan` on two Numbers. -/
def lessThan (x y : JsNumber) : Bool := x.value < y.value

/-! ### Machine integers -/

/-- The machine integer of a value in range. -/
def ofInt (n : ℤ) : JsNumber := integer32 (Int32.ofInt n)

@[simp] theorem isInteger32_ofInt (n : ℤ) : (ofInt n).isInteger32 = true := rfl

theorem ofInt_toInt (n : Int32) : ofInt n.toInt = integer32 n := by simp [ofInt]

theorem value_ofInt {n : ℤ} (h : InI32 n) : (ofInt n).value = n :=
  Int32.toInt_ofInt_of_le h.1 h.2

/-- Two values in range are added exactly if the sum is in range. -/
theorem add_ofInt {m n : ℤ} (hm : InI32 m) (hn : InI32 n) (h : InI32 (m + n)) :
    (ofInt m).add (ofInt n) = ofInt (m + n) := by
  have hsum := congrArg₂ (· + ·) (value_ofInt hm) (value_ofInt hn)
  simp only [value, ofInt] at hsum
  simp only [ofInt, add, hsum, if_pos h, Int32.ofInt_add]

/-- The sum of two values in range, reduced to a machine integer. -/
theorem bitOrZero_add_ofInt {m n : ℤ} (hm : InI32 m) (hn : InI32 n) :
    ((ofInt m).add (ofInt n)).bitOrZero = ofInt (m + n) := by
  by_cases h : InI32 (m + n)
  · rw [add_ofInt hm hn h]
    rfl
  · have hsum := congrArg₂ (· + ·) (value_ofInt hm) (value_ofInt hn)
    simp only [value, ofInt] at hsum
    have hsmall : (m + n).natAbs < 2 ^ 53 := by
      simp only [InI32] at hm hn
      omega
    simp only [ofInt, add, hsum, if_neg h, bitOrZero, roundToDouble_of_natAbs_lt hsmall]

/-- The sum of a machine integer and a value in range, reduced to a machine integer. -/
theorem bitOrZero_integer32_add {m : Int32} {n : ℤ} (hn : InI32 n) :
    ((integer32 m).add (ofInt n)).bitOrZero = integer32 (m + Int32.ofInt n) := by
  rw [← ofInt_toInt, bitOrZero_add_ofInt ⟨m.le_toInt, m.toInt_lt⟩ hn]
  simp [ofInt]

/-- Counting up within the range. -/
theorem inc_ofInt {n : ℤ} (h : InI32 (n + 1)) (hn : InI32 n) :
    (ofInt n).inc = ofInt (n + 1) := by
  have hlt : Int32.ofInt n < Int32.maxValue := by
    rw [Int32.lt_iff_toInt_lt, Int32.toInt_ofInt_of_le hn.1 hn.2]
    simp only [InI32] at h
    have : Int32.maxValue.toInt = 2 ^ 31 - 1 := by decide
    omega
  simp [ofInt, inc, hlt]

end JsNumber

/-- A machine integer in a register (`as_i32`). -/
def asI32 : VmValue → Option Int32
  | .primitive (.number (.integer32 n)) => some n
  | _ => none

/-- The value of a machine integer. -/
def ofI32 (n : Int32) : VmValue := .primitive (.number (.integer32 n))

/-- Only a machine integer reads back as one. -/
theorem asI32_eq_some {v : VmValue} {n : Int32} : asI32 v = some n ↔ v = ofI32 n := by
  unfold asI32 ofI32
  split <;> simp_all

end BoaLigero
