import BoaLigero.Util.DoubleArithmetic
import Mathlib.Algebra.Order.Ring.Nat

/-!
# NaN-Boxed Values

A value is held in a word of 64 bits (`value/inner/nan_boxed.rs`). A float is held as its bits, and
what is not a number as one fixed word; in the words of other values the bits of the exponent are
set, and four bits below them are the tag. A pointer takes the low 48 bits, and a pointer that needs
more is no result, as the program panics.

## Main results

* `represents_box` — what is read from the word of a value is the value, by every reader.
* `box_eq_box_iff` — two values are held in the same word only if they are the same, but for the
  bits of what is not a number.
* `box_eq_none_iff` — the values that cannot be held.
-/

namespace BoaLigero

/-- What the pointers in values lead to. -/
inductive PointerKind
  | object
  | string
  | symbol
  | bigInt
deriving DecidableEq

/-- A value (`JsVariant`), with a pointer by its address. -/
inductive NanVariant
  | undefined
  | null
  | boolean (b : Bool)
  | integer32 (n : Int32)
  | float64 (x : F64)
  | pointer (kind : PointerKind) (addr : BitVec 64)
deriving DecidableEq

/-- The type of a value. -/
inductive NanType
  | undefined
  | null
  | boolean
  | number
  | pointer (kind : PointerKind)
deriving DecidableEq

namespace NanBoxed

/-! ### Masks -/

/-- The bits that are set if a word is not a number. -/
def maskNan : BitVec 64 := 0x7FF0000000000000#64

/-- The bits that are the kind of a value. -/
def maskKind : BitVec 64 := maskNan ||| 0xF000000000000#64

/-- `TAG_INF`: what the tag bits of an infinity are. -/
def tagInf : BitVec 64 := 0x0000000000000#64

/-- `TAG_NAN`: the tag bits of the canonical value that is not a number. -/
def tagNan : BitVec 64 := 0x8000000000000#64

/-- `TAG_INT32`: the tag bits of an integer of 32 bits. -/
def tagInt32 : BitVec 64 := 0x9000000000000#64

/-- `TAG_BOOLEAN`: the tag bits of a boolean. -/
def tagBoolean : BitVec 64 := 0xA000000000000#64

/-- `TAG_OTHER`: the tag bits of `null` and `undefined`. -/
def tagOther : BitVec 64 := 0xB000000000000#64

/-- The tag of a pointer. -/
def tagPointer : PointerKind → BitVec 64
  | .object => 0xC000000000000#64
  | .string => 0xD000000000000#64
  | .symbol => 0xE000000000000#64
  | .bigInt => 0xF000000000000#64

/-- `MASK_INT32`: the word of the integer zero. -/
def maskInt32 : BitVec 64 := maskNan ||| tagInt32

/-- `MASK_BOOLEAN`: the word of the boolean `false`. -/
def maskBoolean : BitVec 64 := maskNan ||| tagBoolean

/-- `MASK_OTHER`: the word of `null`. -/
def maskOther : BitVec 64 := maskNan ||| tagOther

/-- The mask of a pointer (`MASK_OBJECT` and the others). -/
def maskPointer (kind : PointerKind) : BitVec 64 := maskNan ||| tagPointer kind

/-- `MASK_INT32_VALUE`: the bits that hold an integer. -/
def maskInt32Value : BitVec 64 := 0xFFFFFFFF#64

/-- `MASK_POINTER_VALUE`: the bits that hold an address. -/
def maskPointerValue : BitVec 64 := 0xFFFFFFFFFFFF#64

/-- `MASK_BOOLEAN_VALUE`: the bit that holds a boolean. -/
def maskBooleanValue : BitVec 64 := 1#64

/-- `VALUE_NULL`. -/
def valueNull : BitVec 64 := maskOther

/-- `VALUE_UNDEFINED`. -/
def valueUndefined : BitVec 64 := maskOther ||| 1#64

/-- `VALUE_FALSE`. -/
def valueFalse : BitVec 64 := maskBoolean

/-- `VALUE_TRUE`. -/
def valueTrue : BitVec 64 := maskBoolean ||| 1#64

/-- `VALUE_NEGATIVE_ZERO`: the bits of the double `-0`. -/
def valueNegativeZero : BitVec 64 := 0x8000000000000000#64

/-- The word for what is not a number (`f64::NAN`). -/
def canonicalNan : BitVec 64 := 0x7FF8000000000000#64

/-! ### Writing -/

/-- `tag_f64`: a double is its own word, but for what is not a number, of which one is kept. -/
def tagF64 (x : F64) : BitVec 64 := if x.isNaN then canonicalNan else x.bits

/-- `tag_i32`: an integer is in the lower half of its word. -/
def tagI32 (n : Int32) : BitVec 64 := n.toBitVec.signExtend 64 &&& maskInt32Value ||| maskInt32

/-- `tag_bool`: a boolean is in the last bit of its word. -/
def tagBool (b : Bool) : BitVec 64 := (BitVec.ofBool b).setWidth 64 ||| maskBoolean

/-- A pointer of more than 48 bits cannot be tagged. -/
def tagPointerAt (addr typeMask : BitVec 64) : Option (BitVec 64) :=
  let masked := addr &&& maskPointerValue
  if masked ≠ addr then none else some (masked ||| typeMask)

/-- The word of a value. -/
def box : NanVariant → Option (BitVec 64)
  | .undefined => some valueUndefined
  | .null => some valueNull
  | .boolean b => some (tagBool b)
  | .integer32 n => some (tagI32 n)
  | .float64 x => some (tagF64 x)
  | .pointer kind addr => tagPointerAt addr (maskPointer kind)

/-! ### Reading -/

/-- `untag_i32`: the integer in the lower half of a word. -/
def untagI32 (value : BitVec 64) : Int32 := .ofBitVec (value.setWidth 32)

/-- `untag_bool`: the boolean in the last bit of a word. -/
def untagBool (value : BitVec 64) : Bool := value &&& maskBooleanValue != 0#64

/-- `untag_pointer`: the address in a word, without the tag bits. -/
def untagPointer (value : BitVec 64) : BitVec 64 := value &&& maskPointerValue

/-- `is_undefined`: a word is that of `undefined`. -/
def isUndefined (value : BitVec 64) : Bool := value == valueUndefined

/-- `is_null`: a word is that of `null`. -/
def isNull (value : BitVec 64) : Bool := value == valueNull

/-- `is_null_or_undefined`: the tag bits of both are the same. -/
def isNullOrUndefined (value : BitVec 64) : Bool := value &&& maskKind == maskOther

/-- `is_bool`: a word has the tag bits of a boolean. -/
def isBool (value : BitVec 64) : Bool := value &&& maskKind == maskBoolean

/-- `is_float64`: a word is a double, if not all bits of the exponent are set or the tag is that of
an infinity or of what is not a number. -/
def isFloat64 (value : BitVec 64) : Bool :=
  value &&& maskNan != maskNan || value &&& maskKind == maskNan ||| tagInf ||
    value &&& maskKind == maskNan ||| tagNan

/-- `is_negative_zero`: a word is that of the double `-0`. -/
def isNegativeZero (value : BitVec 64) : Bool := value == valueNegativeZero

/-- `is_integer32`: a word has the tag bits of an integer. -/
def isInteger32 (value : BitVec 64) : Bool := value &&& maskKind == maskInt32

/-- Whether a value is a pointer of a kind (`is_object` and the others). -/
def isPointer (kind : PointerKind) (value : BitVec 64) : Bool :=
  value &&& maskKind == maskPointer kind

/-- `as_float64`: the double in a word, if it is one. -/
def asFloat64 (value : BitVec 64) : Option F64 := if isFloat64 value then some ⟨value⟩ else none

/-- `as_integer32`: the integer in a word, if it is one. -/
def asInteger32 (value : BitVec 64) : Option Int32 :=
  if isInteger32 value then some (untagI32 value) else none

/-- `as_bool`: the boolean in a word, if it is one. -/
def asBool (value : BitVec 64) : Option Bool :=
  if value = valueFalse then some false else if value = valueTrue then some true else none

/-- The pointer of a kind, if a value is one (`as_object` and the others). -/
def asPointer (kind : PointerKind) (value : BitVec 64) : Option (BitVec 64) :=
  if isPointer kind value then some (untagPointer value) else none

/-- The kind of the pointer in a word, if it holds one. -/
def pointerKind (value : BitVec 64) : Option PointerKind :=
  let kind := value &&& maskKind
  if kind = maskPointer .object then some .object
  else if kind = maskPointer .string then some .string
  else if kind = maskPointer .symbol then some .symbol
  else if kind = maskPointer .bigInt then some .bigInt
  else none

/-- The value in a word. -/
def asVariant (value : BitVec 64) : NanVariant :=
  match pointerKind value with
  | some kind => .pointer kind (untagPointer value)
  | none =>
      let kind := value &&& maskKind
      if kind = maskInt32 then .integer32 (untagI32 value)
      else if kind = maskBoolean then .boolean (untagBool value)
      else if kind = maskOther then if value = valueNull then .null else .undefined
      else .float64 ⟨value⟩

/-- The type of the value in a word. -/
def getType (value : BitVec 64) : NanType :=
  match pointerKind value with
  | some kind => .pointer kind
  | none =>
      let kind := value &&& maskKind
      if kind = maskBoolean then .boolean
      else if kind = maskOther then if value = valueNull then .null else .undefined
      else .number

/-- What `toBoolean` asks of what a pointer leads to. -/
structure Pointee where
  isHtmlDda : BitVec 64 → Bool
  isEmpty : BitVec 64 → Bool
  isZero : BitVec 64 → Bool

/-- Whether the value a pointer leads to is true. -/
def Pointee.truthy (heap : Pointee) : PointerKind → BitVec 64 → Bool
  | .object, addr => !heap.isHtmlDda addr
  | .string, addr => !heap.isEmpty addr
  | .symbol, _ => true
  | .bigInt, addr => !heap.isZero addr

/-- Whether the value in a word is true. -/
def toBoolean (heap : Pointee) (value : BitVec 64) : Bool :=
  match pointerKind value with
  | some kind => heap.truthy kind (untagPointer value)
  | none =>
      let kind := value &&& maskKind
      if kind = maskOther then false
      else if kind = maskInt32 then untagI32 value != 0
      else if kind = maskBoolean then untagBool value
      else !F64.isZero ⟨value⟩ && !F64.isNaN ⟨value⟩

end NanBoxed

/-! ### What the readers should give -/

namespace NanVariant

/-- The value with one word for what is not a number. -/
def canonical : NanVariant → NanVariant
  | .float64 x => .float64 (if x.isNaN then F64.nan else x)
  | v => v

/-- The type of a value, which is the same for integers and doubles. -/
def type : NanVariant → NanType
  | .undefined => .undefined
  | .null => .null
  | .boolean _ => .boolean
  | .integer32 _ | .float64 _ => .number
  | .pointer kind _ => .pointer kind

/-- The boolean of a value, if it is one. -/
def boolean? : NanVariant → Option Bool
  | .boolean b => some b
  | _ => none

/-- The integer of a value, if it is stored as one. -/
def integer32? : NanVariant → Option Int32
  | .integer32 n => some n
  | _ => none

/-- The double of a value, if it is stored as one. -/
def float64? : NanVariant → Option F64
  | .float64 x => some x
  | _ => none

/-- The pointer, if it is of a kind. -/
def pointer? (kind : PointerKind) : NanVariant → Option (BitVec 64)
  | .pointer kind' addr => if kind' = kind then some addr else none
  | _ => none

/-- Whether the value is true, in the words of the language. -/
def truthy (heap : NanBoxed.Pointee) : NanVariant → Bool
  | .undefined | .null => false
  | .boolean b => b
  | .integer32 n => n != 0
  | .float64 x => !x.isZero && !x.isNaN
  | .pointer kind addr => heap.truthy kind addr

end NanVariant

namespace NanBoxed

/-- Every reader finds the value in the word. -/
structure Represents (v : NanVariant) (w : BitVec 64) : Prop where
  variant : asVariant w = v
  type : getType w = v.type
  undefined : isUndefined w = decide (v = .undefined)
  null : isNull w = decide (v = .null)
  nullOrUndefined : isNullOrUndefined w = decide (v = .null ∨ v = .undefined)
  isBoolean : isBool w = v.boolean?.isSome
  boolean : asBool w = v.boolean?
  isInteger : isInteger32 w = v.integer32?.isSome
  integer : asInteger32 w = v.integer32?
  isFloat : isFloat64 w = v.float64?.isSome
  float : asFloat64 w = v.float64?
  negativeZero : isNegativeZero w = decide (v = .float64 (F64.zero true))
  isPointer : ∀ kind, isPointer kind w = (v.pointer? kind).isSome
  pointer : ∀ kind, asPointer kind w = v.pointer? kind
  truthy : ∀ heap, toBoolean heap w = v.truthy heap

/-! ### Tagged words -/

/-- The kind of a word is its tag, if the rest is in the low 48 bits. -/
theorem or_and_maskKind {payload tag : BitVec 64}
    (hpayload : payload &&& maskPointerValue = payload)
    (htag : tag &&& maskKind = tag) : (payload ||| tag) &&& maskKind = tag := by
  have hdisjoint : maskPointerValue &&& maskKind = 0#64 := by decide
  rw [BitVec.and_or_distrib_right, htag, ← hpayload, BitVec.and_assoc, hdisjoint,
    BitVec.and_zero, BitVec.zero_or]

/-- The pointer is what was tagged. -/
theorem untagPointer_or {payload tag : BitVec 64}
    (hpayload : payload &&& maskPointerValue = payload)
    (htag : tag &&& maskPointerValue = 0#64) : untagPointer (payload ||| tag) = payload := by
  rw [untagPointer, BitVec.and_or_distrib_right, hpayload, htag, BitVec.or_zero]

/-- The mask of a kind of pointers has no bits besides those of the tag. -/
theorem maskPointer_and_maskKind (kind : PointerKind) :
    maskPointer kind &&& maskKind = maskPointer kind := by
  cases kind <;> decide

/-- The mask of a kind of pointers and the bits of an address do not overlap. -/
theorem maskPointer_and_maskPointerValue (kind : PointerKind) :
    maskPointer kind &&& maskPointerValue = 0#64 := by
  cases kind <;> decide

/-- An address is tagged if it fits into its bits, and is then put beside the tag. -/
theorem tagPointerAt_eq_some {addr typeMask w : BitVec 64} :
    tagPointerAt addr typeMask = some w ↔
      addr &&& maskPointerValue = addr ∧ w = addr ||| typeMask := by
  simp only [tagPointerAt]
  split
  · next h => simp [h]
  · next h =>
      rw [not_not] at h
      simp [h, eq_comm]

/-- The integer in a word is the one that was tagged. -/
theorem untagI32_tagI32 (n : Int32) : untagI32 (tagI32 n) = n := by
  have hvalue : maskInt32Value.setWidth 32 = BitVec.allOnes 32 := by decide
  have htag : maskInt32.setWidth 32 = 0#32 := by decide
  have hextend : (n.toBitVec.signExtend 64).setWidth 32 = n.toBitVec := by
    ext i hi
    rw [BitVec.getElem_setWidth, BitVec.getLsbD_signExtend]
    simp [hi, BitVec.getLsbD_eq_getElem, show i < 64 by omega]
  rw [untagI32, tagI32, BitVec.setWidth_or, BitVec.setWidth_and, hvalue, htag, hextend,
    BitVec.and_allOnes, BitVec.or_zero, Int32.ofBitVec_toBitVec]

/-- The word of an integer has the tag bits of integers. -/
theorem tagI32_and_maskKind (n : Int32) : tagI32 n &&& maskKind = maskInt32 := by
  have hvalue : maskInt32Value &&& maskPointerValue = maskInt32Value := by decide
  refine or_and_maskKind ?_ (by decide)
  rw [BitVec.and_assoc, hvalue]

/-! ### Floats -/

/-- The exponent is all ones if the bits of the mask are set. -/
theorem exponent_of_maskNan {w : BitVec 64} (h : w &&& maskNan = maskNan) :
    F64.exponent ⟨w⟩ = 2047 := by
  have hmask : maskNan.extractLsb' 52 11 = BitVec.allOnes 11 := by decide
  have hbits : w.extractLsb' 52 11 = BitVec.allOnes 11 := by
    rw [← hmask, ← h, BitVec.extractLsb'_and, hmask, BitVec.and_allOnes]
  have hnat := congrArg BitVec.toNat hbits
  rw [BitVec.extractLsb'_toNat, Nat.shiftRight_eq_div_pow] at hnat
  exact hnat

/-- A number with the bits of the mask set is an infinity. -/
theorem infinity_of_maskNan {w : BitVec 64} (hnan : F64.isNaN ⟨w⟩ = false)
    (h : w &&& maskNan = maskNan) : w &&& maskKind = maskNan := by
  have hexponent := exponent_of_maskNan h
  have hfraction : F64.fraction ⟨w⟩ = 0 := by
    simpa [F64.isNaN, hexponent] using hnan
  have hsign : w = 0x7FF0000000000000#64 ∨ w = 0xFFF0000000000000#64 := by
    simp only [F64.exponent, F64.fraction] at hexponent hfraction
    have hlt := w.isLt
    simp only [← BitVec.toNat_inj]
    have h₁ : (0x7FF0000000000000#64).toNat = 2047 * 2 ^ 52 := by decide
    have h₂ : (0xFFF0000000000000#64).toNat = 2 ^ 63 + 2047 * 2 ^ 52 := by decide
    omega
  rcases hsign with rfl | rfl <;> decide

/-- The word of a float is read as a float. -/
theorem isFloat64_tagF64 (x : F64) : isFloat64 (tagF64 x) = true := by
  by_cases hnan : x.isNaN
  · rw [tagF64, if_pos hnan]
    decide
  · rw [tagF64, if_neg hnan]
    rw [Bool.not_eq_true] at hnan
    by_cases hmask : x.bits &&& maskNan = maskNan
    · have hkind := infinity_of_maskNan hnan hmask
      simp [isFloat64, hkind, tagInf]
    · simp [isFloat64, hmask]

/-- The bits of the exponent are among those that tell the kind of a word. -/
theorem and_maskKind_and_maskNan (w : BitVec 64) :
    w &&& maskKind &&& maskNan = w &&& maskNan := by
  have hmask : maskKind &&& maskNan = maskNan := by decide
  rw [BitVec.and_assoc, hmask]

/-- The kind of a float is not one of the tags of other values. -/
theorem and_maskKind_ne_of_isFloat64 {w mask : BitVec 64} (h : isFloat64 w = true)
    (hmask : mask &&& maskNan = maskNan) (hinf : mask ≠ maskNan ||| tagInf)
    (hnan : mask ≠ maskNan ||| tagNan) : w &&& maskKind ≠ mask := by
  intro hkind
  have hbits : w &&& maskNan = maskNan := by
    rw [← and_maskKind_and_maskNan, hkind, hmask]
  simp [isFloat64, hbits, hkind, hinf, hnan] at h

/-- A word with the tag bits of something else is no double. -/
theorem isFloat64_eq_false {w mask : BitVec 64} (hkind : w &&& maskKind = mask)
    (hmask : mask &&& maskNan = maskNan) (hinf : mask ≠ maskNan ||| tagInf)
    (hnan : mask ≠ maskNan ||| tagNan) : isFloat64 w = false := by
  rw [Bool.eq_false_iff]
  intro h
  exact and_maskKind_ne_of_isFloat64 h hmask hinf hnan hkind

/-! ### The values -/

/-- The word of `undefined` is read as `undefined` by every reader, and as nothing else. -/
theorem represents_undefined : Represents .undefined valueUndefined := by
  constructor
  case isPointer | pointer => intro kind; cases kind <;> decide
  case truthy => intro heap; rfl
  all_goals decide

/-- The word of `null` is read as `null` by every reader, and as nothing else. -/
theorem represents_null : Represents .null valueNull := by
  constructor
  case isPointer | pointer => intro kind; cases kind <;> decide
  case truthy => intro heap; rfl
  all_goals decide

/-- The word of a boolean is read as that boolean by every reader, and as nothing else. -/
theorem represents_boolean (b : Bool) : Represents (.boolean b) (tagBool b) := by
  constructor
  case isPointer | pointer => intro kind; cases b <;> cases kind <;> decide
  case truthy => intro heap; cases b <;> rfl
  all_goals cases b <;> decide

/-- A word with other tag bits is not `undefined`. -/
theorem isUndefined_eq_false {w : BitVec 64} (h : w &&& maskKind ≠ maskOther) :
    isUndefined w = false := by
  rw [isUndefined, beq_eq_false_iff_ne]
  rintro rfl
  exact h (by decide)

/-- A word with other tag bits is not `null`. -/
theorem isNull_eq_false {w : BitVec 64} (h : w &&& maskKind ≠ maskOther) : isNull w = false := by
  rw [isNull, beq_eq_false_iff_ne]
  rintro rfl
  exact h (by decide)

/-- A word with other tag bits is no boolean. -/
theorem asBool_eq_none {w : BitVec 64} (h : w &&& maskKind ≠ maskBoolean) : asBool w = none := by
  have hfalse : w ≠ valueFalse := by rintro rfl; exact h (by decide)
  have htrue : w ≠ valueTrue := by rintro rfl; exact h (by decide)
  simp [asBool, hfalse, htrue]

/-- A word with tag bits is not the double `-0`, which has none of them. -/
theorem isNegativeZero_eq_false {w : BitVec 64} (h : w &&& maskKind ≠ 0#64) :
    isNegativeZero w = false := by
  rw [isNegativeZero, beq_eq_false_iff_ne]
  rintro rfl
  exact h (by decide)

/-- A word whose tag bits belong to no kind of pointers is no pointer. -/
theorem pointerKind_eq_none {w : BitVec 64} (h : ∀ kind, w &&& maskKind ≠ maskPointer kind) :
    pointerKind w = none := by
  simp [pointerKind, h]

/-- A word with the tag bits of a kind of pointers is a pointer of this kind. -/
theorem pointerKind_of_maskPointer {w : BitVec 64} {kind : PointerKind}
    (h : w &&& maskKind = maskPointer kind) : pointerKind w = some kind := by
  simp only [pointerKind, h]
  cases kind <;> decide

/-- The word of an integer is read as that integer by every reader, and as nothing else. -/
theorem represents_integer32 (n : Int32) : Represents (.integer32 n) (tagI32 n) := by
  have hkind := tagI32_and_maskKind n
  have hinteger := untagI32_tagI32 n
  have hpointer (kind : PointerKind) : maskInt32 ≠ maskPointer kind := by cases kind <;> decide
  have hnone : pointerKind (tagI32 n) = none :=
    pointerKind_eq_none (by simpa [hkind] using hpointer)
  have hother : maskInt32 ≠ maskOther := by decide
  have hboolean : maskInt32 ≠ maskBoolean := by decide
  have hzero : maskInt32 ≠ 0#64 := by decide
  have hfloat : isFloat64 (tagI32 n) = false :=
    isFloat64_eq_false hkind (by decide) (by decide) (by decide)
  constructor
  case variant => simp [asVariant, hnone, hkind, hinteger]
  case type => simp [getType, hnone, hkind, hother, hboolean, NanVariant.type]
  case undefined => simp [isUndefined_eq_false, hkind, hother]
  case null => simp [isNull_eq_false, hkind, hother]
  case nullOrUndefined => simp [isNullOrUndefined, hkind, hother]
  case isBoolean => simp [isBool, hkind, hboolean, NanVariant.boolean?]
  case boolean => simp [asBool_eq_none, hkind, hboolean, NanVariant.boolean?]
  case isInteger => simp [isInteger32, hkind, NanVariant.integer32?]
  case integer => simp [asInteger32, isInteger32, hkind, hinteger, NanVariant.integer32?]
  case isFloat => simp [hfloat, NanVariant.float64?]
  case float => simp [asFloat64, hfloat, NanVariant.float64?]
  case negativeZero => simp [isNegativeZero_eq_false, hkind, hzero]
  case isPointer => simp [isPointer, hkind, hpointer, NanVariant.pointer?]
  case pointer => simp [asPointer, isPointer, hkind, hpointer, NanVariant.pointer?]
  case truthy => simp [toBoolean, hnone, hkind, hother, hinteger, NanVariant.truthy]

/-- The float of a word is what its bits are. -/
theorem represents_float64 {w : BitVec 64} (h : isFloat64 w = true) :
    Represents (.float64 ⟨w⟩) w := by
  have hpointer (kind : PointerKind) : w &&& maskKind ≠ maskPointer kind := by
    cases kind <;> exact and_maskKind_ne_of_isFloat64 h (by decide) (by decide) (by decide)
  have hnone : pointerKind w = none := pointerKind_eq_none hpointer
  have hinteger : w &&& maskKind ≠ maskInt32 :=
    and_maskKind_ne_of_isFloat64 h (by decide) (by decide) (by decide)
  have hboolean : w &&& maskKind ≠ maskBoolean :=
    and_maskKind_ne_of_isFloat64 h (by decide) (by decide) (by decide)
  have hother : w &&& maskKind ≠ maskOther :=
    and_maskKind_ne_of_isFloat64 h (by decide) (by decide) (by decide)
  have hzero : F64.zero true = ⟨valueNegativeZero⟩ := by decide
  constructor
  case variant => simp [asVariant, hnone, hinteger, hboolean, hother]
  case type => simp [getType, hnone, hother, hboolean, NanVariant.type]
  case undefined => simp [isUndefined_eq_false hother]
  case null => simp [isNull_eq_false hother]
  case nullOrUndefined => simp [isNullOrUndefined, hother]
  case isBoolean => simp [isBool, hboolean, NanVariant.boolean?]
  case boolean => simp [asBool_eq_none hboolean, NanVariant.boolean?]
  case isInteger => simp [isInteger32, hinteger, NanVariant.integer32?]
  case integer => simp [asInteger32, isInteger32, hinteger, NanVariant.integer32?]
  case isFloat => simp [h, NanVariant.float64?]
  case float => simp [asFloat64, h, NanVariant.float64?]
  case negativeZero => simp [isNegativeZero, hzero, Bool.beq_eq_decide_eq]
  case isPointer => simp [isPointer, hpointer, NanVariant.pointer?]
  case pointer => simp [asPointer, isPointer, hpointer, NanVariant.pointer?]
  case truthy => simp [toBoolean, hnone, hinteger, hboolean, hother, NanVariant.truthy]

/-- The word of a pointer is read as that pointer by every reader, and as nothing else. -/
theorem represents_pointer {kind : PointerKind} {addr : BitVec 64}
    (haddr : addr &&& maskPointerValue = addr) :
    Represents (.pointer kind addr) (addr ||| maskPointer kind) := by
  set w := addr ||| maskPointer kind
  have hkind : w &&& maskKind = maskPointer kind :=
    or_and_maskKind haddr (maskPointer_and_maskKind kind)
  have huntag : untagPointer w = addr :=
    untagPointer_or haddr (maskPointer_and_maskPointerValue kind)
  have hsome : pointerKind w = some kind := pointerKind_of_maskPointer hkind
  have hinteger : maskPointer kind ≠ maskInt32 := by cases kind <;> decide
  have hboolean : maskPointer kind ≠ maskBoolean := by cases kind <;> decide
  have hother : maskPointer kind ≠ maskOther := by cases kind <;> decide
  have hzero : maskPointer kind ≠ 0#64 := by cases kind <;> decide
  have hinj (kind' : PointerKind) : maskPointer kind = maskPointer kind' ↔ kind = kind' := by
    cases kind <;> cases kind' <;> decide
  have hfloat : isFloat64 w = false := by
    refine isFloat64_eq_false hkind ?_ ?_ ?_ <;> cases kind <;> decide
  constructor
  case variant => simp [asVariant, hsome, huntag]
  case type => simp [getType, hsome, NanVariant.type]
  case undefined => simp [isUndefined_eq_false, hkind, hother]
  case null => simp [isNull_eq_false, hkind, hother]
  case nullOrUndefined => simp [isNullOrUndefined, hkind, hother]
  case isBoolean => simp [isBool, hkind, hboolean, NanVariant.boolean?]
  case boolean => simp [asBool_eq_none, hkind, hboolean, NanVariant.boolean?]
  case isInteger => simp [isInteger32, hkind, hinteger, NanVariant.integer32?]
  case integer => simp [asInteger32, isInteger32, hkind, hinteger, NanVariant.integer32?]
  case isFloat => simp [hfloat, NanVariant.float64?]
  case float => simp [asFloat64, hfloat, NanVariant.float64?]
  case negativeZero => simp [isNegativeZero_eq_false, hkind, hzero]
  case isPointer =>
    intro kind'
    by_cases h : kind = kind' <;> simp [isPointer, hkind, hinj, NanVariant.pointer?, h]
  case pointer =>
    intro kind'
    by_cases h : kind = kind' <;>
      simp [asPointer, isPointer, hkind, hinj, huntag, NanVariant.pointer?, h]
  case truthy => simp [toBoolean, hsome, huntag, NanVariant.truthy]

/-! ### Main results -/

/-- The address is left by the mask if it has 48 bits. -/
theorem and_maskPointerValue_eq_iff (addr : BitVec 64) :
    addr &&& maskPointerValue = addr ↔ addr.toNat < 2 ^ 48 := by
  have hmask : maskPointerValue.toNat = 2 ^ 48 - 1 := by decide
  rw [← BitVec.toNat_inj, BitVec.toNat_and, hmask, Nat.and_two_pow_sub_one_eq_mod]
  exact Nat.mod_eq_iff_lt (by decide)

/-- **What is read from the word of a value is the value**: each reader finds in it what was put
there, and none finds another type. What is not a number is found as one such number. -/
theorem represents_box {v : NanVariant} {w : BitVec 64} (h : box v = some w) :
    Represents v.canonical w := by
  cases v with
  | undefined =>
      obtain rfl := Option.some.inj h
      exact represents_undefined
  | null =>
      obtain rfl := Option.some.inj h
      exact represents_null
  | boolean b =>
      obtain rfl := Option.some.inj h
      exact represents_boolean b
  | integer32 n =>
      obtain rfl := Option.some.inj h
      exact represents_integer32 n
  | float64 x =>
      obtain rfl := Option.some.inj h
      have hvalue : (if x.isNaN then F64.nan else x) = ⟨tagF64 x⟩ := by
        have hnan : F64.nan = ⟨canonicalNan⟩ := by decide
        rw [tagF64, hnan]
        split <;> rfl
      rw [NanVariant.canonical, hvalue]
      exact represents_float64 (isFloat64_tagF64 x)
  | pointer kind addr =>
      obtain ⟨haddr, rfl⟩ := tagPointerAt_eq_some.1 h
      exact represents_pointer haddr

/-- A float with the bits of a pointer to an object is not taken for one. -/
theorem represents_box_nan : Represents (.float64 F64.nan) canonicalNan :=
  represents_box (v := .float64 ⟨maskPointer .object ||| 0x1000#64⟩) rfl

/-- **The values that cannot be held** are the pointers of more than 48 bits. -/
theorem box_eq_none_iff (v : NanVariant) :
    box v = none ↔ ∃ kind addr, v = .pointer kind addr ∧ 2 ^ 48 ≤ addr.toNat := by
  cases v with
  | pointer kind addr =>
      rw [box, Option.eq_none_iff_forall_ne_some]
      constructor
      · intro h
        refine ⟨kind, addr, rfl, ?_⟩
        by_contra hlt
        rw [not_le, ← and_maskPointerValue_eq_iff] at hlt
        exact h _ (tagPointerAt_eq_some.2 ⟨hlt, rfl⟩)
      · rintro ⟨kind', addr', heq, hle⟩ w hw
        obtain ⟨rfl, rfl⟩ := NanVariant.pointer.inj heq
        have hlt := (and_maskPointerValue_eq_iff addr).1 (tagPointerAt_eq_some.1 hw).1
        omega
  | _ => simp [box]

/-- Boxing loses no more than which value it is that is not a number. -/
theorem box_canonical (v : NanVariant) : box v.canonical = box v := by
  cases v with
  | float64 x =>
      have hnan : tagF64 F64.nan = canonicalNan := by decide
      rw [NanVariant.canonical, box, box]
      by_cases h : x.isNaN
      · rw [if_pos h, hnan, tagF64, if_pos h]
      · rw [if_neg h]
  | _ => rfl

/-- **Two values are held in the same word only if they are the same**, but for the bits of what
is not a number. -/
theorem box_eq_box_iff {v₁ v₂ : NanVariant} (h : (box v₁).isSome) :
    box v₁ = box v₂ ↔ v₁.canonical = v₂.canonical := by
  constructor
  · intro heq
    obtain ⟨w, hw⟩ := Option.isSome_iff_exists.1 h
    rw [← (represents_box hw).variant, (represents_box (heq ▸ hw)).variant]
  · intro heq
    rw [← box_canonical v₁, heq, box_canonical]

/-- The integer and the float that are one are in different words. -/
theorem box_eq_box_iff_one : box (.integer32 1) ≠ box (.float64 (.ofInt32 1)) := by
  rw [Ne, box_eq_box_iff rfl]
  decide

/-- A word of a value is the word of what is read from it. -/
theorem box_asVariant {v : NanVariant} {w : BitVec 64} (h : box v = some w) :
    box (asVariant w) = some w := by
  rw [(represents_box h).variant, box_canonical, h]

end NanBoxed

end BoaLigero
