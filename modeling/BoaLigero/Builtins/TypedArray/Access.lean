import BoaLigero.Util.NaturalIndex

/-!
# Elements of Typed Arrays

The bounds of a typed array over a buffer that may have been resized or detached since
(`typed_array/object.rs`): whether the array is out of bounds, its length, the validation of an
index, and the unchecked reads and writes that rest on it. Arithmetic on 64-bit integers fails
where it overflows, and an access fails where it is not inside the buffer or not aligned.

An index is compared with the length as a double, which is exact up to `2 ^ 53` only.

## Main results

* `validateIndex_eq`, `validateIndexU64_eq` — the indices that are valid.
* `element_inside` — the elements below the length are inside the buffer and aligned.
* `getElement_eq`, `setElement_eq` — reads and writes touch valid elements only, and fail never.
-/

namespace BoaLigero

/-- The types of the elements. -/
inductive TypedArrayKind
  | int8 | uint8 | uint8Clamped | int16 | uint16 | int32 | uint32
  | bigInt64 | bigUint64 | float16 | float32 | float64
  deriving DecidableEq, Repr

/-- `element_size`: the bytes that an element takes. -/
def TypedArrayKind.elementSize : TypedArrayKind → ℕ
  | int8 | uint8 | uint8Clamped => 1
  | int16 | uint16 => 2
  | float16 => 2
  | int32 | uint32 | float32 => 4
  | bigInt64 | bigUint64 | float64 => 8

/-- An element takes at least one byte. -/
theorem TypedArrayKind.elementSize_pos (kind : TypedArrayKind) : 0 < kind.elementSize := by
  cases kind <;> decide

/-- A typed array, as its creation leaves it: the offset is aligned, and the end of a fixed length
is representable. -/
structure TypedArray where
  kind : TypedArrayKind
  byteOffset : ℕ
  /-- `none` for a length that follows the buffer. -/
  arrayLength : Option ℕ
  aligned : kind.elementSize ∣ byteOffset
  fits : byteOffset + arrayLength.getD 0 * kind.elementSize < 2 ^ 64

/-- The data of a buffer that is not detached. -/
@[ext] structure Bytes where
  bytes : List UInt8
  length_lt : bytes.length < 2 ^ 64

/-- The length of a buffer in bytes. -/
def Bytes.len (buffer : Bytes) : ℕ := buffer.bytes.length

/-- The length of a buffer is an integer of 64 bits. -/
theorem Bytes.len_lt (buffer : Bytes) : buffer.len < 2 ^ 64 := buffer.length_lt

namespace TypedArray

open F64

/-! ### The source -/

/-- What must not happen. -/
inductive Fault
  | overflow
  | outOfBounds
  | misaligned
  deriving DecidableEq, Repr

/-- An addition of 64 bits, which must not overflow. -/
def checkedAdd (a b : ℕ) : Except Fault ℕ :=
  if a + b < 2 ^ 64 then .ok (a + b) else .error .overflow

/-- A multiplication of 64 bits, which must not overflow. -/
def checkedMul (a b : ℕ) : Except Fault ℕ :=
  if a * b < 2 ^ 64 then .ok (a * b) else .error .overflow

/-- A subtraction of 64 bits, which must not overflow. -/
def checkedSub (a b : ℕ) : Except Fault ℕ := if b ≤ a then .ok (a - b) else .error .overflow

/-- `is_out_of_bounds`, for a buffer of a length. -/
def isOutOfBounds (a : TypedArray) (bufByteLen : ℕ) : Except Fault Bool :=
  let byteEnd : Except Fault ℕ := match a.arrayLength with
    | none => .ok bufByteLen
    | some arrLen => (checkedMul arrLen a.kind.elementSize).bind (checkedAdd a.byteOffset)
  byteEnd.map fun byteEnd => a.byteOffset > bufByteLen || byteEnd > bufByteLen

/-- `array_length`. -/
def arrayLengthAt (a : TypedArray) (bufByteLen : ℕ) : Except Fault ℕ :=
  match a.arrayLength with
  | some arrayLength => .ok arrayLength
  | none => (checkedSub bufByteLen a.byteOffset).map (· / a.kind.elementSize)

/-- `as u64`. -/
def toU64 (x : F64) : ℕ :=
  if x.isNaN || x.isNegative then 0 else min (x.magnitude / 2 ^ 1074) (2 ^ 64 - 1)

/-- `validate_index`: the index of an element, if the Number is one. -/
def validateIndex (a : TypedArray) (index : F64) (bufLen : ℕ) : Except Fault (Option ℕ) :=
  if index.isNaN || index.isInfinite || !index.fract.isZero then .ok none
  else if index.isZero && index.isNegative then .ok none
  else
    (a.isOutOfBounds bufLen).bind fun outOfBounds =>
      if outOfBounds then .ok none
      else
        (a.arrayLengthAt bufLen).map fun length =>
          if index.lt (zero false) || (double length).le index then none else some (toU64 index)

/-- `validate_index_u64`: the same for an integer index. -/
def validateIndexU64 (a : TypedArray) (index : ℕ) (bufLen : ℕ) : Except Fault (Option ℕ) :=
  (a.isOutOfBounds bufLen).bind fun outOfBounds =>
    if outOfBounds then .ok none
    else (a.arrayLengthAt bufLen).map fun length => if index ≥ length then none else some index

/-- `get_value` of the buffer from a position on: the bytes of an element. -/
def getValue (kind : TypedArrayKind) (buffer : Bytes) (byteIndex : ℕ) :
    Except Fault (List UInt8) :=
  if buffer.len < byteIndex + kind.elementSize then .error .outOfBounds
  else if byteIndex % kind.elementSize ≠ 0 then .error .misaligned
  else .ok ((buffer.bytes.drop byteIndex).take kind.elementSize)

/-- The bytes of an element. -/
abbrev Element (kind : TypedArrayKind) := { bytes : List UInt8 // bytes.length = kind.elementSize }

/-- The buffer with the bytes of an element at a position. -/
def Bytes.write {kind : TypedArrayKind} (buffer : Bytes) (byteIndex : ℕ) (value : Element kind)
    (h : byteIndex + kind.elementSize ≤ buffer.len) : Bytes where
  bytes := buffer.bytes.take byteIndex ++ value.1 ++
    buffer.bytes.drop (byteIndex + kind.elementSize)
  length_lt := by
    have hlen := buffer.length_lt
    rw [Bytes.len] at h
    simp only [List.length_append, List.length_take, List.length_drop, value.2]
    omega

/-- `set_value` into the buffer from a position on. -/
def setValue {kind : TypedArrayKind} (buffer : Bytes) (byteIndex : ℕ) (value : Element kind) :
    Except Fault Bytes :=
  if h : byteIndex + kind.elementSize ≤ buffer.len then
    if byteIndex % kind.elementSize ≠ 0 then .error .misaligned
    else .ok (Bytes.write buffer byteIndex value h)
  else .error .outOfBounds

/-- The position of an element in the buffer. -/
def byteIndex (a : TypedArray) (index : ℕ) : Except Fault ℕ :=
  (checkedMul index a.kind.elementSize).bind (checkedAdd · a.byteOffset)

/-- `typed_array_get_element`; a detached buffer has no bytes. -/
def getElement (a : TypedArray) (buffer : Option Bytes) (index : F64) :
    Except Fault (Option (List UInt8)) :=
  match buffer with
  | none => .ok none
  | some buffer =>
    (a.validateIndex index buffer.len).bind fun
      | none => .ok none
      | some index => (a.byteIndex index).bind fun byteIndex =>
          (getValue a.kind buffer byteIndex).map some

/-- `typed_array_set_element`. The value is converted first; `convert` is `get_element` of the
element type, which may run code that resizes or detaches the buffer. -/
def setElement {E : Type} (a : TypedArray)
    (convert : Option Bytes → Except E (Element a.kind) × Option Bytes) (buffer : Option Bytes)
    (index : F64) : Except Fault (Except E Unit × Option Bytes) :=
  match convert buffer with
  | (.error e, buffer) => .ok (.error e, buffer)
  | (.ok _, none) => .ok (.ok (), none)
  | (.ok value, some buffer) =>
    (a.validateIndex index buffer.len).bind fun
      | none => .ok (.ok (), some buffer)
      | some index => (a.byteIndex index).bind fun byteIndex =>
          (setValue buffer byteIndex value).map fun buffer => (.ok (), some buffer)

/-! ### The current length -/

/-- The array is inside a buffer of a given length. -/
def InBounds (a : TypedArray) (len : ℕ) : Prop :=
  a.byteOffset + a.arrayLength.getD 0 * a.kind.elementSize ≤ len

/-- Whether an array is within its buffer is decided by comparing the ends. -/
instance (a : TypedArray) (len : ℕ) : Decidable (a.InBounds len) :=
  inferInstanceAs (Decidable (_ ≤ _))

/-- The number of elements; none out of bounds. -/
def currentLength (a : TypedArray) (len : ℕ) : ℕ :=
  if a.InBounds len then a.arrayLength.getD ((len - a.byteOffset) / a.kind.elementSize) else 0

/-- The number of elements; none of a detached buffer. -/
def lengthIn (a : TypedArray) (buffer : Option Bytes) : ℕ :=
  buffer.elim 0 fun buffer => a.currentLength buffer.len

variable (a : TypedArray) {len n : ℕ}

/-- An array is out of bounds exactly if its end, or its offset if it has no end, is past the
buffer; nothing overflows. -/
theorem isOutOfBounds_eq (len : ℕ) : a.isOutOfBounds len = .ok (decide ¬ a.InBounds len) := by
  have hfits := a.fits
  rw [isOutOfBounds]
  cases hlength : a.arrayLength with
  | none =>
      simp only [Except.map, Except.ok.injEq]
      rw [Bool.eq_iff_iff]
      simp [InBounds, hlength]
  | some arrLen =>
      rw [hlength, Option.getD_some] at hfits
      have hmul : arrLen * a.kind.elementSize < 2 ^ 64 := by omega
      simp only [checkedMul, if_pos hmul, Except.bind, checkedAdd, if_pos hfits, Except.map,
        Except.ok.injEq]
      rw [Bool.eq_iff_iff]
      simp only [InBounds, hlength, Option.getD_some, gt_iff_lt, Bool.or_eq_true,
        decide_eq_true_eq, not_le]
      omega

/-- An array within its buffer begins there. -/
theorem byteOffset_le (h : a.InBounds len) : a.byteOffset ≤ len := (Nat.le_add_right _ _).trans h

/-- The length of an array within its buffer is computed without an overflow. -/
theorem arrayLengthAt_eq (h : a.InBounds len) :
    a.arrayLengthAt len = .ok (a.currentLength len) := by
  rw [arrayLengthAt, currentLength, if_pos h]
  cases a.arrayLength with
  | none => simp only [checkedSub, if_pos (a.byteOffset_le h), Except.map, Option.getD_none]
  | some arrLen => rfl

/-- An array out of bounds has no elements. -/
theorem currentLength_eq_zero (h : ¬ a.InBounds len) : a.currentLength len = 0 := if_neg h

/-- The elements of an array in bounds are inside the buffer. -/
theorem currentLength_mul_le (h : a.InBounds len) :
    a.byteOffset + a.currentLength len * a.kind.elementSize ≤ len := by
  rw [currentLength, if_pos h]
  rw [InBounds] at h
  cases hlength : a.arrayLength with
  | none =>
      rw [hlength, Option.getD_none] at h
      have := Nat.div_mul_le_self (len - a.byteOffset) a.kind.elementSize
      rw [Option.getD_none]
      omega
  | some arrLen => rwa [hlength] at h

/-- An array has no more elements than its buffer has bytes. -/
theorem currentLength_le : a.currentLength len ≤ len := by
  by_cases h : a.InBounds len
  · have hmul := a.currentLength_mul_le h
    have := Nat.le_mul_of_pos_right (a.currentLength len) a.kind.elementSize_pos
    omega
  · rw [a.currentLength_eq_zero h]
    exact Nat.zero_le len

/-- **The elements** below the current length are inside the buffer, at aligned positions. -/
theorem element_inside (h : n < a.currentLength len) :
    a.byteOffset + (n + 1) * a.kind.elementSize ≤ len ∧
      a.kind.elementSize ∣ a.byteOffset + n * a.kind.elementSize := by
  have hbounds : a.InBounds len := by
    by_contra hout
    rw [a.currentLength_eq_zero hout] at h
    omega
  constructor
  · have hmul := a.currentLength_mul_le hbounds
    have := Nat.mul_le_mul_right a.kind.elementSize (Nat.succ_le_of_lt h)
    rw [Nat.succ_eq_add_one] at this
    omega
  · exact Nat.dvd_add a.aligned (Nat.dvd_mul_left _ _)

/-! ### Valid indices -/

/-- **The indices that are valid**: natural numbers below the length, which is rounded. -/
theorem validateIndex_eq (index : F64) (hlen : len < 2 ^ 64) : a.validateIndex index len =
    .ok (index.asNatural.filter (· < nearest (a.currentLength len))) := by
  have hlength : a.currentLength len < 2 ^ 64 := a.currentLength_le.trans_lt hlen
  by_cases hintegral : index.isIntegral = true
  · have hfinite : index.isFinite = true := by
      rw [isIntegral, Bool.and_eq_true] at hintegral
      exact hintegral.1
    have hinfinite : index.isInfinite = false := by
      have hlt := of_decide_eq_true hfinite
      rw [isInfinite, Bool.and_eq_false_iff]
      exact .inl (decide_eq_false hlt.ne)
    have hfirst : (index.isNaN || index.isInfinite || !index.fract.isZero) = false := by
      rw [isNaN_of_isFinite hfinite, hinfinite, isZero_fract, hintegral]
      rfl
    rw [validateIndex, if_neg (Bool.eq_false_iff.mp hfirst)]
    cases hnegative : index.isNegative with
    | true =>
        -- Negative zero, or a negative number.
        rw [asNatural, hintegral, hnegative]
        simp only [Bool.not_true, Bool.and_false, Bool.false_eq_true, if_false, Bool.and_true,
          Option.filter_none]
        split
        · rfl
        · next hzero =>
            have hlt : index.lt (zero false) = true := by
              have hzero' : index.magnitude ≠ 0 := by simpa [isZero] using hzero
              have hunits : (zero false).units = 0 := by simp [units, magnitude_zero]
              rw [F64.lt, isNaN_of_isFinite hfinite, (represents_zero).isNaN, hunits, units,
                hnegative]
              simp only [Bool.not_false, Bool.true_and, if_true, decide_eq_true_eq]
              omega
            rw [a.isOutOfBounds_eq]
            simp only [Except.bind]
            split
            · rfl
            · next hbounds =>
                rw [a.arrayLengthAt_eq (by simpa using hbounds), hlt]
                rfl
    | false =>
        have hnatural : index.asNatural = some (index.magnitude / 2 ^ 1074) := by
          rw [asNatural, hintegral, hnegative]
          rfl
        rw [Bool.and_false, if_neg Bool.false_ne_true, a.isOutOfBounds_eq, hnatural]
        simp only [Except.bind, Option.filter_some]
        split
        · next hbounds =>
            rw [a.currentLength_eq_zero (by simpa using hbounds), nearest_of_lt (by decide)]
            rfl
        · next hbounds =>
            rw [a.arrayLengthAt_eq (by simpa using hbounds), Except.map, not_lt_zero hnatural,
              Bool.false_or]
            congr 1
            have hle := double_le_iff hnatural (nearest_lt hlength)
            by_cases hvalid : nearest (a.currentLength len) ≤ index.magnitude / 2 ^ 1074
            · rw [if_pos (hle.mpr hvalid), decide_eq_false hvalid.not_gt]
              rfl
            · rw [if_neg (fun h => hvalid (hle.mp h)), decide_eq_true (not_le.mp hvalid), if_pos rfl]
              have := nearest_le_two_pow hlength
              rw [toU64, isNaN_of_isFinite hfinite, hnegative, if_neg (by decide)]
              congr 1
              omega
  · have hnone : index.asNatural = none := by
      rw [asNatural, Bool.eq_false_iff.mpr hintegral]
      rfl
    have hfirst : (index.isNaN || index.isInfinite || !index.fract.isZero) = true := by
      rw [isZero_fract, Bool.eq_false_iff.mpr hintegral, Bool.not_false, Bool.or_true]
    rw [validateIndex, if_pos hfirst, hnone]
    rfl

/-- An integer index is valid exactly if it is below the length. -/
theorem validateIndexU64_eq (index len : ℕ) : a.validateIndexU64 index len =
    .ok (if index < a.currentLength len then some index else none) := by
  rw [validateIndexU64, a.isOutOfBounds_eq]
  by_cases h : a.InBounds len
  · rw [decide_eq_false (not_not_intro h)]
    simp only [Except.bind, Bool.false_eq_true, if_false, a.arrayLengthAt_eq h, Except.map]
    grind
  · rw [decide_eq_true h, a.currentLength_eq_zero h]
    simp [Except.bind]

/-- **Both validations agree** below `2 ^ 53`, where integers are doubles. -/
theorem validateIndexU64_eq_validateIndex (hn : n < 2 ^ 53) (hlen : len < 2 ^ 64) :
    a.validateIndexU64 n len = a.validateIndex (double n) len := by
  have hnatural : (double n).asNatural = some n := by
    rw [asNatural_double (nearest_lt (by omega)), nearest_of_lt hn]
  have hiff := lt_nearest_iff (m := a.currentLength len) hn
  rw [a.validateIndexU64_eq, a.validateIndex_eq _ hlen, hnatural, Option.filter_some]
  by_cases h : n < a.currentLength len
  · rw [if_pos h, decide_eq_true (hiff.mpr h), if_pos rfl]
  · rw [if_neg h, decide_eq_false (mt hiff.mp h), if_neg Bool.false_ne_true]

/-! ### Reads and writes -/

/-- The index of the element that the code takes a number for. -/
def validIndex (buffer : Option Bytes) (index : F64) : Option ℕ :=
  buffer.bind fun buffer => index.asNatural.filter (· < nearest (a.currentLength buffer.len))

variable {a} {buffer : Option Bytes} {index : F64}

/-- A valid index is that of a natural number below the length of the array, which was rounded to a
double. -/
theorem validIndex_eq_some_iff : a.validIndex buffer index = some n ↔
    ∃ data, buffer = some data ∧ index.asNatural = some n ∧
      n < nearest (a.currentLength data.len) := by
  simp only [validIndex, Option.bind_eq_some_iff, Option.filter_eq_some_iff, decide_eq_true_eq]

/-- **What is taken for valid is below the length**, however it is rounded. -/
theorem lt_of_validIndex (h : a.validIndex buffer index = some n) :
    ∃ data, buffer = some data ∧ n < a.currentLength data.len := by
  obtain ⟨data, rfl, hnatural, hlt⟩ := validIndex_eq_some_iff.mp h
  obtain ⟨hrepresents, hn⟩ := asNatural_eq_some_iff.mp hnatural
  exact ⟨data, rfl, lt_of_lt_nearest hlt (hrepresents.nearest_eq hn)⟩

/-- The bytes of an element. -/
def elementBytes (a : TypedArray) (buffer : Option Bytes) (n : ℕ) : List UInt8 :=
  buffer.elim [] fun data =>
    (data.bytes.drop (a.byteOffset + n * a.kind.elementSize)).take a.kind.elementSize

/-- The place of an element is computed without an overflow. -/
theorem byteIndex_eq {data : Bytes} (h : n < a.currentLength data.len) :
    a.byteIndex n = .ok (a.byteOffset + n * a.kind.elementSize) := by
  obtain ⟨hinside, -⟩ := a.element_inside h
  have hlen := data.len_lt
  rw [Nat.succ_mul] at hinside
  rw [byteIndex, checkedMul, if_pos (by omega), Except.bind, checkedAdd, if_pos (by omega),
    Nat.add_comm]

/-- **Reading an element** never fails, and reads the bytes of a valid element only. -/
theorem getElement_eq :
    a.getElement buffer index = .ok ((a.validIndex buffer index).map (a.elementBytes buffer)) := by
  cases buffer with
  | none => rfl
  | some data =>
      have hvalidate : a.validateIndex index data.len = .ok (a.validIndex (some data) index) :=
        a.validateIndex_eq index data.len_lt
      rw [getElement, hvalidate]
      cases hvalid : a.validIndex (some data) index with
      | none => rfl
      | some n =>
          obtain ⟨data', hdata, hlt⟩ := lt_of_validIndex hvalid
          obtain rfl := Option.some.inj hdata
          obtain ⟨hinside, haligned⟩ := a.element_inside hlt
          rw [Nat.succ_mul] at hinside
          simp only [Except.bind, byteIndex_eq hlt, getValue]
          rw [if_neg (by omega), if_neg (not_not_intro (Nat.mod_eq_zero_of_dvd haligned))]
          rfl

/-- The buffer after a write of an element, if there is one. -/
structure Wrote (a : TypedArray) (value : Element a.kind) (n : ℕ) (before after : Bytes) :
    Prop where
  inside : a.byteOffset + (n + 1) * a.kind.elementSize ≤ before.len
  bytes : after.bytes = before.bytes.take (a.byteOffset + n * a.kind.elementSize) ++ value.1 ++
    before.bytes.drop (a.byteOffset + (n + 1) * a.kind.elementSize)

/-- A write keeps the length of the buffer. -/
theorem Wrote.len_eq {value : Element a.kind} {before after : Bytes}
    (h : Wrote a value n before after) : after.len = before.len := by
  have hinside := h.inside
  rw [Bytes.len] at hinside ⊢
  rw [h.bytes, Bytes.len]
  simp only [List.length_append, List.length_take, List.length_drop, value.2]
  rw [Nat.succ_mul] at hinside ⊢
  omega

/-- What a conversion of a value leaves, and then a write to an element that is still there. -/
inductive SetsElement {E : Type} (a : TypedArray) (index : F64) :
    Except E (Element a.kind) × Option Bytes → Except E Unit × Option Bytes → Prop
  | failed {e buffer} : SetsElement a index (.error e, buffer) (.error e, buffer)
  | absent {value buffer} (h : a.validIndex buffer index = none) :
      SetsElement a index (.ok value, buffer) (.ok (), buffer)
  | wrote {value n before after} (h : a.validIndex (some before) index = some n)
      (hwrote : Wrote a value n before after) :
      SetsElement a index (.ok value, some before) (.ok (), some after)

/-- **Writing an element** never fails, and writes to an element only that is valid after the
conversion of the value. -/
theorem setElement_eq {E : Type}
    (convert : Option Bytes → Except E (Element a.kind) × Option Bytes) (buffer : Option Bytes) :
    ∃ result, a.setElement convert buffer index = .ok result ∧
      SetsElement a index (convert buffer) result := by
  rw [setElement]
  obtain ⟨value, buffer⟩ := convert buffer
  cases value with
  | error e => exact ⟨_, rfl, .failed⟩
  | ok value =>
      cases buffer with
      | none => exact ⟨_, rfl, .absent rfl⟩
      | some data =>
          have hvalidate : a.validateIndex index data.len = .ok (a.validIndex (some data) index) :=
            a.validateIndex_eq index data.len_lt
          simp only [hvalidate, Except.bind]
          cases hvalid : a.validIndex (some data) index with
          | none => exact ⟨_, rfl, .absent hvalid⟩
          | some n =>
              obtain ⟨data', hdata, hlt⟩ := lt_of_validIndex hvalid
              obtain rfl := Option.some.inj hdata
              obtain ⟨hinside, haligned⟩ := a.element_inside hlt
              have hend : a.byteOffset + n * a.kind.elementSize + a.kind.elementSize ≤ data.len := by
                rw [Nat.succ_mul] at hinside
                omega
              simp only [byteIndex_eq hlt, setValue, dif_pos hend,
                Nat.mod_eq_zero_of_dvd haligned, ne_eq, not_true_eq_false, if_false]
              refine ⟨_, rfl, .wrote hvalid ⟨hinside, ?_⟩⟩
              rw [Bytes.write, Nat.succ_mul, ← Nat.add_assoc]

end TypedArray

end BoaLigero
