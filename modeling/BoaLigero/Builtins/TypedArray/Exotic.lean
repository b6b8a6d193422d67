import BoaLigero.Builtins.TypedArray.Access
import BoaLigero.Object.PropertyMap
import BoaLigero.String.ToNumber

/-!
# The Internal Methods of Typed Arrays

The internal methods that a typed array has of its own (`typed_array/object.rs`). A key that is a
number in its canonical form names an element or nothing; all other keys are left to the ordinary
methods. The conversions between strings and Numbers are a parameter.

## Main results

* `methods_agree_iff` — when all methods agree, for a numeric key, on whether there is an element.
* `not_misrounded_of_small` — they do below `2 ^ 53`, and in arrays of at most that many elements.
* `typed_array_elements` — both together, with the safety of every access.
-/

namespace BoaLigero

namespace TypedArray

open F64

/-- The decimal digits of an integer. -/
def decimal (n : ℕ) : List UInt16 := (Nat.toDigits 10 n).map fun c => .ofNat c.toNat

/-- The conversions between strings and Numbers. Decimal integers are read with their value,
rounded, and written as they are where they are not rounded; `NumberStrings.ofParse` has the
conversion of strings that the source has. -/
structure NumberStrings where
  toNumber : List UInt16 → F64
  toString : F64 → List UInt16
  toNumber_decimal : ∀ n < 2 ^ 64, toNumber (decimal n) = double n
  toString_double : ∀ n < 2 ^ 53, toString (double n) = decimal n

/-- A key of a property. A string that is an array index is such an index. -/
inductive PropertyKey
  | string (units : List UInt16) (h : ∀ n < 2 ^ 32 - 1, units ≠ decimal n)
  | symbol (id : ℕ)
  | index (n : ℕ) (h : n < 2 ^ 32 - 1)

/-- The digits are characters of one code unit each. -/
theorem map_decimal (n : ℕ) :
    (decimal n).map (fun unit => Char.ofNat unit.toNat) = Nat.toDigits 10 n := by
  obtain ⟨digits, hdigits, -⟩ := isDigits_toDigits n
  have hchar : ∀ {s : List Char} {digits : List ℕ}, IsDigits 10 s digits →
      s.map ((fun unit : UInt16 => Char.ofNat unit.toNat) ∘ fun c => .ofNat c.toNat) = s := by
    intro s digits h
    induction h with
    | nil => rfl
    | @cons c d s digits hd _ ih =>
        have hlt : c.toNat < 2 ^ 16 := by
          have := (toDigit_eq_some_iff.mp hd).2
          omega
        rw [List.map_cons, ih, Function.comp_apply, UInt16.toNat_ofNat', Nat.mod_eq_of_lt hlt,
          Char.ofNat_toNat]
  rw [decimal, List.map_map]
  exact hchar hdigits

/-- Integers are told apart by their digits. -/
theorem decimal_injective {m n : ℕ} (h : decimal m = decimal n) : m = n :=
  toDigits_injective (by rw [← map_decimal, h, map_decimal])

/-- No integer is written with a minus. -/
theorem decimal_ne_negative_zero (n : ℕ) : decimal n ≠ [0x2D, 0x30] := by
  intro h
  have htext := map_decimal n
  rw [h] at htext
  obtain ⟨digits, hdigits, -⟩ := isDigits_toDigits n
  rw [← htext] at hdigits
  exact hdigits.ne_sign_of_cons.2 rfl

/-- The digits are decoded one by one. -/
theorem isText_decimal (n : ℕ) : (JsStr.utf16 (decimal n)).IsText (Nat.toDigits 10 n) := by
  obtain ⟨digits, hdigits, -⟩ := isDigits_toDigits n
  have hdecode : ∀ {s : List Char} {digits : List ℕ}, IsDigits 10 s digits →
      decodeUtf16 (s.map fun c => .ofNat c.toNat) = s.map .ok := by
    intro s digits h
    induction h with
    | nil => rfl
    | @cons c d s digits hd _ ih =>
        have hrange := (toDigit_eq_some_iff.mp hd).2
        have hunit : (UInt16.ofNat c.toNat).toNat = c.toNat := by
          rw [UInt16.toNat_ofNat', Nat.mod_eq_of_lt (by omega)]
        have hsurrogate : isSurrogate (.ofNat c.toNat) = false := by
          simp only [isSurrogate, Bool.and_eq_false_iff, decide_eq_false_iff_not,
            UInt16.le_iff_toNat_le, hunit]
          left
          simp
          omega
        rw [List.map_cons, decodeUtf16_cons hsurrogate, ih, hunit, Char.ofNat_toNat, List.map_cons]
  rw [JsStr.IsText, JsStr.iter_utf16, decimal, hdecode hdigits, List.map_map]
  rfl

/-- The conversions, with `to_number` of the source. -/
def NumberStrings.ofParse (parse : List Char → Option F64) (hparse : ReadsFloats parse)
    (toString : F64 → List UInt16) (htoString : ∀ n < 2 ^ 53, toString (double n) = decimal n) :
    NumberStrings where
  toNumber units := (JsStr.utf16 units).toNumber parse
  toString := toString
  toNumber_decimal n _ := toNumber_of_isText hparse (isText_decimal n)
  toString_double := htoString

/-- `From<u64>`. -/
def PropertyKey.ofU64 (value : ℕ) : PropertyKey :=
  if h : value < 2 ^ 32 - 1 then .index value h
  else .string (decimal value) fun _ hn heq => h (decimal_injective heq ▸ hn)

/-! ### The source -/

variable (strings : NumberStrings)

/-- `CanonicalNumericIndexString`: the Number of a string that is written just so, or is `-0`. -/
def canonicalNumericIndexString (argument : List UInt16) : Option F64 :=
  if argument = [0x2D, 0x30] then some (zero true)
  else
    let n := strings.toNumber argument
    if strings.toString n = argument then some n else none

/-- The numeric index of a key. -/
def numericIndex : PropertyKey → Option F64
  | .string key _ => canonicalNumericIndexString strings key
  | .index index _ => some (double index)
  | .symbol _ => none

/-- The result of an internal method, or that the ordinary method is called. -/
inductive Outcome (α : Type)
  | done (result : α)
  | ordinary
  deriving DecidableEq, Repr

/-- `is_valid_integer_index`, for the buffer as it is now. -/
def isValidIntegerIndex (a : TypedArray) (buffer : Option Bytes) (index : F64) :
    Except Fault Bool :=
  match buffer with
  | none => .ok false
  | some buffer => (a.validateIndex index buffer.len).map Option.isSome

variable (a : TypedArray) (buffer : Option Bytes) (key : PropertyKey)

/-- `[[GetOwnProperty]]`: an element is a writable, enumerable and configurable property. -/
def getOwnProperty : Except Fault (Outcome (Option (PropertyDescriptor (List UInt8)))) :=
  match numericIndex strings key with
  | some index => (a.getElement buffer index).map fun value =>
      .done (value.map fun v => .ofData v true true true)
  | none => .ok .ordinary

/-- `[[HasProperty]]`: there is a property exactly if there is the element. -/
def hasProperty : Except Fault (Outcome Bool) :=
  match numericIndex strings key with
  | some index => (a.isValidIntegerIndex buffer index).map .done
  | none => .ok .ordinary

/-- `convert` is the conversion of a value to an element, which may run any code. -/
def defineOwnProperty {V E : Type}
    (convert : V → Option Bytes → Except E (Element a.kind) × Option Bytes)
    (desc : PropertyDescriptor V) : Except Fault (Outcome (Except E Bool × Option Bytes)) :=
  match numericIndex strings key with
  | some index => (a.isValidIntegerIndex buffer index).bind fun valid =>
      if !valid then .ok (.done (.ok false, buffer))
      else if desc.configurable = some false then .ok (.done (.ok false, buffer))
      else if desc.enumerable = some false then .ok (.done (.ok false, buffer))
      else if desc.isAccessorDescriptor then .ok (.done (.ok false, buffer))
      else if desc.writable = some false then .ok (.done (.ok false, buffer))
      else
        match desc.value with
        | some value => (a.setElement (convert value) buffer index).map fun (result, buffer) =>
            .done (result.map fun _ => true, buffer)
        | none => .ok (.done (.ok true, buffer))
  | none => .ok .ordinary

/-- `try_get`: the bytes of the element, if there is one. -/
def tryGet : Except Fault (Outcome (Option (List UInt8))) :=
  match numericIndex strings key with
  | some index => (a.getElement buffer index).map .done
  | none => .ok .ordinary

/-- `none` is the value `undefined`. -/
def get : Except Fault (Outcome (Option (List UInt8))) :=
  match numericIndex strings key with
  | some index => (a.getElement buffer index).map .done
  | none => .ok .ordinary

/-- `sameReceiver` is whether the receiver is the object itself. -/
def set {E : Type} (convert : Option Bytes → Except E (Element a.kind) × Option Bytes)
    (sameReceiver : Bool) : Except Fault (Outcome (Except E Bool × Option Bytes)) :=
  match numericIndex strings key with
  | some index =>
    if sameReceiver then
      (a.setElement convert buffer index).map fun (result, buffer) =>
        .done (result.map fun _ => true, buffer)
    else
      (a.isValidIntegerIndex buffer index).map fun valid =>
        if !valid then .done (.ok true, buffer) else .ordinary
  | none => .ok .ordinary

/-- `[[Delete]]`: an element cannot be deleted. -/
def delete : Except Fault (Outcome Bool) :=
  match numericIndex strings key with
  | some index => (a.isValidIntegerIndex buffer index).map fun valid => .done !valid
  | none => .ok .ordinary

/-- The keys of the elements, and those of the ordinary properties, which the shape of the object
has. -/
def ownPropertyKeys (shapeKeys : List PropertyKey) : Except Fault (List PropertyKey) :=
  let elements : Except Fault (List PropertyKey) := match buffer with
    | none => .ok []
    | some buffer =>
      (a.isOutOfBounds buffer.len).bind fun outOfBounds =>
        if outOfBounds then .ok []
        else (a.arrayLengthAt buffer.len).map fun length => (List.range length).map .ofU64
  elements.map (· ++ shapeKeys)

/-! ### Numeric keys -/

variable {strings a buffer key}
variable {v : F64} {n : ℕ}

/-- A canonical string other than `-0` is what its Number is written as. -/
theorem canonicalNumericIndexString_eq {argument : List UInt16}
    (h : canonicalNumericIndexString strings argument = some v)
    (hne : argument ≠ [0x2D, 0x30]) :
    v = strings.toNumber argument ∧ strings.toString v = argument := by
  simp only [canonicalNumericIndexString, if_neg hne] at h
  split at h
  · next heq =>
      obtain rfl := Option.some.inj h
      exact ⟨rfl, heq⟩
  · cases h

/-- The numeric index of the key of an element. -/
theorem numericIndex_ofU64 (hn : n < 2 ^ 64)
    (h : numericIndex strings (.ofU64 n) = some v) : v = double n := by
  rw [PropertyKey.ofU64] at h
  split at h
  · exact (Option.some.inj h).symm
  · obtain ⟨rfl, -⟩ := canonicalNumericIndexString_eq h (decimal_ne_negative_zero n)
    exact strings.toNumber_decimal n hn

/-- A numeric key below `2 ^ 53` is that of its element. -/
theorem eq_ofU64 (h : numericIndex strings key = some v) (hv : v.asNatural = some n)
    (hn : n < 2 ^ 53) : PropertyKey.ofU64 n = key := by
  have hv' := (asNatural_eq_some_iff.mp hv).1
  have hdouble : v = double n := by
    refine (hv'.eq_iff (represents_double n)).mpr (.inl ?_)
    rw [nearest_of_lt hn]
  cases key with
  | symbol id => cases h
  | index m hm =>
      obtain rfl := Option.some.inj h
      rw [asNatural_double (nearest_lt (by omega)), nearest_of_lt (by omega),
        Option.some.injEq] at hv
      subst hv
      rw [PropertyKey.ofU64, dif_pos hm]
  | string units hunits =>
      have hne : units ≠ [0x2D, 0x30] := by
        rintro rfl
        rw [numericIndex, canonicalNumericIndexString, if_pos rfl, Option.some.injEq] at h
        rw [← h] at hv'
        exact absurd hv'.isNegative (by decide)
      have hunits' : units = decimal n := by
        rw [← (canonicalNumericIndexString_eq h hne).2, hdouble]
        exact strings.toString_double n hn
      subst hunits'
      rw [PropertyKey.ofU64, dif_neg fun hlt => hunits n hlt rfl]

/-- The keys of the ordinary properties: numeric keys are not among them, as they are not left to
the ordinary methods. -/
structure NamedKeys (strings : NumberStrings) where
  keys : List PropertyKey
  not_numeric : ∀ key ∈ keys, numericIndex strings key = none

/-! ### The methods, by what the code takes for valid -/

/-- A Number is a valid index exactly if the validation finds an element. -/
theorem isValidIntegerIndex_eq :
    a.isValidIntegerIndex buffer v = .ok (a.validIndex buffer v).isSome := by
  cases buffer with
  | none => rfl
  | some data =>
      rw [isValidIntegerIndex, a.validateIndex_eq v data.len_lt]
      rfl

/-- A descriptor that an element may be redefined with. -/
def Admissible {V : Type} (desc : PropertyDescriptor V) : Prop :=
  desc.configurable ≠ some false ∧ desc.enumerable ≠ some false ∧
    desc.isAccessorDescriptor = false ∧ desc.writable ≠ some false

/-- Whether a descriptor suits an element is decided field by field. -/
instance {V : Type} (desc : PropertyDescriptor V) : Decidable (Admissible desc) :=
  inferInstanceAs (Decidable (_ ∧ _))

section Numeric

variable (h : numericIndex strings key = some v)
include h

/-- The own property of a numeric key is the element, or there is none. -/
theorem getOwnProperty_eq : a.getOwnProperty strings buffer key =
    .ok (.done ((a.validIndex buffer v).map fun n =>
      .ofData (a.elementBytes buffer n) true true true)) := by
  rw [getOwnProperty, h]
  simp only [getElement_eq, Except.map, Option.map_map]
  rfl

/-- There is a property of a numeric key exactly if there is the element. -/
theorem hasProperty_eq :
    a.hasProperty strings buffer key = .ok (.done (a.validIndex buffer v).isSome) := by
  rw [hasProperty, h]
  simp only [isValidIntegerIndex_eq, Except.map]

/-- A try to get a numeric key gives the bytes of the element, or nothing. -/
theorem tryGet_eq : a.tryGet strings buffer key =
    .ok (.done ((a.validIndex buffer v).map (a.elementBytes buffer))) := by
  rw [tryGet, h]
  simp only [getElement_eq, Except.map]

/-- Getting a numeric key gives the bytes of the element, or nothing. -/
theorem get_eq : a.get strings buffer key =
    .ok (.done ((a.validIndex buffer v).map (a.elementBytes buffer))) := by
  rw [get, h]
  simp only [getElement_eq, Except.map]

/-- Deleting a numeric key succeeds exactly if there is no element. -/
theorem delete_eq :
    a.delete strings buffer key = .ok (.done (a.validIndex buffer v).isNone) := by
  rw [delete, h]
  simp only [isValidIntegerIndex_eq, Except.map, Option.not_isSome]

/-- A definition is refused where there is no valid element, or with another kind of property. -/
theorem defineOwnProperty_eq {V E : Type}
    (convert : V → Option Bytes → Except E (Element a.kind) × Option Bytes)
    (desc : PropertyDescriptor V) :
    ∃ result buffer', a.defineOwnProperty strings buffer key convert desc =
        .ok (.done (result, buffer')) ∧
      (result = .ok false ↔ a.validIndex buffer v = none ∨ ¬ Admissible desc) := by
  have hunfold : a.defineOwnProperty strings buffer key convert desc =
      if a.validIndex buffer v = none ∨ ¬ Admissible desc then .ok (.done (.ok false, buffer))
      else
        match desc.value with
        | some value => (a.setElement (convert value) buffer v).map fun (result, buffer) =>
            .done (result.map fun _ => true, buffer)
        | none => .ok (.done (.ok true, buffer)) := by
    rw [defineOwnProperty, h]
    simp only [isValidIntegerIndex_eq, Except.bind, Admissible, Option.not_isSome,
      Option.isNone_iff_eq_none]
    grind
  rw [hunfold]
  split
  · next hrefused => exact ⟨_, _, rfl, iff_of_true rfl hrefused⟩
  · next hadmitted =>
      split
      · next value _ =>
          obtain ⟨result, hset, -⟩ := @setElement_eq a v _ (convert value) buffer
          refine ⟨_, _, by rw [hset]; rfl, iff_of_false ?_ hadmitted⟩
          cases result.1 <;> simp [Except.map]
      · exact ⟨_, _, rfl, iff_of_false (by simp) hadmitted⟩

/-- An assignment to the object itself writes to a valid element or to none. -/
theorem set_eq {E : Type}
    (convert : Option Bytes → Except E (Element a.kind) × Option Bytes) :
    ∃ result, a.set strings buffer key convert true =
        .ok (.done (result.1.map fun _ => true, result.2)) ∧
      SetsElement a v (convert buffer) result := by
  obtain ⟨result, hset, hsets⟩ := @setElement_eq a v _ convert buffer
  refine ⟨result, ?_, hsets⟩
  rw [set, h]
  simp only [if_true, hset, Except.map]

end Numeric

/-- The keys are those of the elements, by the current length, and those of the shape. -/
theorem ownPropertyKeys_eq (shapeKeys : List PropertyKey) : a.ownPropertyKeys buffer shapeKeys =
    .ok ((List.range (a.lengthIn buffer)).map .ofU64 ++ shapeKeys) := by
  cases buffer with
  | none => rfl
  | some data =>
      simp only [ownPropertyKeys, a.isOutOfBounds_eq, Except.bind, lengthIn, Option.elim_some]
      by_cases hbounds : a.InBounds data.len
      · simp only [hbounds, not_true_eq_false, decide_false, Bool.false_eq_true, if_false,
          a.arrayLengthAt_eq hbounds, Except.map]
      · simp [hbounds, a.currentLength_eq_zero hbounds, Except.map]

/-! ### Agreement -/

/-- The element that a number names, by the current length. -/
def elementIndex (a : TypedArray) (buffer : Option Bytes) (v : F64) : Option ℕ :=
  v.asNatural.filter (· < a.lengthIn buffer)

/-- A detached buffer has no elements. -/
theorem elementIndex_none (a : TypedArray) (v : F64) : a.elementIndex none v = none := by
  refine Option.filter_eq_none_iff.mpr fun n _ => ?_
  simp [lengthIn]

/-- For a numeric key, validation and all methods go by whether there is the element. -/
structure Conforms (named : NamedKeys strings) (a : TypedArray) (buffer : Option Bytes)
    (key : PropertyKey) (v : F64) : Prop where
  validateIndex : ∀ data, buffer = some data →
    a.validateIndex v data.len = .ok (a.elementIndex buffer v)
  getOwnProperty : a.getOwnProperty strings buffer key =
    .ok (.done ((a.elementIndex buffer v).map fun n =>
      .ofData (a.elementBytes buffer n) true true true))
  hasProperty : a.hasProperty strings buffer key = .ok (.done (a.elementIndex buffer v).isSome)
  tryGet : a.tryGet strings buffer key =
    .ok (.done ((a.elementIndex buffer v).map (a.elementBytes buffer)))
  get : a.get strings buffer key =
    .ok (.done ((a.elementIndex buffer v).map (a.elementBytes buffer)))
  delete : a.delete strings buffer key = .ok (.done (a.elementIndex buffer v).isNone)
  defineOwnProperty : ∀ {V E : Type}
    (convert : V → Option Bytes → Except E (Element a.kind) × Option Bytes)
    (desc : PropertyDescriptor V), ∃ result buffer',
      a.defineOwnProperty strings buffer key convert desc = .ok (.done (result, buffer')) ∧
      (result = .ok false ↔ a.elementIndex buffer v = none ∨ ¬ Admissible desc)
  ownPropertyKeys : ∃ keys, a.ownPropertyKeys buffer named.keys = .ok keys ∧
    (key ∈ keys ↔ (a.elementIndex buffer v).isSome)

/-- The length, rounded to a double, and the integer that is written in the key are not on the
same side of each other as the length and the index. -/
def Misrounded (length : ℕ) (key : PropertyKey) (v : F64) : Prop :=
  ∃ n, v.asNatural = some n ∧
    ¬ ((n < nearest length ↔ n < length) ∧
      (n < length ↔ ∃ m, PropertyKey.ofU64 m = key ∧ m < length))

/-- The length of an array is an integer of 64 bits. -/
theorem lengthIn_lt (a : TypedArray) (buffer : Option Bytes) : a.lengthIn buffer < 2 ^ 64 := by
  cases buffer with
  | none => exact Nat.two_pow_pos 64
  | some data => exact a.currentLength_le.trans_lt data.len_lt

/-- A valid index is a natural number below the length of the array, which was rounded to a double.
-/
theorem validIndex_eq (a : TypedArray) (buffer : Option Bytes) (v : F64) :
    a.validIndex buffer v = v.asNatural.filter (· < nearest (a.lengthIn buffer)) := by
  cases buffer with
  | none =>
      rw [lengthIn, Option.elim_none, nearest_of_lt (by decide)]
      cases v.asNatural <;> rfl
  | some data => rfl

/-- A numeric key is listed if the integer that is written in it is below the length. -/
theorem mem_ownPropertyKeys_iff (named : NamedKeys strings)
    (h : numericIndex strings key = some v) :
    key ∈ (List.range (a.lengthIn buffer)).map .ofU64 ++ named.keys ↔
      ∃ m, PropertyKey.ofU64 m = key ∧ m < a.lengthIn buffer := by
  rw [List.mem_append, List.mem_map]
  constructor
  · rintro (⟨m, hm, heq⟩ | hmem)
    · exact ⟨m, heq, List.mem_range.mp hm⟩
    · rw [named.not_numeric key hmem] at h
      cases h
  · rintro ⟨m, heq, hm⟩
    exact .inl ⟨m, List.mem_range.mpr hm, heq⟩

/-- **When the methods agree** on whether there is an element. -/
theorem methods_agree_iff (named : NamedKeys strings) (h : numericIndex strings key = some v) :
    Conforms named a buffer key v ↔ ¬ Misrounded (a.lengthIn buffer) key v := by
  have hkeys := @mem_ownPropertyKeys_iff strings a buffer key v named h
  have hconforms : Conforms named a buffer key v ↔
      a.validIndex buffer v = a.elementIndex buffer v ∧
        ((∃ m, PropertyKey.ofU64 m = key ∧ m < a.lengthIn buffer) ↔
          (a.elementIndex buffer v).isSome) := by
    constructor
    · intro hall
      constructor
      · cases buffer with
        | none => rw [elementIndex_none]; rfl
        | some data =>
            have hvalidate := hall.validateIndex data rfl
            rw [a.validateIndex_eq v data.len_lt, Except.ok.injEq] at hvalidate
            exact hvalidate
      · obtain ⟨keys, hown, hmem⟩ := hall.ownPropertyKeys
        rw [ownPropertyKeys_eq, Except.ok.injEq] at hown
        rw [← hkeys, hown, hmem]
    · rintro ⟨hvalid, hlisted⟩
      refine ⟨?_, ?_, ?_, ?_, ?_, ?_, ?_, ?_⟩
      · rintro data rfl
        rw [a.validateIndex_eq v data.len_lt, ← hvalid]
        rfl
      · rw [getOwnProperty_eq h, hvalid]
      · rw [hasProperty_eq h, hvalid]
      · rw [tryGet_eq h, hvalid]
      · rw [get_eq h, hvalid]
      · rw [delete_eq h, hvalid]
      · intro V E convert desc
        rw [← hvalid]
        exact defineOwnProperty_eq h convert desc
      · exact ⟨_, ownPropertyKeys_eq named.keys, hkeys.trans hlisted⟩
  rw [hconforms, a.validIndex_eq, elementIndex, Misrounded]
  cases hnatural : v.asNatural with
  | none =>
      refine iff_of_true ⟨rfl, iff_of_false ?_ (by simp)⟩ ?_
      · rintro ⟨m, rfl, hm⟩
        have hm := hm.trans (a.lengthIn_lt buffer)
        rw [numericIndex_ofU64 hm h, asNatural_double (nearest_lt hm)] at hnatural
        cases hnatural
      · rintro ⟨n, hn, -⟩
        cases hn
  | some n =>
      have hfilter (m : ℕ) : Option.filter (fun k => decide (k < m)) (some n) =
          if n < m then some n else none := by
        rw [Option.filter_some]
        simp
      rw [hfilter, hfilter]
      simp only [Option.some.injEq, exists_eq_left', not_not]
      refine and_congr ?_ ?_
      · by_cases h₁ : n < nearest (a.lengthIn buffer) <;> by_cases h₂ : n < a.lengthIn buffer <;>
          simp [h₁, h₂]
      · by_cases h₂ : n < a.lengthIn buffer <;> simp [h₂]

/-- **Small numbers are not misrounded**: an index below `2 ^ 53`, or an array of at most that many
elements. -/
theorem not_misrounded_of_small {length : ℕ} (hlength : length < 2 ^ 64)
    (h : numericIndex strings key = some v)
    (hsmall : length ≤ 2 ^ 53 ∨ ∀ n, v.asNatural = some n → n < 2 ^ 53) :
    ¬ Misrounded length key v := by
  rintro ⟨n, hn, hdifferent⟩
  apply hdifferent
  have hlow (hlt : n < length) : n < 2 ^ 53 := by
    rcases hsmall with hsmall | hsmall
    · omega
    · exact hsmall n hn
  -- The index is what the integer in the key is rounded to.
  have hwritten {m : ℕ} (hm : PropertyKey.ofU64 m = key) (hlt : m < length) :
      n = nearest m := by
    subst hm
    have hm := hlt.trans hlength
    rw [numericIndex_ofU64 hm h, asNatural_double (nearest_lt hm), Option.some.injEq] at hn
    exact hn.symm
  constructor
  · rcases hsmall with hsmall | hsmall
    · have hexact : nearest length = length := by
        obtain hlt | heq := hsmall.lt_or_eq
        · exact nearest_of_lt hlt
        · rw [heq]
          exact nearest_mul_two_pow (s := 2 ^ 52) le_rfl (by decide) 1
      rw [hexact]
    · exact lt_nearest_iff (hsmall n hn)
  · constructor
    · exact fun hlt => ⟨n, eq_ofU64 h hn (hlow hlt), hlt⟩
    · rintro ⟨m, hm, hlt⟩
      have hnearest := hwritten hm hlt
      obtain hmlow | hmhigh := Nat.lt_or_ge m (2 ^ 53)
      · rwa [hnearest, nearest_of_lt hmlow]
      · have hhigh := two_pow_le_nearest hmhigh
        rcases hsmall with hsmall | hsmall
        · omega
        · have := hsmall n hn
          omega

/-- **Elements of typed arrays**, for every array, every buffer and every numeric key:
validation and all methods agree on whether there is the element, if and only if nothing is
misrounded, as it never is below `2 ^ 53`; both validations agree there; what is valid is inside
the buffer and aligned; a read touches a valid element only; and an assignment, whatever its
conversion does to the buffer, never fails to be in bounds and writes to an element only that is
valid afterwards. -/
theorem typed_array_elements (strings : NumberStrings) (named : NamedKeys strings)
    (a : TypedArray) (buffer : Option Bytes) :
    (∀ key v, numericIndex strings key = some v →
      (Conforms named a buffer key v ↔ ¬ Misrounded (a.lengthIn buffer) key v) ∧
      ((a.lengthIn buffer ≤ 2 ^ 53 ∨ ∀ n, v.asNatural = some n → n < 2 ^ 53) →
        ¬ Misrounded (a.lengthIn buffer) key v)) ∧
    (∀ data, buffer = some data →
      (∀ n < 2 ^ 53, a.validateIndexU64 n data.len = a.validateIndex (double n) data.len) ∧
      ∀ v n, a.validateIndex v data.len = .ok (some n) →
        v.asNatural = some n ∧ n < a.currentLength data.len ∧
        a.byteOffset + (n + 1) * a.kind.elementSize ≤ data.len ∧
        a.kind.elementSize ∣ a.byteOffset + n * a.kind.elementSize) ∧
    ∀ key v, numericIndex strings key = some v →
      a.get strings buffer key =
        .ok (.done ((a.validIndex buffer v).map (a.elementBytes buffer))) ∧
      ∀ {E : Type} (convert : Option Bytes → Except E (Element a.kind) × Option Bytes),
        ∃ result, a.set strings buffer key convert true =
            .ok (.done (result.1.map fun _ => true, result.2)) ∧
          SetsElement a v (convert buffer) result := by
  refine ⟨?_, ?_, ?_⟩
  · intro key v h
    exact ⟨methods_agree_iff named h, not_misrounded_of_small (a.lengthIn_lt buffer) h⟩
  · rintro data rfl
    constructor
    · exact fun n hn => a.validateIndexU64_eq_validateIndex hn data.len_lt
    · intro v n hvalidate
      rw [a.validateIndex_eq v data.len_lt, Except.ok.injEq] at hvalidate
      have hvalid : a.validIndex (some data) v = some n := hvalidate
      obtain ⟨-, -, hnatural, -⟩ := validIndex_eq_some_iff.mp hvalid
      obtain ⟨data', hdata, hlt⟩ := lt_of_validIndex hvalid
      obtain rfl := Option.some.inj hdata
      exact ⟨hnatural, hlt, a.element_inside hlt⟩
  · intro key v h
    exact ⟨get_eq h, fun convert => set_eq h convert⟩

/-! ### A rounded length -/

/-- Conversions that read as the source does, and write integers only. -/
noncomputable def integerStrings : NumberStrings :=
  .ofParse referenceParse readsFloats_referenceParse (fun x => x.asNatural.elim [] decimal)
    fun n hn => by
      rw [asNatural_double (nearest_lt (by omega)), nearest_of_lt hn]
      rfl

/-- What is written of a Number is the digits of its integer, if it is one. -/
theorem toString_integerStrings (x : F64) :
    integerStrings.toString x = x.asNatural.elim [] decimal := rfl

/-- An array of bytes that follows the length of its buffer. -/
def byteArray : TypedArray where
  kind := .uint8
  byteOffset := 0
  arrayLength := none
  aligned := Nat.dvd_zero _
  fits := by decide

/-- The array of bytes has as many elements as its buffer has bytes. -/
theorem lengthIn_byteArray (data : Bytes) : byteArray.lengthIn (some data) = data.len := by
  rw [lengthIn, Option.elim_some, currentLength, if_pos (by simp [InBounds, byteArray])]
  simp [byteArray, TypedArrayKind.elementSize]

/-- A buffer of some bytes. -/
def zeroBytes (length : ℕ) (h : length < 2 ^ 64) : Bytes :=
  ⟨List.replicate length 0, by simpa using h⟩

/-- A buffer of zeros has the length that was asked for. -/
theorem len_zeroBytes (length : ℕ) (h : length < 2 ^ 64) : (zeroBytes length h).len = length :=
  List.length_replicate

/-- The last of four bytes. -/
theorem typed_array_elements_byte :
    Conforms (⟨[], by simp⟩ : NamedKeys integerStrings) byteArray
      (some (zeroBytes 4 (by decide))) (.index 3 (by decide)) (double 3) := by
  obtain ⟨hkeys, -, -⟩ := typed_array_elements integerStrings ⟨[], by simp⟩ byteArray
    (some (zeroBytes 4 (by decide)))
  obtain ⟨hconforms, hsmall⟩ := hkeys (.index 3 (by decide)) (double 3) rfl
  refine hconforms.mpr (hsmall (.inl ?_))
  rw [lengthIn_byteArray, len_zeroBytes]
  decide

/-- The array with `2 ^ 53 + 1` elements is taken for one with `2 ^ 53`. -/
theorem not_conforms_rounded : ∃ key v, numericIndex integerStrings key = some v ∧
    ¬ Conforms (⟨[], by simp⟩ : NamedKeys integerStrings) byteArray
      (some (zeroBytes (2 ^ 53 + 1) (by decide))) key v := by
  have hnearest : nearest (2 ^ 53) = 2 ^ 53 :=
    nearest_mul_two_pow (s := 2 ^ 52) le_rfl (by decide) 1
  have hnatural : (double (2 ^ 53)).asNatural = some (2 ^ 53) := by
    rw [asNatural_double (nearest_lt (by decide)), hnearest]
  have hkey : numericIndex integerStrings (.ofU64 (2 ^ 53)) = some (double (2 ^ 53)) := by
    have hread := integerStrings.toNumber_decimal (2 ^ 53) (by decide)
    have hwrite : integerStrings.toString (double (2 ^ 53)) = decimal (2 ^ 53) := by
      rw [toString_integerStrings, hnatural, Option.elim_some]
    rw [PropertyKey.ofU64, dif_neg (by decide), numericIndex, canonicalNumericIndexString,
      if_neg (decimal_ne_negative_zero _)]
    simp only [hread, hwrite, if_true]
  refine ⟨_, _, hkey, fun hconforms => ?_⟩
  refine (methods_agree_iff _ hkey).mp hconforms ⟨2 ^ 53, hnatural, fun hsame => ?_⟩
  have hrounded : nearest (2 ^ 53 + 1) = 2 ^ 53 := by decide +kernel
  rw [lengthIn_byteArray, len_zeroBytes, hrounded] at hsame
  exact absurd (hsame.1.mpr (Nat.lt_succ_self _)) (lt_irrefl _)

end TypedArray

end BoaLigero
