import BoaLigero.Util.Scan
import BoaLigero.Value.Equality
import BoaLigero.Value.Operations

/-!
# Searching Indexed Properties

`index_of_contiguous_own_data` (`object/property_map.rs`) searches a range of indices for a value
without the internal methods of the object: boxed dense storage in place, any other storage
index by index. It gives up at the first index that has no own data property.

Whatever the storage, this is the scan that reads the own data property of one index after the
other and compares it by strict equality: Numbers as doubles, however they are held, and all
other values by identity.

## Main results

* `strictEquals_eq` — strict equality of all values.
* `getIndexedDataProperty_eq` — the reader of data properties, from the descriptors.
* `indexOf_eq_scan` — every storage is scanned element by element.
* `indexOf_agrees` — the outcome against the loop that reads elements with user code.
-/

namespace BoaLigero

open Scan

/-- A value that is not a Number: a primitive one, or an object or symbol by its identity. -/
inductive OtherValue where
  | primitive (value : OtherPrimitive)
  | object (id : ℕ)
  | symbol (id : ℕ)
  deriving DecidableEq, Repr

/-- An element of an object. -/
abbrev ElementValue := JsVariant OtherValue

namespace ElementValue

/-- The primitive value, but for symbols. -/
def primitive : ElementValue → Option PrimitiveValue
  | .integer32 n => some (.integer32 n)
  | .float64 x => some (.float64 x)
  | .other (.primitive v) => some (.other v)
  | .other _ => none

/-- `strict_equals`: objects and symbols by their identity, primitive values by their kind. -/
def strictEquals : ElementValue → ElementValue → Bool
  | .other (.object this), .other (.object other) => this = other
  | .other (.symbol x), .other (.symbol y) => x = y
  | x, y =>
      match x.primitive, y.primitive with
      | some x, some y => Comparison.strictEquals x y
      | _, _ => false

/-- Numbers are equal as doubles, other values when they are identical. -/
def isStrictlyEqual (x y : ElementValue) : Bool :=
  match x.asNumber, y.asNumber with
  | some u, some v => u.beq v
  | none, none => x = y
  | _, _ => false

theorem strictEquals_other (v w : OtherPrimitive) :
    Comparison.strictEquals (.other v) (.other w) = decide (v = w) := by
  cases v <;> cases w <;>
    simp [Comparison.strictEquals, Comparison.sameType, Comparison.getType,
      Comparison.sameTypeArms, Comparison.sameValueNonNumeric]

/-- A Number is a primitive value. -/
theorem exists_primitive {x : ElementValue} {u : F64} (h : x.asNumber = some u) :
    ∃ x', x.primitive = some x' ∧ x'.asNumber = some u := by
  cases x with
  | integer32 n => exact ⟨_, rfl, h⟩
  | float64 d => exact ⟨_, rfl, h⟩
  | other v => cases h

/-- Two values of which one is a primitive value. -/
theorem strictEquals_of_primitive {x y : ElementValue}
    (h : x.primitive.isSome ∨ y.primitive.isSome) :
    x.strictEquals y = match x.primitive, y.primitive with
      | some x, some y => Comparison.strictEquals x y
      | _, _ => false := by
  rw [strictEquals.eq_def]
  split
  · rcases h with h | h <;> cases h
  · rcases h with h | h <;> cases h
  · rfl

/-- A Number is equal to nothing but Numbers. -/
theorem strictEquals_number_other {x : ElementValue} {u : F64} (hx : x.asNumber = some u)
    (v : OtherValue) : x.strictEquals (.other v) = false ∧ strictEquals (.other v) x = false := by
  obtain ⟨x', hprimitive, hnumber⟩ := exists_primitive hx
  have hsome : x.primitive.isSome := by rw [hprimitive]; rfl
  rw [strictEquals_of_primitive (.inl hsome), strictEquals_of_primitive (.inr hsome), hprimitive]
  cases v with
  | primitive w => exact Comparison.sameType_number_other F64.beq hnumber w
  | object id => exact ⟨rfl, rfl⟩
  | symbol id => exact ⟨rfl, rfl⟩

/-- **Strict equality of all values.** -/
theorem strictEquals_eq (x y : ElementValue) : x.strictEquals y = x.isStrictlyEqual y := by
  cases hx : x.asNumber with
  | some u =>
      cases hy : y.asNumber with
      | some v =>
          obtain ⟨x', hx', hu⟩ := exists_primitive hx
          obtain ⟨y', hy', hv⟩ := exists_primitive hy
          rw [strictEquals_of_primitive (.inl (by rw [hx']; rfl)), hx', hy', isStrictlyEqual, hx, hy]
          exact Comparison.strictEquals_number hu hv
      | none =>
          rw [isStrictlyEqual, hx, hy]
          cases y with
          | integer32 n => cases hy
          | float64 d => cases hy
          | other v => exact (strictEquals_number_other hx v).1
  | none =>
      cases x with
      | integer32 n => cases hx
      | float64 d => cases hx
      | other v =>
          cases hy : y.asNumber with
          | some u =>
              rw [isStrictlyEqual, hx, hy]
              exact (strictEquals_number_other hy v).2
          | none =>
              rw [isStrictlyEqual, hx, hy]
              cases y with
              | integer32 n => cases hy
              | float64 d => cases hy
              | other w =>
                  cases v with
                  | primitive v =>
                      cases w with
                      | primitive w => simpa [strictEquals, primitive] using strictEquals_other v w
                      | object id => simp [strictEquals, primitive]
                      | symbol id => simp [strictEquals, primitive]
                  | object id => cases w <;> simp [strictEquals, primitive]
                  | symbol id => cases w <;> simp [strictEquals, primitive]

end ElementValue

namespace IndexedProperties

/-! ### The source -/

/-- The default value. -/
def undefined : ElementValue := .other (.primitive .undefined)

/-- The value of a descriptor that is not an accessor. -/
def descriptorValue (descriptor : PropertyDescriptor ElementValue) : Option ElementValue :=
  if descriptor.isAccessorDescriptor then none else some (descriptor.value.getD undefined)

/-- Get an own indexed data property's value; nothing for holes and accessor properties. -/
def getIndexedDataProperty (p : IndexedProperties OtherValue) (index : UInt32) :
    Option ElementValue :=
  match p with
  | .denseI32 properties => properties[index.toNat]?.map .integer32
  | .denseF64 properties => properties[index.toNat]?.map .float64
  | .denseElement properties => properties[index.toNat]?
  | .denseReadOnlyElement properties => properties[index.toNat]?
  | .sparseElement properties => properties.get? index
  | .sparseProperty properties => (properties.get? index).bind descriptorValue

/-- `u32::try_from(values.len()).unwrap_or(u32::MAX)`. -/
def denseLen (values : List ElementValue) : UInt32 :=
  if values.length < 2 ^ 32 then .ofNat values.length else 2 ^ 32 - 1

/-- The loop over a borrowed slice of values that starts at an index. -/
def searchSlice (search : ElementValue) (start : UInt32) :
    List ElementValue → ℕ → ℕ → Outcome UInt32
  | [], _, scanned => .notFound scanned
  | value :: values, offset, scanned =>
      if search.strictEquals value then .found (start + .ofNat offset) (scanned + 1)
      else searchSlice search start values (offset + 1) (scanned + 1)

/-- The search of contiguous boxed values; a slice that ends before it starts is a panic. -/
def indexOfDense (values : List ElementValue) (start stop : UInt32) (search : ElementValue) :
    Option (Outcome UInt32) :=
  if start = stop then some (.notFound 0)
  else if denseLen values ≤ start then some (.gaveUp start 0)
  else
    let scanEnd := if stop ≤ denseLen values then stop else denseLen values
    if scanEnd < start then none
    else
      match searchSlice search start ((values.take scanEnd.toNat).drop start.toNat) 0 0 with
      | .notFound scanned =>
          if scanEnd < stop then some (.gaveUp scanEnd scanned) else some (.notFound scanned)
      | r => some r

/-- The value read by the loop over indices; dense boxed storage does not reach it. -/
def loopValue (p : IndexedProperties OtherValue) (index : UInt32) : Option ElementValue :=
  match p with
  | .denseI32 values => values[index.toNat]?.map .integer32
  | .denseF64 values => values[index.toNat]?.map .float64
  | .denseElement _ | .denseReadOnlyElement _ => none
  | .sparseElement values => values.get? index
  | .sparseProperty properties => (properties.get? index).bind descriptorValue

/-- Search a contiguous range of own indexed data properties without going through the generic
internal-method machinery for every element. -/
def indexOfContiguousOwnData (p : IndexedProperties OtherValue) (start stop : UInt32)
    (search : ElementValue) : Option (Outcome UInt32) :=
  match p with
  | .denseElement values | .denseReadOnlyElement values => indexOfDense values start stop search
  | p => some (scan p.loopValue search.strictEquals (indices start stop) 0)

/-! ### Own data properties -/

/-- The value of an own data property, from its descriptor. -/
def ownData (p : IndexedProperties OtherValue) (index : UInt32) : Option ElementValue :=
  (p.get index).bind descriptorValue

/-- **The reader of data properties reads them from the descriptors.** -/
theorem getIndexedDataProperty_eq (p : IndexedProperties OtherValue) (index : UInt32) :
    p.getIndexedDataProperty index = p.ownData index := by
  cases p with
  | denseI32 values | denseF64 values | denseElement values | denseReadOnlyElement values =>
      rw [getIndexedDataProperty, ownData, get]
      cases values[index.toNat]? <;> rfl
  | sparseElement map =>
      rw [getIndexedDataProperty, ownData, get]
      cases map.get? index <;> rfl
  | sparseProperty map => rfl

/-! ### Dense boxed storage -/

section Dense

variable {values : List ElementValue} {search : ElementValue} {start stop : UInt32}

/-- The loop over a slice is the scan of its indices. -/
theorem searchSlice_eq_scan {slice : List ElementValue} {offset : ℕ}
    (hslice : ∀ j < slice.length, values[start.toNat + offset + j]? = slice[j]?)
    (hlt : start.toNat + offset + slice.length ≤ 2 ^ 32) (scanned : ℕ) :
    searchSlice search start slice offset scanned =
      scan (fun i : UInt32 => values[i.toNat]?) search.strictEquals
        ((List.range' (start.toNat + offset) slice.length).map UInt32.ofNat) scanned := by
  induction slice generalizing offset scanned with
  | nil => rfl
  | cons value slice ih =>
      rw [List.length_cons] at hlt
      have hindex : start + .ofNat offset = UInt32.ofNat (start.toNat + offset) := by
        rw [UInt32.ofNat_add, UInt32.ofNat_toNat]
      have hget : values[(UInt32.ofNat (start.toNat + offset)).toNat]? = some value := by
        rw [UInt32.toNat_ofNat', Nat.mod_eq_of_lt (by omega)]
        exact hslice 0 (Nat.succ_pos _)
      rw [searchSlice, List.length_cons, List.range'_succ, List.map_cons, scan, hget, hindex]
      dsimp only
      split
      · rfl
      · have hrest : ∀ j < slice.length, values[start.toNat + (offset + 1) + j]? = slice[j]? := by
          intro j hj
          have hnext := hslice (j + 1) (by rw [List.length_cons]; omega)
          rw [List.getElem?_cons_succ] at hnext
          rw [← hnext]
          congr 1
          omega
        rw [ih hrest (by omega)]
        rfl

theorem toNat_denseLen_le (values : List ElementValue) :
    (denseLen values).toNat ≤ values.length := by
  rw [denseLen]
  split
  · next h => rw [UInt32.toNat_ofNat', Nat.mod_eq_of_lt h]
  · next h =>
    have hmax : ((2 : UInt32) ^ 32 - 1).toNat = 2 ^ 32 - 1 := rfl
    omega

/-- There is no element at an index from the length on, unless no index follows. -/
theorem getElem?_of_denseLen_le {index : UInt32} (h : denseLen values ≤ index)
    (hlt : index < stop) : values[index.toNat]? = none := by
  rw [denseLen] at h
  split at h
  · next hlen =>
    rw [UInt32.le_iff_toNat_le, UInt32.toNat_ofNat', Nat.mod_eq_of_lt hlen] at h
    exact List.getElem?_eq_none h
  · have hmax : ((2 : UInt32) ^ 32 - 1).toNat = 2 ^ 32 - 1 := rfl
    have hstop := stop.toNat_lt
    rw [UInt32.le_iff_toNat_le, hmax] at h
    rw [UInt32.lt_iff_toNat_lt] at hlt
    omega

/-- A range that starts where there is no element. -/
theorem scan_of_none {read : UInt32 → Option ElementValue} {test : ElementValue → Bool}
    (hlt : start < stop) (hnone : read start = none) (n : ℕ) :
    scan read test (indices start stop) n = .gaveUp start n := by
  rw [UInt32.lt_iff_toNat_lt] at hlt
  obtain ⟨m, hm⟩ : ∃ m, stop.toNat - start.toNat = m + 1 :=
    ⟨stop.toNat - start.toNat - 1, by omega⟩
  rw [indices, hm, List.range'_succ, List.map_cons, UInt32.ofNat_toNat, scan, hnone]

/-- **Boxed values are scanned element by element.** -/
theorem indexOfDense_eq_scan (hle : start ≤ stop) :
    indexOfDense values start stop search =
      some (scan (fun i : UInt32 => values[i.toNat]?) search.strictEquals
        (indices start stop) 0) := by
  rw [indexOfDense]
  split
  · next heq => rw [heq, indices_of_le (UInt32.le_refl _), scan]
  · next hne =>
    have hlt : start < stop := UInt32.lt_of_le_of_ne hle hne
    split
    · next hlen => rw [scan_of_none hlt (getElem?_of_denseLen_le hlen hlt)]
    · next hlen =>
      dsimp only
      generalize hscanEnd : (if stop ≤ denseLen values then stop else denseLen values) = scanEnd
      have hstart : start ≤ scanEnd := by
        rw [← hscanEnd]
        split
        · exact hle
        · exact UInt32.le_of_lt (UInt32.not_le.mp hlen)
      have hstop : scanEnd ≤ stop := by
        rw [← hscanEnd]
        split
        · exact UInt32.le_refl _
        · next h => exact UInt32.le_of_lt (UInt32.not_le.mp h)
      have hvalues : scanEnd.toNat ≤ values.length := by
        refine le_trans ?_ (toNat_denseLen_le values)
        rw [← UInt32.le_iff_toNat_le, ← hscanEnd]
        split
        · next h => exact h
        · exact UInt32.le_refl _
      have hlength : ((values.take scanEnd.toNat).drop start.toNat).length
          = scanEnd.toNat - start.toNat := by
        rw [List.length_drop, List.length_take_of_le hvalues]
      have hslice : searchSlice search start ((values.take scanEnd.toNat).drop start.toNat) 0 0 =
          scan (fun i : UInt32 => values[i.toNat]?) search.strictEquals
            (indices start scanEnd) 0 := by
        have hend := scanEnd.toNat_lt
        have hstart' := UInt32.le_iff_toNat_le.mp hstart
        rw [searchSlice_eq_scan (fun j hj => ?_) (by rw [hlength]; omega), hlength, indices,
          Nat.add_zero]
        rw [hlength] at hj
        rw [List.getElem?_drop, List.getElem?_take_of_lt (by omega), Nat.add_zero]
      rw [if_neg (UInt32.not_lt.mpr hstart), hslice, indices_append hstart hstop, scan_append]
      cases scan (fun i : UInt32 => values[i.toNat]?) search.strictEquals
        (indices start scanEnd) 0 with
      | found i scanned => rfl
      | gaveUp i scanned => rfl
      | notFound scanned =>
          dsimp only
          split
          · next hshort =>
            have hdense : denseLen values ≤ scanEnd := by
              rw [← hscanEnd] at hshort ⊢
              split at hshort
              · exact absurd hshort (UInt32.lt_irrefl _)
              · next h => rw [if_neg h]; exact UInt32.le_refl _
            rw [scan_of_none hshort (getElem?_of_denseLen_le hdense hshort)]
          · next hlong =>
            rw [indices_of_le (UInt32.not_lt.mp hlong), scan]

/-- Boxed values, for a range that ends before it starts. -/
theorem indexOfDense_of_lt {r : Outcome UInt32} (hlt : stop < start)
    (h : indexOfDense values start stop search = some r) : r = .gaveUp start 0 := by
  rw [indexOfDense, if_neg (UInt32.ne_of_lt hlt).symm] at h
  split at h
  · exact (Option.some.inj h).symm
  · have hend : (if stop ≤ denseLen values then stop else denseLen values) < start := by
      split
      · exact hlt
      · next hlen => exact UInt32.lt_trans (UInt32.not_le.mp hlen) hlt
    dsimp only at h
    rw [if_pos hend] at h
    cases h

end Dense

/-! ### All storage -/

/-- **Every storage is scanned element by element.** -/
theorem indexOf_eq_scan (p : IndexedProperties OtherValue) (search : ElementValue)
    {start stop : UInt32} (hle : start ≤ stop) :
    p.indexOfContiguousOwnData start stop search =
      some (scan p.ownData search.isStrictlyEqual (indices start stop) 0) := by
  rw [← funext (ElementValue.strictEquals_eq search),
    ← funext fun index => getIndexedDataProperty_eq p index]
  cases p with
  | denseElement values => exact indexOfDense_eq_scan hle
  | denseReadOnlyElement values => exact indexOfDense_eq_scan hle
  | denseI32 values => rfl
  | denseF64 values => rfl
  | sparseElement map => rfl
  | sparseProperty map => rfl

/-- A range that ends before it starts: there is nothing to scan, or a place to go on at. -/
theorem indexOf_of_lt {p : IndexedProperties OtherValue} {search : ElementValue}
    {start stop : UInt32} (hlt : stop < start) {r : Outcome UInt32}
    (h : p.indexOfContiguousOwnData start stop search = some r) :
    r = .notFound 0 ∨ r = .gaveUp start 0 := by
  have hloop : scan p.loopValue search.strictEquals (indices start stop) 0 = .notFound 0 := by
    rw [indices_of_le (UInt32.le_of_lt hlt), scan]
  cases p with
  | denseElement values => exact .inr (indexOfDense_of_lt hlt h)
  | denseReadOnlyElement values => exact .inr (indexOfDense_of_lt hlt h)
  | denseI32 values => exact .inl ((Option.some.inj h).symm.trans hloop)
  | denseF64 values => exact .inl ((Option.some.inj h).symm.trans hloop)
  | sparseElement map => exact .inl ((Option.some.inj h).symm.trans hloop)
  | sparseProperty map => exact .inl ((Option.some.inj h).symm.trans hloop)

/-- The indices are own data properties with values unequal to the one searched for. -/
def Excluded (p : IndexedProperties OtherValue) (search : ElementValue) (start stop : UInt32) :
    Prop :=
  ∀ i, start ≤ i → i < stop → ∃ v, p.ownData i = some v ∧ search.isStrictlyEqual v = false

theorem excluded_of_passed {p : IndexedProperties OtherValue} {search : ElementValue}
    {start stop : UInt32} (h : Passed p.ownData search.isStrictlyEqual (indices start stop)) :
    p.Excluded search start stop := fun i hle hlt => h i (mem_indices.mpr ⟨hle, hlt⟩)

/-- What an outcome says about the own data properties of a range. -/
def Justifies (p : IndexedProperties OtherValue) (search : ElementValue) (start stop : UInt32) :
    Outcome UInt32 → Prop
  | .found i scanned => start ≤ i ∧ i < stop ∧ p.Excluded search start i ∧
      (∃ v, p.ownData i = some v ∧ search.isStrictlyEqual v = true) ∧
      scanned = i.toNat - start.toNat + 1
  | .notFound scanned => p.Excluded search start stop ∧ scanned = stop.toNat - start.toNat
  | .gaveUp i scanned => start ≤ i ∧ (start < stop → i < stop ∧ p.ownData i = none) ∧
      p.Excluded search start i ∧ scanned = i.toNat - start.toNat

/-- What the outcome leaves to a loop over the elements that may run user code: its answer, or
the loop from the index on at which the search gave up. -/
def Leaves {σ ε : Type} (readAll : UInt32 → σ → Except ε (Option ElementValue) × σ)
    (search : ElementValue) (stop : UInt32) (s : σ) : Outcome UInt32 → Except ε (Option UInt32) × σ
  | .found i _ => (.ok (some i), s)
  | .notFound _ => (.ok none, s)
  | .gaveUp i _ => loop readAll search.isStrictlyEqual (indices i stop) s

theorem justifies_of_le {p : IndexedProperties OtherValue} {search : ElementValue}
    {start stop : UInt32} :
    p.Justifies search start stop
      (scan p.ownData search.isStrictlyEqual (indices start stop) 0) := by
  have hspec := scan_spec p.ownData search.isStrictlyEqual (indices start stop) 0
  generalize scan p.ownData search.isStrictlyEqual (indices start stop) 0 = r at hspec ⊢
  cases r with
  | found i scanned =>
      obtain ⟨l₁, l₂, hsplit, hpassed, hfound, rfl⟩ := hspec
      have hmem : i ∈ indices start stop := by rw [hsplit]; simp
      obtain ⟨hle, hlt⟩ := mem_indices.mp hmem
      obtain ⟨rfl, -⟩ := indices_eq_append_cons hsplit
      exact ⟨hle, hlt, excluded_of_passed hpassed, hfound, by rw [length_indices]; omega⟩
  | notFound scanned =>
      obtain ⟨hpassed, rfl⟩ := hspec
      exact ⟨excluded_of_passed hpassed, by rw [length_indices]; omega⟩
  | gaveUp i scanned =>
      obtain ⟨l₁, l₂, hsplit, hpassed, hnone, rfl⟩ := hspec
      have hmem : i ∈ indices start stop := by rw [hsplit]; simp
      obtain ⟨hle, hlt⟩ := mem_indices.mp hmem
      obtain ⟨rfl, -⟩ := indices_eq_append_cons hsplit
      exact ⟨hle, fun _ => ⟨hlt, hnone⟩, excluded_of_passed hpassed,
        by rw [length_indices]; omega⟩

theorem leaves_scan {p : IndexedProperties OtherValue} {search : ElementValue}
    {start stop : UInt32} {σ ε : Type}
    {readAll : UInt32 → σ → Except ε (Option ElementValue) × σ} (h : Extends readAll p.ownData)
    (s : σ) :
    loop readAll search.isStrictlyEqual (indices start stop) s =
      Leaves readAll search stop s
        (scan p.ownData search.isStrictlyEqual (indices start stop) 0) := by
  have hloop := loop_eq_of_scan search.isStrictlyEqual h (indices start stop) 0 s
  generalize scan p.ownData search.isStrictlyEqual (indices start stop) 0 = r at hloop ⊢
  cases r with
  | found i scanned => exact hloop
  | notFound scanned => exact hloop
  | gaveUp i scanned =>
      obtain ⟨l₁, l₂, hsplit, heq⟩ := hloop
      rw [heq, (indices_eq_append_cons hsplit).2, Leaves]

/-- **The search agrees with the element-by-element scan.** It gives an outcome for every range
that does not end before it starts. Any outcome says which own data properties of the range were
compared and how, and it is what the loop over all elements makes of the range, for every way of
reading elements that reads own data properties without running user code. -/
theorem indexOf_agrees (p : IndexedProperties OtherValue) (search : ElementValue)
    (start stop : UInt32) :
    (start ≤ stop → (p.indexOfContiguousOwnData start stop search).isSome) ∧
      ∀ r, p.indexOfContiguousOwnData start stop search = some r →
        p.Justifies search start stop r ∧
          ∀ (σ ε : Type) (readAll : UInt32 → σ → Except ε (Option ElementValue) × σ),
            Extends readAll p.ownData → ∀ s,
              loop readAll search.isStrictlyEqual (indices start stop) s =
                Leaves readAll search stop s r := by
  refine ⟨fun hle => by rw [indexOf_eq_scan p search hle]; rfl, fun r h => ?_⟩
  by_cases hle : start ≤ stop
  · rw [indexOf_eq_scan p search hle, Option.some.injEq] at h
    subst h
    exact ⟨justifies_of_le, fun σ ε readAll hextends s => leaves_scan hextends s⟩
  · have hlt := UInt32.not_le.mp hle
    have hempty : indices start stop = [] := indices_of_le (UInt32.le_of_lt hlt)
    have hexcluded : ∀ {i}, i ≤ start → p.Excluded search start i := fun hi j hj hji =>
      absurd (UInt32.lt_of_le_of_lt hj hji) (UInt32.not_lt.mpr hi)
    have hsub : stop.toNat - start.toNat = 0 :=
      Nat.sub_eq_zero_of_le (UInt32.le_iff_toNat_le.mp (UInt32.le_of_lt hlt))
    rcases indexOf_of_lt hlt h with rfl | rfl
    · refine ⟨⟨hexcluded (UInt32.le_of_lt hlt), hsub.symm⟩, fun σ ε readAll _ s => ?_⟩
      rw [hempty, loop, Leaves]
    · refine ⟨⟨UInt32.le_refl _, fun h => absurd h (UInt32.lt_asymm hlt),
        hexcluded (UInt32.le_refl _), (Nat.sub_self _).symm⟩, fun σ ε readAll _ s => ?_⟩
      rw [hempty, Leaves, hempty]

end IndexedProperties

end BoaLigero
