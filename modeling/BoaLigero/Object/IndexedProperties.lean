import Mathlib.Data.UInt
import BoaLigero.Object.PropertyMap
import BoaLigero.Util.Double
import Mathlib.Logic.Function.Basic

/-!
# Indexed Properties

The properties of an object whose keys are array indices (`object/property_map.rs`). They
are stored in one of six ways: as a vector of 32-bit integers, of doubles, of values, or of
values of read-only properties, where the index is the key; or as a hash map from keys to
values or to whole descriptors. Insertions and removals change from one to another.

A number read back may be an integer where a double was stored and the other way round, but
it is the same number; `settled` descriptors have their numbers as doubles.

## Main results

* `view_insert`, `view_remove` — insertion and removal are those of a finite map.
* `view_pushDense`, `view_setDenseProperty` — so are the fast paths for dense storage.
* `nodup_keys`, `mem_keys_iff` — every present key is enumerated once.
-/

namespace BoaLigero

/-- A value, as far as numbers are concerned: an integer, a double, or another value. -/
inductive JsVariant (P : Type) where
  | integer32 (n : Int32)
  | float64 (x : F64)
  | other (value : P)
  deriving DecidableEq

namespace JsVariant

variable {P : Type}

/-- The value as an integer, if it is an integer or a double that is one bit for bit. -/
def asI32 : JsVariant P → Option Int32
  | integer32 n => some n
  | float64 x => if x = .ofInt32 x.toInt32 then some x.toInt32 else none
  | other _ => none

/-- The value as a double, if it is a number. -/
def asNumber : JsVariant P → Option F64
  | integer32 n => some (.ofInt32 n)
  | float64 x => some x
  | other _ => none

/-- The value with an integer written as a double. -/
def settled : JsVariant P → JsVariant P
  | integer32 n => float64 (.ofInt32 n)
  | value => value

/-- An integer is seen as the double it stands for. -/
@[simp] theorem settled_integer32 (n : Int32) :
    (integer32 n : JsVariant P).settled = float64 (.ofInt32 n) := rfl

/-- A double is seen as it is. -/
@[simp] theorem settled_float64 (x : F64) : (float64 x : JsVariant P).settled = float64 x := rfl

/-- An integer that a value is held as is the same number. -/
theorem settled_of_asI32 {value : JsVariant P} {n : Int32} (h : value.asI32 = some n) :
    value.settled = float64 (.ofInt32 n) := by
  cases value with
  | integer32 m => cases h; rfl
  | float64 x =>
      rw [asI32] at h
      split at h
      · next hx =>
        cases h
        rw [settled_float64, ← hx]
      · cases h
  | other p => cases h

/-- A double that a value is held as is the same number. -/
theorem settled_of_asNumber {value : JsVariant P} {x : F64} (h : value.asNumber = some x) :
    value.settled = float64 x := by
  cases value with
  | integer32 m => cases h; rfl
  | float64 y => cases h; rfl
  | other p => cases h

end JsVariant

namespace PropertyDescriptor

variable {P : Type}

/-- The kind of descriptor with numbers as doubles, and not writable by default. -/
def settledKind : DescriptorKind (JsVariant P) → DescriptorKind (JsVariant P)
  | .data value writable => .data (value.map .settled) (some (writable.getD false))
  | .accessor get set => .accessor (get.map .settled) (set.map .settled)
  | .generic => .generic

/-- The descriptor with numbers as doubles; a data property is not writable by default. -/
def settled (d : PropertyDescriptor (JsVariant P)) : PropertyDescriptor (JsVariant P) :=
  { d with kind := settledKind d.kind }

/-- A data property is seen with its value as it is seen and with its attributes. -/
@[simp] theorem settled_ofData (value : JsVariant P) (writable enumerable configurable : Bool) :
    (ofData value writable enumerable configurable).settled
      = ofData value.settled writable enumerable configurable := rfl

end PropertyDescriptor

/-- The indexed properties of an object. -/
inductive IndexedProperties (P : Type) where
  | denseI32 (vec : List Int32)
  | denseF64 (vec : List F64)
  | denseElement (vec : List (JsVariant P))
  | denseReadOnlyElement (vec : List (JsVariant P))
  | sparseElement (map : OrderedMap UInt32 (JsVariant P))
  | sparseProperty (map : OrderedMap UInt32 (PropertyDescriptor (JsVariant P)))

namespace IndexedProperties

variable {P : Type}

/-- The length of a vector, as a key. -/
def len {T : Type} (vec : List T) : UInt32 := .ofNat vec.length

/-- The descriptor of an element: writable, enumerable and configurable. -/
def simple (value : JsVariant P) : PropertyDescriptor (JsVariant P) := .ofData value true true true

/-- The descriptor of a read-only element. -/
def readonly (value : JsVariant P) : PropertyDescriptor (JsVariant P) :=
  .ofData value false true true

/-- No properties. -/
def default : IndexedProperties P := .denseI32 []

/-- `from_dense_js_value`: the densest storage that holds all values. -/
def fromDenseJsValue (elements : List (JsVariant P)) : IndexedProperties P :=
  if elements = [] then default else .denseElement elements

/-- The value of a property that is stored as an element. -/
def propertySimpleValue (property : PropertyDescriptor (JsVariant P)) : Option (JsVariant P) :=
  if property.writable.getD false && property.enumerable.getD false &&
      property.configurable.getD false then property.value
  else none

/-- The value of a property that is stored as a read-only element. -/
def propertyReadonlyValue (property : PropertyDescriptor (JsVariant P)) :
    Option (JsVariant P) :=
  if !property.writable.getD false && property.enumerable.getD false &&
      property.configurable.getD false && property.isDataDescriptor then property.value
  else none

/-- Get a property descriptor if it exists. -/
def get (p : IndexedProperties P) (key : UInt32) : Option (PropertyDescriptor (JsVariant P)) :=
  match p with
  | .denseI32 vec => vec[key.toNat]?.map fun n => simple (.integer32 n)
  | .denseF64 vec => vec[key.toNat]?.map fun x => simple (.float64 x)
  | .denseElement vec => vec[key.toNat]?.map simple
  | .denseReadOnlyElement vec => vec[key.toNat]?.map readonly
  | .sparseElement map => (map.get? key).map simple
  | .sparseProperty map => map.get? key

/-- The elements of a vector by their indices. -/
def collect {T : Type} (vec : List T) : OrderedMap UInt32 T :=
  vec.zipIdx.foldl (fun map (value, index) => map.insert (.ofNat index) value) .empty

/-- A hash map whose values are replaced. -/
def mapValues {T U : Type} (f : T → U) (map : OrderedMap UInt32 T) : OrderedMap UInt32 U :=
  ⟨map.entries.map fun e => (e.1, f e.2), by rw [Assoc.keys_mapValues]; exact map.nodup⟩

/-- Insert into a hash map; whether the key was there is returned. -/
def insertReplacing {T : Type} (map : OrderedMap UInt32 T) (key : UInt32) (value : T) :
    Bool × OrderedMap UInt32 T :=
  ((map.get? key).isSome, map.insert key value)

/-- Remove from a hash map; whether the key was there is returned. -/
def removeExisting {T : Type} (map : OrderedMap UInt32 T) (key : UInt32) :
    Bool × OrderedMap UInt32 T :=
  ((map.get? key).isSome, map.erase key)

/-- The properties by key, with whole descriptors (the conversion at the start of
`convert_to_sparse_and_insert`). -/
def toDescriptors (p : IndexedProperties P) :
    OrderedMap UInt32 (PropertyDescriptor (JsVariant P)) :=
  match p with
  | .denseI32 vec => collect (vec.map fun n => simple (.integer32 n))
  | .denseF64 vec => collect (vec.map fun x => simple (.float64 x))
  | .denseElement vec => collect (vec.map simple)
  | .denseReadOnlyElement vec => collect (vec.map readonly)
  | .sparseElement map => mapValues simple map
  | .sparseProperty map => map

/-- `convert_to_sparse_and_insert`: the storage becomes a map, with all attributes where one asks
for it. -/
def convertToSparseAndInsert (p : IndexedProperties P) (key : UInt32)
    (property : PropertyDescriptor (JsVariant P)) : Bool × IndexedProperties P :=
  (insertReplacing p.toDescriptors key property).map id .sparseProperty

/-- Push a value one past the last element, or set an element. -/
def pushOrSet {T : Type} (vec : List T) (key : UInt32) (value : T) : Bool × List T :=
  if key = len vec then (false, vec ++ [value]) else (true, vec.set key.toNat value)

/-- Insert the value of a simple property. -/
def insertSimple (p : IndexedProperties P) (key : UInt32) (value : JsVariant P)
    (property : PropertyDescriptor (JsVariant P)) : Bool × IndexedProperties P :=
  match p with
  | .denseI32 vec =>
      if key ≤ len vec then
        match value.asI32 with
        | some val => (pushOrSet vec key val).map id .denseI32
        | none =>
            match value.asNumber with
            | some num => (pushOrSet (vec.map .ofInt32) key num).map id .denseF64
            | none => (pushOrSet (vec.map .integer32) key value).map id .denseElement
      -- Creating a hole.
      else (insertReplacing (collect (vec.map .integer32)) key value).map id .sparseElement
  | .denseF64 vec =>
      if key ≤ len vec then
        match value.asNumber with
        | some num => (pushOrSet vec key num).map id .denseF64
        | none => (pushOrSet (vec.map .float64) key value).map id .denseElement
      else (insertReplacing (collect (vec.map .float64)) key value).map id .sparseElement
  | .denseElement vec =>
      if key ≤ len vec then (pushOrSet vec key value).map id .denseElement
      else (insertReplacing (collect vec) key value).map id .sparseElement
  | .denseReadOnlyElement vec =>
      convertToSparseAndInsert (.denseReadOnlyElement vec) key property
  | .sparseElement map => (insertReplacing map key value).map id .sparseElement
  | .sparseProperty map => (insertReplacing map key (simple value)).map id .sparseProperty

/-- Insert the value of a read-only property. -/
def insertReadonly (p : IndexedProperties P) (key : UInt32) (value : JsVariant P)
    (property : PropertyDescriptor (JsVariant P)) : Bool × IndexedProperties P :=
  match p with
  | .denseI32 [] =>
      if key = 0 then (false, .denseReadOnlyElement [value])
      else convertToSparseAndInsert (.denseI32 []) key property
  | .denseReadOnlyElement vec =>
      if key ≤ len vec then (pushOrSet vec key value).map id .denseReadOnlyElement
      else convertToSparseAndInsert (.denseReadOnlyElement vec) key property
  | p => convertToSparseAndInsert p key property

/-- Inserts a property descriptor with the specified key; whether the key was there is
returned. -/
def insert (p : IndexedProperties P) (key : UInt32)
    (property : PropertyDescriptor (JsVariant P)) : Bool × IndexedProperties P :=
  match propertyReadonlyValue property with
  | some value => p.insertReadonly key value property
  | none =>
      match propertySimpleValue property with
      | some value => p.insertSimple key value property
      | none => p.convertToSparseAndInsert key property

/-- `convert_to_sparse_and_remove`: the storage becomes a map from which the key is taken. -/
def convertToSparseAndRemove (p : IndexedProperties P) (key : UInt32) :
    Bool × IndexedProperties P :=
  match p with
  | .denseI32 vec => (removeExisting (collect (vec.map .integer32)) key).map id .sparseElement
  | .denseF64 vec => (removeExisting (collect (vec.map .float64)) key).map id .sparseElement
  | .denseElement vec => (removeExisting (collect vec) key).map id .sparseElement
  | .denseReadOnlyElement vec =>
      (removeExisting (collect (vec.map readonly)) key).map id .sparseProperty
  | .sparseElement map => (removeExisting map key).map id .sparseElement
  | .sparseProperty map => (removeExisting map key).map id .sparseProperty

/-- Remove from dense storage: pop the last element, ignore a key out of range, and convert
to sparse storage otherwise. -/
def removeDense {T : Type} (vec : List T) (ofVec : List T → IndexedProperties P)
    (key : UInt32) : Bool × IndexedProperties P :=
  if key + 1 = len vec then (true, ofVec vec.dropLast)
  else if len vec ≤ key then (false, ofVec vec)
  else convertToSparseAndRemove (ofVec vec) key

/-- Removes a property descriptor with the specified key; whether the key was there is
returned. -/
def remove (p : IndexedProperties P) (key : UInt32) : Bool × IndexedProperties P :=
  match p with
  | .denseI32 vec => removeDense vec .denseI32 key
  | .denseF64 vec => removeDense vec .denseF64 key
  | .denseElement vec => removeDense vec .denseElement key
  | .denseReadOnlyElement vec => removeDense vec .denseReadOnlyElement key
  | .sparseElement map => (removeExisting map key).map id .sparseElement
  | .sparseProperty map => (removeExisting map key).map id .sparseProperty

/-- Check if a key is there. -/
def containsKey (p : IndexedProperties P) (key : UInt32) : Bool :=
  match p with
  | .denseI32 vec => key < len vec
  | .denseF64 vec => key < len vec
  | .denseElement vec => key < len vec
  | .denseReadOnlyElement vec => key < len vec
  | .sparseElement map => (map.get? key).isSome
  | .sparseProperty map => (map.get? key).isSome

/-- Pushes a value to the end of dense storage; whether the storage is dense is returned. -/
def pushDense (p : IndexedProperties P) (value : JsVariant P) : Bool × IndexedProperties P :=
  match p with
  | .denseI32 vec =>
      match value.asI32 with
      | some n => (true, .denseI32 (vec ++ [n]))
      | none =>
          match value.asNumber with
          | some x => (true, .denseF64 (vec.map .ofInt32 ++ [x]))
          | none => (true, .denseElement (vec.map .integer32 ++ [value]))
  | .denseF64 vec =>
      match value.asNumber with
      | some x => (true, .denseF64 (vec ++ [x]))
      | none => (true, .denseElement (vec.map .float64 ++ [value]))
  | .denseElement vec => (true, .denseElement (vec ++ [value]))
  | p => (false, p)

/-- Transform dense storage into sparse storage. -/
def transformToSparse (p : IndexedProperties P) : IndexedProperties P :=
  match p with
  | .denseI32 vec => .sparseElement (collect (vec.map .integer32))
  | .denseF64 vec => .sparseElement (collect (vec.map .float64))
  | .denseElement vec => .sparseElement (collect vec)
  | .denseReadOnlyElement vec => .sparseProperty (collect (vec.map readonly))
  | p => p

/-- Sets an element of dense storage; whether there is such an element is returned. -/
def setDenseProperty (p : IndexedProperties P) (index : UInt32) (value : JsVariant P) :
    Bool × IndexedProperties P :=
  match p with
  | .denseI32 properties =>
      if index.toNat < properties.length then
        match value with
        | .integer32 n => (true, .denseI32 (properties.set index.toNat n))
        | .float64 x =>
            if x = .ofInt32 x.toInt32 then
              (true, .denseI32 (properties.set index.toNat x.toInt32))
            else (true, .denseF64 ((properties.map .ofInt32).set index.toNat x))
        | value => (true, .denseElement ((properties.map .integer32).set index.toNat value))
      else (false, p)
  | .denseF64 properties =>
      if index.toNat < properties.length then
        match value.asNumber with
        | some x => (true, .denseF64 (properties.set index.toNat x))
        | none => (true, .denseElement ((properties.map .float64).set index.toNat value))
      else (false, p)
  | .denseElement properties =>
      if index.toNat < properties.length then
        (true, .denseElement (properties.set index.toNat value))
      else (false, p)
  | p => (false, p)

/-- The keys of dense storage. -/
def range (len : UInt32) : List UInt32 := (List.range len.toNat).map .ofNat

/-- The keys, in arbitrary order. -/
def keys (p : IndexedProperties P) : List UInt32 :=
  match p with
  | .denseI32 vec => range (len vec)
  | .denseF64 vec => range (len vec)
  | .denseElement vec => range (len vec)
  | .denseReadOnlyElement vec => range (len vec)
  | .sparseElement map => map.keys
  | .sparseProperty map => map.keys

/-! ### Elements by key -/

section Elements

variable {T U : Type}

/-- The length of a dense storage is not cut down by its 32 bits. -/
theorem toNat_len {vec : List T} (h : vec.length < 2 ^ 32) : (len vec).toNat = vec.length := by
  rw [len, UInt32.toNat_ofNat', Nat.mod_eq_of_lt h]

/-- A key is the length of a dense storage if and only if it is one behind its last index. -/
theorem eq_len_iff {vec : List T} (h : vec.length < 2 ^ 32) {key : UInt32} :
    key = len vec ↔ key.toNat = vec.length := by
  rw [← UInt32.toNat_inj, toNat_len h]

/-- Collecting one more value puts it under the next index. -/
theorem collect_concat (vec : List T) (value : T) :
    collect (vec ++ [value]) = (collect vec).insert (len vec) value := by
  simp [collect, List.zipIdx_append, len]

/-- **Elements are collected under their indices.** -/
theorem get?_collect {vec : List T} (h : vec.length ≤ 2 ^ 32) (key : UInt32) :
    (collect vec).get? key = vec[key.toNat]? := by
  induction vec using List.reverseRecOn with
  | nil => rfl
  | append_singleton vec value ih =>
      rw [List.length_append, List.length_singleton] at h
      have hlt : vec.length < 2 ^ 32 := by omega
      rw [collect_concat, OrderedMap.get?_insert, ih (by omega), List.getElem?_append]
      by_cases hkey : key = len vec
      · have hnat := (eq_len_iff hlt).mp hkey
        rw [if_pos hkey, if_neg (by omega), hnat, Nat.sub_self]
        rfl
      · have hnat : key.toNat ≠ vec.length := fun heq => hkey ((eq_len_iff hlt).mpr heq)
        rw [if_neg hkey]
        split
        · rfl
        · rw [List.getElem?_eq_none (by omega), List.getElem?_eq_none (by simp; omega)]

/-- Mapping the values of a map maps what is found. -/
theorem get?_mapValues (f : T → U) (map : OrderedMap UInt32 T) (key : UInt32) :
    (mapValues f map).get? key = (map.get? key).map f :=
  Assoc.lookup_mapValues f map.entries key

/-- What `pushOrSet` does for a key up to the end. -/
theorem getElem?_pushOrSet {vec : List T} (h : vec.length < 2 ^ 32) {key : UInt32}
    (hkey : key ≤ len vec) (value : T) :
    (pushOrSet vec key value).1 = vec[key.toNat]?.isSome ∧
      ∀ k : UInt32, (pushOrSet vec key value).2[k.toNat]?
        = if k = key then some value else vec[k.toNat]? := by
  have hle : key.toNat ≤ vec.length := toNat_len h ▸ UInt32.le_iff_toNat_le.mp hkey
  rw [pushOrSet]
  split
  · next heq =>
    have hnat := (eq_len_iff h).mp heq
    refine ⟨by rw [List.getElem?_eq_none (by omega)]; rfl, fun k => ?_⟩
    rw [List.getElem?_append]
    by_cases hk : k = key
    · subst hk
      rw [if_neg (by omega), if_pos rfl, hnat, Nat.sub_self]
      rfl
    · have hne : k.toNat ≠ vec.length := fun hk' => hk (UInt32.toNat_inj.mp (hk'.trans hnat.symm))
      rw [if_neg hk]
      split
      · rfl
      · rw [List.getElem?_eq_none (by simp; omega), List.getElem?_eq_none (by omega)]
  · next hne =>
    have hlt : key.toNat < vec.length :=
      Nat.lt_of_le_of_ne hle fun heq => hne ((eq_len_iff h).mpr heq)
    refine ⟨by rw [List.getElem?_eq_getElem hlt]; rfl, fun k => ?_⟩
    rw [List.getElem?_set]
    by_cases hk : k = key
    · subst hk
      rw [if_pos rfl, if_pos rfl, if_pos hlt]
    · have hnat : key.toNat ≠ k.toNat := fun h' => hk (UInt32.toNat_inj.mp h').symm
      rw [if_neg hk, if_neg hnat]

end Elements

/-! ### Views -/

/-- The properties by key, with numbers as doubles. -/
def view (p : IndexedProperties P) (key : UInt32) : Option (PropertyDescriptor (JsVariant P)) :=
  (p.get key).map .settled

/-- Every element of dense storage has a key. -/
def Bounded : IndexedProperties P → Prop
  | .denseI32 vec => vec.length < 2 ^ 32
  | .denseF64 vec => vec.length < 2 ^ 32
  | .denseElement vec => vec.length < 2 ^ 32
  | .denseReadOnlyElement vec => vec.length < 2 ^ 32
  | _ => True

section Views

variable {key : UInt32}

/-- What is seen is there, and what is there is seen. -/
theorem isSome_view (p : IndexedProperties P) : (p.view key).isSome = (p.get key).isSome := by
  rw [view, Option.isSome_map]

/-- A dense integer is seen as a writable, enumerable and configurable double. -/
theorem view_denseI32 (vec : List Int32) :
    (.denseI32 vec : IndexedProperties P).view key
      = vec[key.toNat]?.map fun n => simple (.float64 (.ofInt32 n)) := by
  rw [view, get, Option.map_map]
  rfl

/-- A dense double is seen as a writable, enumerable and configurable value. -/
theorem view_denseF64 (vec : List F64) :
    (.denseF64 vec : IndexedProperties P).view key
      = vec[key.toNat]?.map fun x => simple (.float64 x) := by
  rw [view, get, Option.map_map]
  rfl

/-- A dense value is seen as a writable, enumerable and configurable one. -/
theorem view_denseElement (vec : List (JsVariant P)) :
    (denseElement vec).view key = vec[key.toNat]?.map fun v => simple v.settled := by
  rw [view, get, Option.map_map]
  rfl

/-- A dense value of a frozen array is seen as a read-only one. -/
theorem view_denseReadOnlyElement (vec : List (JsVariant P)) :
    (denseReadOnlyElement vec).view key = vec[key.toNat]?.map fun v => readonly v.settled := by
  rw [view, get, Option.map_map]
  rfl

/-- A value of a sparse storage is seen as a writable, enumerable and configurable one. -/
theorem view_sparseElement (map : OrderedMap UInt32 (JsVariant P)) :
    (sparseElement map).view key = (map.get? key).map fun v => simple v.settled := by
  rw [view, get, Option.map_map]
  rfl

/-- A property of a sparse storage is seen with its own attributes. -/
theorem view_sparseProperty (map : OrderedMap UInt32 (PropertyDescriptor (JsVariant P))) :
    (sparseProperty map).view key = (map.get? key).map .settled := rfl

/-- The conversion to whole descriptors changes nothing. -/
theorem get?_toDescriptors {p : IndexedProperties P} (hp : p.Bounded) :
    p.toDescriptors.get? key = p.get key := by
  cases p with
  | denseI32 vec | denseF64 vec | denseElement vec | denseReadOnlyElement vec =>
      rw [Bounded] at hp
      rw [toDescriptors, get?_collect (by rw [List.length_map]; omega), List.getElem?_map, get]
  | sparseElement map => exact get?_mapValues simple map key
  | sparseProperty map => rfl

end Views

/-! ### Insertion -/

/-- The result of an insertion: the answer whether the key was there, and the properties with
the new one. -/
structure Inserts (p : IndexedProperties P) (key : UInt32)
    (property : PropertyDescriptor (JsVariant P)) (r : Bool × IndexedProperties P) : Prop where
  answer : r.1 = (p.get key).isSome
  view : ∀ k, r.2.view k = if k = key then some property.settled else p.view k
  bounded : r.2.Bounded

section Insertion

variable {T : Type} {p : IndexedProperties P} {key : UInt32}
  {property : PropertyDescriptor (JsVariant P)} {f : T → PropertyDescriptor (JsVariant P)}
  {value : T}

/-- Insertion into a hash map. -/
theorem inserts_insertReplacing {ofMap : OrderedMap UInt32 T → IndexedProperties P}
    {map : OrderedMap UInt32 T} (hview : ∀ map k, (ofMap map).view k = (map.get? k).map f)
    (hbounded : ∀ map, (ofMap map).Bounded) (hp : ∀ k, p.view k = (map.get? k).map f)
    (hvalue : f value = property.settled) :
    Inserts p key property ((insertReplacing map key value).map id ofMap) where
  answer := by
    rw [← isSome_view, hp, Option.isSome_map]
    rfl
  view k := by
    change (ofMap (map.insert key value)).view k = _
    rw [hview, OrderedMap.get?_insert, hp]
    split
    · rw [Option.map_some, hvalue]
    · rfl
  bounded := hbounded _

/-- Insertion into dense storage. -/
theorem inserts_pushOrSet {ofVec : List T → IndexedProperties P} {vec : List T}
    (hview : ∀ vec k, (ofVec vec).view k = vec[k.toNat]?.map f)
    (hbounded : ∀ vec : List T, vec.length < 2 ^ 32 → (ofVec vec).Bounded)
    (hlen : vec.length < 2 ^ 32) (hp : ∀ k, p.view k = vec[k.toNat]?.map f)
    (hkey : key ≤ len vec) (hmax : key ≠ 2 ^ 32 - 1) (hvalue : f value = property.settled) :
    Inserts p key property ((pushOrSet vec key value).map id ofVec) where
  answer := by
    rw [← isSome_view, hp, Option.isSome_map]
    exact (getElem?_pushOrSet hlen hkey value).1
  view k := by
    change (ofVec (pushOrSet vec key value).2).view k = _
    rw [hview, (getElem?_pushOrSet hlen hkey value).2, hp]
    split
    · rw [Option.map_some, hvalue]
    · rfl
  bounded := by
    refine hbounded _ ?_
    change (pushOrSet vec key value).2.length < 2 ^ 32
    rw [pushOrSet]
    split
    · next heq =>
      have hnat := (eq_len_iff hlen).mp heq
      have hne : key.toNat ≠ 2 ^ 32 - 1 := fun h => hmax (UInt32.toNat_inj.mp h)
      have hlt := key.toNat_lt
      rw [List.length_append, List.length_singleton]
      omega
    · rw [List.length_set]
      exact hlen

/-- Turning a dense storage into a map and inserting there keeps all the other properties. -/
theorem inserts_convertToSparseAndInsert (hp : p.Bounded) :
    Inserts p key property (p.convertToSparseAndInsert key property) :=
  inserts_insertReplacing (fun _ _ => rfl) (fun _ => trivial)
    (fun k => by rw [get?_toDescriptors hp]; rfl) rfl

/-- A simple property is its value. -/
theorem eq_simple {value : JsVariant P} (h : propertySimpleValue property = some value) :
    property = simple value := by
  obtain ⟨enumerable, configurable, kind⟩ := property
  rw [propertySimpleValue] at h
  split at h
  · next hall =>
    simp only [Bool.and_eq_true] at hall
    obtain ⟨⟨hw, he⟩, hc⟩ := hall
    cases kind with
    | data v w =>
        simp only [PropertyDescriptor.value] at h
        simp only [PropertyDescriptor.writable] at hw
        subst h
        cases w <;> cases enumerable <;> cases configurable <;>
          simp_all [simple, PropertyDescriptor.ofData]
    | accessor get set => cases h
    | generic => cases h
  · cases h

/-- A read-only property is its value, where it says that it is not writable. -/
theorem settled_eq_readonly {value : JsVariant P}
    (h : propertyReadonlyValue property = some value) :
    property.settled = readonly value.settled := by
  obtain ⟨enumerable, configurable, kind⟩ := property
  rw [propertyReadonlyValue] at h
  split at h
  · next hall =>
    simp only [Bool.and_eq_true, Bool.not_eq_true'] at hall
    obtain ⟨⟨⟨hw, he⟩, hc⟩, -⟩ := hall
    cases kind with
    | data v w =>
        simp only [PropertyDescriptor.value] at h
        simp only [PropertyDescriptor.writable] at hw
        subst h
        cases enumerable <;> cases configurable <;>
          simp_all [readonly, PropertyDescriptor.settled, PropertyDescriptor.settledKind,
            PropertyDescriptor.ofData]
    | accessor get set => cases h
    | generic => cases h
  · cases h

/-- An element inserted as it is settles to the property. -/
theorem inserts_insertSimple {value : JsVariant P} (hp : p.Bounded) (hmax : key ≠ 2 ^ 32 - 1)
    (hvalue : propertySimpleValue property = some value) :
    Inserts p key property (p.insertSimple key value property) := by
  obtain rfl : property = simple value := eq_simple hvalue
  cases p with
  | denseI32 vec =>
      rw [Bounded] at hp
      rw [insertSimple]
      split
      · next hkey =>
        cases hi : value.asI32 with
        | some n =>
            exact inserts_pushOrSet (fun _ _ => view_denseI32 _) (fun _ h => h) hp
              (fun _ => view_denseI32 _) hkey hmax (by rw [← JsVariant.settled_of_asI32 hi]; rfl)
        | none =>
            cases hn : value.asNumber with
            | some x =>
                refine inserts_pushOrSet (fun _ _ => view_denseF64 _) (fun _ h => h) (by simpa using hp)
                  (fun k => ?_) (by simpa [len] using hkey) hmax
                  (by rw [← JsVariant.settled_of_asNumber hn]; rfl)
                rw [view_denseI32, List.getElem?_map, Option.map_map]
                rfl
            | none =>
                refine inserts_pushOrSet (fun _ _ => view_denseElement _) (fun _ h => h)
                  (by simpa using hp) (fun k => ?_) (by simpa [len] using hkey) hmax rfl
                rw [view_denseI32, List.getElem?_map, Option.map_map]
                rfl
      · refine inserts_insertReplacing (fun _ _ => view_sparseElement _) (fun _ => trivial)
          (fun k => ?_) rfl
        rw [view_denseI32, get?_collect (by rw [List.length_map]; omega), List.getElem?_map,
          Option.map_map]
        rfl
  | denseF64 vec =>
      rw [Bounded] at hp
      rw [insertSimple]
      split
      · next hkey =>
        cases hn : value.asNumber with
        | some x =>
            exact inserts_pushOrSet (fun _ _ => view_denseF64 _) (fun _ h => h) hp
              (fun _ => view_denseF64 _) hkey hmax (by rw [← JsVariant.settled_of_asNumber hn]; rfl)
        | none =>
            refine inserts_pushOrSet (fun _ _ => view_denseElement _) (fun _ h => h)
              (by simpa using hp) (fun k => ?_) (by simpa [len] using hkey) hmax rfl
            rw [view_denseF64, List.getElem?_map, Option.map_map]
            rfl
      · refine inserts_insertReplacing (fun _ _ => view_sparseElement _) (fun _ => trivial)
          (fun k => ?_) rfl
        rw [view_denseF64, get?_collect (by rw [List.length_map]; omega), List.getElem?_map,
          Option.map_map]
        rfl
  | denseElement vec =>
      rw [Bounded] at hp
      rw [insertSimple]
      split
      · next hkey =>
        exact inserts_pushOrSet (fun _ _ => view_denseElement _) (fun _ h => h) hp
          (fun _ => view_denseElement _) hkey hmax rfl
      · refine inserts_insertReplacing (fun _ _ => view_sparseElement _) (fun _ => trivial)
          (fun k => ?_) rfl
        rw [view_denseElement, get?_collect (by omega)]
  | denseReadOnlyElement vec => exact inserts_convertToSparseAndInsert hp
  | sparseElement map =>
      exact inserts_insertReplacing (fun _ _ => view_sparseElement _) (fun _ => trivial)
        (fun _ => view_sparseElement _) rfl
  | sparseProperty map =>
      exact inserts_insertReplacing (fun _ _ => view_sparseProperty _) (fun _ => trivial)
        (fun _ => view_sparseProperty _) rfl

/-- A frozen array takes a read-only value, or becomes a map. -/
theorem inserts_insertReadonly {value : JsVariant P} (hp : p.Bounded) (hmax : key ≠ 2 ^ 32 - 1)
    (hvalue : propertyReadonlyValue property = some value) :
    Inserts p key property (p.insertReadonly key value property) := by
  have hsettled := settled_eq_readonly hvalue
  cases p with
  | denseI32 vec =>
      cases vec with
      | nil =>
          rw [insertReadonly]
          split
          · next hkey =>
            subst hkey
            refine ⟨rfl, fun k => ?_, by simp [Bounded]⟩
            rw [view_denseReadOnlyElement, view_denseI32, hsettled]
            by_cases hk : k = 0
            · subst hk
              rfl
            · have hnat : k.toNat ≠ 0 := fun h => hk (UInt32.toNat_inj.mp h)
              rw [if_neg hk, List.getElem?_eq_none (by simp; omega)]
              rfl
          · exact inserts_convertToSparseAndInsert hp
      | cons n vec => exact inserts_convertToSparseAndInsert hp
  | denseReadOnlyElement vec =>
      rw [insertReadonly]
      split
      · next hkey =>
        exact inserts_pushOrSet (fun _ _ => view_denseReadOnlyElement _) (fun _ h => h) hp
          (fun _ => view_denseReadOnlyElement _) hkey hmax hsettled.symm
      · exact inserts_convertToSparseAndInsert hp
  | denseF64 vec => exact inserts_convertToSparseAndInsert hp
  | denseElement vec => exact inserts_convertToSparseAndInsert hp
  | sparseElement map => exact inserts_convertToSparseAndInsert hp
  | sparseProperty map => exact inserts_convertToSparseAndInsert hp

/-- **Insertion** puts the property under its key, in whichever storage. -/
theorem inserts_insert (hp : p.Bounded) (hmax : key ≠ 2 ^ 32 - 1) :
    Inserts p key property (p.insert key property) := by
  rw [insert]
  cases hr : propertyReadonlyValue property with
  | some value => exact inserts_insertReadonly hp hmax hr
  | none =>
      cases hs : propertySimpleValue property with
      | some value => exact inserts_insertSimple hp hmax hs
      | none => exact inserts_convertToSparseAndInsert hp

end Insertion

/-! ### Removal -/

/-- The result of a removal: the answer whether the key was there, and the properties without
it. -/
structure Removes (p : IndexedProperties P) (key : UInt32) (r : Bool × IndexedProperties P) :
    Prop where
  answer : r.1 = (p.get key).isSome
  view : ∀ k, r.2.view k = if k = key then none else p.view k
  bounded : r.2.Bounded

section Removal

variable {T : Type} {p : IndexedProperties P} {key : UInt32}
  {f : T → PropertyDescriptor (JsVariant P)}

/-- Removal from a hash map. -/
theorem removes_removeExisting {ofMap : OrderedMap UInt32 T → IndexedProperties P}
    {map : OrderedMap UInt32 T} (hview : ∀ map k, (ofMap map).view k = (map.get? k).map f)
    (hbounded : ∀ map, (ofMap map).Bounded) (hp : ∀ k, p.view k = (map.get? k).map f) :
    Removes p key ((removeExisting map key).map id ofMap) where
  answer := by
    rw [← isSome_view, hp, Option.isSome_map]
    rfl
  view k := by
    change (ofMap (map.erase key)).view k = _
    rw [hview, OrderedMap.get?_erase, hp]
    split <;> rfl
  bounded := hbounded _

/-- Turning a dense storage into a map and removing there keeps all the other properties. -/
theorem removes_convertToSparseAndRemove (hp : p.Bounded) :
    Removes p key (p.convertToSparseAndRemove key) := by
  cases p with
  | denseI32 vec =>
      rw [Bounded] at hp
      refine removes_removeExisting (fun _ _ => view_sparseElement _) (fun _ => trivial) fun k => ?_
      rw [view_denseI32, get?_collect (by rw [List.length_map]; omega), List.getElem?_map,
        Option.map_map]
      rfl
  | denseF64 vec =>
      rw [Bounded] at hp
      refine removes_removeExisting (fun _ _ => view_sparseElement _) (fun _ => trivial) fun k => ?_
      rw [view_denseF64, get?_collect (by rw [List.length_map]; omega), List.getElem?_map,
        Option.map_map]
      rfl
  | denseElement vec =>
      rw [Bounded] at hp
      refine removes_removeExisting (fun _ _ => view_sparseElement _) (fun _ => trivial) fun k => ?_
      rw [view_denseElement, get?_collect (by omega)]
  | denseReadOnlyElement vec =>
      rw [Bounded] at hp
      refine removes_removeExisting (fun _ _ => view_sparseProperty _) (fun _ => trivial) fun k => ?_
      rw [view_denseReadOnlyElement, get?_collect (by rw [List.length_map]; omega),
        List.getElem?_map, Option.map_map]
      rfl
  | sparseElement map =>
      exact removes_removeExisting (fun _ _ => view_sparseElement _) (fun _ => trivial)
        fun _ => view_sparseElement _
  | sparseProperty map =>
      exact removes_removeExisting (fun _ _ => view_sparseProperty _) (fun _ => trivial)
        fun _ => view_sparseProperty _

/-- Removal from dense storage. -/
theorem removes_removeDense {ofVec : List T → IndexedProperties P} {vec : List T}
    (hview : ∀ vec k, (ofVec vec).view k = vec[k.toNat]?.map f)
    (hbounded : ∀ vec : List T, (ofVec vec).Bounded ↔ vec.length < 2 ^ 32)
    (hlen : vec.length < 2 ^ 32) (hmax : key ≠ 2 ^ 32 - 1) :
    Removes (ofVec vec) key (removeDense vec ofVec key) := by
  have hne : key.toNat ≠ 2 ^ 32 - 1 := fun h => hmax (UInt32.toNat_inj.mp h)
  have hlt := key.toNat_lt
  have hsucc : (key + 1).toNat = key.toNat + 1 := by
    rw [UInt32.toNat_add]
    change (key.toNat + 1) % _ = _
    omega
  rw [removeDense]
  split
  · next hlast =>
    have hnat : key.toNat + 1 = vec.length := hsucc ▸ (eq_len_iff hlen).mp hlast
    refine ⟨?_, fun k => ?_, (hbounded _).mpr (by rw [List.length_dropLast]; omega)⟩
    · rw [← isSome_view, hview, Option.isSome_map, List.getElem?_eq_getElem (by omega)]
      rfl
    · rw [hview, hview, List.getElem?_dropLast]
      by_cases hk : k = key
      · subst hk
        rw [if_pos rfl, if_neg (by omega)]
        rfl
      · have hk' : k.toNat ≠ key.toNat := fun h => hk (UInt32.toNat_inj.mp h)
        rw [if_neg hk]
        split
        · rfl
        · rw [List.getElem?_eq_none (by omega)]
  · split
    · next hle =>
      have hnat : vec.length ≤ key.toNat := toNat_len hlen ▸ UInt32.le_iff_toNat_le.mp hle
      refine ⟨?_, fun k => ?_, (hbounded _).mpr hlen⟩
      · rw [← isSome_view, hview, Option.isSome_map, List.getElem?_eq_none hnat]
        rfl
      · split
        · next hk =>
          rw [hk, hview, List.getElem?_eq_none hnat]
          rfl
        · rfl
    · exact removes_convertToSparseAndRemove ((hbounded _).mpr hlen)

/-- **Removal** takes the key out, in whichever storage. -/
theorem removes_remove (hp : p.Bounded) (hmax : key ≠ 2 ^ 32 - 1) :
    Removes p key (p.remove key) := by
  cases p with
  | denseI32 vec =>
      exact removes_removeDense (fun _ _ => view_denseI32 _) (fun _ => .rfl) hp hmax
  | denseF64 vec =>
      exact removes_removeDense (fun _ _ => view_denseF64 _) (fun _ => .rfl) hp hmax
  | denseElement vec =>
      exact removes_removeDense (fun _ _ => view_denseElement _) (fun _ => .rfl) hp hmax
  | denseReadOnlyElement vec =>
      exact removes_removeDense (fun _ _ => view_denseReadOnlyElement _) (fun _ => .rfl) hp hmax
  | sparseElement map => exact removes_convertToSparseAndRemove trivial
  | sparseProperty map => exact removes_convertToSparseAndRemove trivial

end Removal

/-! ### Enumeration -/

section Enumeration

variable {p : IndexedProperties P}

/-- The indices below a bound are listed once each. -/
theorem nodup_range (n : UInt32) : (range n).Nodup := by
  refine List.Nodup.map_on (fun i hi j hj heq => ?_) List.nodup_range
  have hn := n.toNat_lt
  have hi' := List.mem_range.mp hi
  have hj' := List.mem_range.mp hj
  have hnat := congrArg UInt32.toNat heq
  rwa [UInt32.toNat_ofNat', UInt32.toNat_ofNat', Nat.mod_eq_of_lt (by omega),
    Nat.mod_eq_of_lt (by omega)] at hnat

/-- The indices below a bound are listed all. -/
theorem mem_range_iff {n k : UInt32} : k ∈ range n ↔ k < n := by
  rw [range, List.mem_map, UInt32.lt_iff_toNat_lt]
  constructor
  · rintro ⟨i, hi, rfl⟩
    rw [UInt32.toNat_ofNat']
    exact Nat.lt_of_le_of_lt (Nat.mod_le _ _) (List.mem_range.mp hi)
  · intro h
    exact ⟨k.toNat, List.mem_range.mpr h, UInt32.ofNat_toNat⟩

/-- **No key is enumerated twice.** -/
theorem nodup_keys (p : IndexedProperties P) : p.keys.Nodup := by
  cases p with
  | denseI32 vec | denseF64 vec | denseElement vec | denseReadOnlyElement vec =>
      exact nodup_range _
  | sparseElement map | sparseProperty map => exact map.nodup

/-- A key is contained if and only if a property is found under it. -/
theorem containsKey_eq {key : UInt32} (hp : p.Bounded) :
    p.containsKey key = (p.get key).isSome := by
  cases p with
  | denseI32 vec | denseF64 vec | denseElement vec | denseReadOnlyElement vec =>
      rw [Bounded] at hp
      have hiff : key < len vec ↔ key.toNat < vec.length := by
        rw [UInt32.lt_iff_toNat_lt, toNat_len hp]
      rw [containsKey, get, Option.isSome_map]
      by_cases hlt : key.toNat < vec.length <;> simp [hiff, hlt]
  | sparseElement map => rw [containsKey, get, Option.isSome_map]
  | sparseProperty map => rfl

/-- **Every present key is enumerated.** -/
theorem mem_keys_iff {key : UInt32} (hp : p.Bounded) : key ∈ p.keys ↔ (p.get key).isSome := by
  rw [← containsKey_eq hp]
  cases p with
  | denseI32 vec | denseF64 vec | denseElement vec | denseReadOnlyElement vec =>
      rw [keys, containsKey, mem_range_iff, decide_eq_true_iff]
  | sparseElement map | sparseProperty map => exact map.mem_keys_iff

end Enumeration

/-! ### Dense fast paths -/

section Dense

variable {T : Type} {p : IndexedProperties P} {value : JsVariant P}
  {f : T → PropertyDescriptor (JsVariant P)}

/-- The number of properties. -/
def count (p : IndexedProperties P) : ℕ := p.keys.length

/-- An element pushed onto a vector is under the next key. -/
theorem map_getElem?_concat {vec : List T} (hlen : vec.length < 2 ^ 32) (v : T) (k : UInt32) :
    (vec ++ [v])[k.toNat]?.map f = if k = len vec then some (f v) else vec[k.toNat]?.map f := by
  have heq : k = len vec ↔ k.toNat = vec.length := eq_len_iff hlen
  rw [List.getElem?_append]
  by_cases hk : k = len vec
  · have hnat := heq.mp hk
    rw [if_pos hk, if_neg (by omega), hnat, Nat.sub_self]
    rfl
  · have hne : k.toNat ≠ vec.length := fun h => hk (heq.mpr h)
    rw [if_neg hk]
    by_cases hlt : k.toNat < vec.length
    · rw [if_pos hlt]
    · rw [if_neg hlt, List.getElem?_eq_none (by omega : vec.length ≤ k.toNat),
        List.getElem?_eq_none (by simp; omega)]

/-- There are as many indices below a bound as the bound says. -/
theorem length_range (n : UInt32) : (range n).length = n.toNat := by
  rw [range, List.length_map, List.length_range]

/-- What pushing an element onto a vector comes to. -/
theorem view_concat {ofVec : List T → IndexedProperties P} {vec : List T} {v : T}
    (hview : ∀ vec k, (ofVec vec).view k = vec[k.toNat]?.map f)
    (hbounded : ∀ vec : List T, vec.length < 2 ^ 32 → (ofVec vec).Bounded)
    (hp : ∀ k, p.view k = vec[k.toNat]?.map f) (hcount : p.count = vec.length)
    (hlt : p.count < 2 ^ 32 - 1) (hv : f v = simple value.settled) :
    (ofVec (vec ++ [v])).Bounded ∧ ∀ k, (ofVec (vec ++ [v])).view k
      = if k = .ofNat p.count then some (simple value.settled) else p.view k := by
  refine ⟨hbounded _ (by rw [List.length_append, List.length_singleton]; omega), fun k => ?_⟩
  rw [hview, map_getElem?_concat (by omega), hv, hp, hcount]
  rfl

/-- **A push** inserts an element under the next key, in dense storage. -/
theorem view_pushDense (hp : p.Bounded) (hlt : p.count < 2 ^ 32 - 1) :
    ((p.pushDense value).1 = false ∧ (p.pushDense value).2 = p) ∨
      (p.pushDense value).1 = true ∧ (p.pushDense value).2.Bounded ∧
        ∀ k, (p.pushDense value).2.view k
          = if k = .ofNat p.count then some (simple value.settled) else p.view k := by
  cases p with
  | denseI32 vec =>
      rw [Bounded] at hp
      have hcount : (denseI32 vec : IndexedProperties P).count = vec.length := by
        rw [count, keys, length_range, toNat_len hp]
      rw [pushDense]
      cases hi : value.asI32 with
      | some n =>
          exact .inr ⟨rfl, view_concat (fun _ _ => view_denseI32 _) (fun _ h => h)
            (fun _ => view_denseI32 _) hcount hlt (by rw [← JsVariant.settled_of_asI32 hi])⟩
      | none =>
          cases hn : value.asNumber with
          | some x =>
              refine .inr ⟨rfl, view_concat (fun _ _ => view_denseF64 _) (fun _ h => h)
                (fun k => ?_) (by rw [hcount, List.length_map]) hlt
                (by rw [← JsVariant.settled_of_asNumber hn])⟩
              rw [view_denseI32, List.getElem?_map, Option.map_map]
              rfl
          | none =>
              refine .inr ⟨rfl, view_concat (fun _ _ => view_denseElement _) (fun _ h => h)
                (fun k => ?_) (by rw [hcount, List.length_map]) hlt rfl⟩
              rw [view_denseI32, List.getElem?_map, Option.map_map]
              rfl
  | denseF64 vec =>
      rw [Bounded] at hp
      have hcount : (denseF64 vec : IndexedProperties P).count = vec.length := by
        rw [count, keys, length_range, toNat_len hp]
      rw [pushDense]
      cases hn : value.asNumber with
      | some x =>
          exact .inr ⟨rfl, view_concat (fun _ _ => view_denseF64 _) (fun _ h => h)
            (fun _ => view_denseF64 _) hcount hlt (by rw [← JsVariant.settled_of_asNumber hn])⟩
      | none =>
          refine .inr ⟨rfl, view_concat (fun _ _ => view_denseElement _) (fun _ h => h)
            (fun k => ?_) (by rw [hcount, List.length_map]) hlt rfl⟩
          rw [view_denseF64, List.getElem?_map, Option.map_map]
          rfl
  | denseElement vec =>
      rw [Bounded] at hp
      have hcount : (denseElement vec).count = vec.length := by
        rw [count, keys, length_range, toNat_len hp]
      exact .inr ⟨rfl, view_concat (fun _ _ => view_denseElement _) (fun _ h => h)
        (fun _ => view_denseElement _) hcount hlt rfl⟩
  | denseReadOnlyElement vec => exact .inl ⟨rfl, rfl⟩
  | sparseElement map => exact .inl ⟨rfl, rfl⟩
  | sparseProperty map => exact .inl ⟨rfl, rfl⟩

/-- What setting an element of a vector comes to. -/
theorem view_set {ofVec : List T → IndexedProperties P} {vec : List T} {v : T} {index : UInt32}
    (hview : ∀ vec k, (ofVec vec).view k = vec[k.toNat]?.map f)
    (hbounded : ∀ vec : List T, vec.length < 2 ^ 32 → (ofVec vec).Bounded)
    (hp : ∀ k, p.view k = vec[k.toNat]?.map f) (hlen : vec.length < 2 ^ 32)
    (hindex : index.toNat < vec.length) (hv : f v = simple value.settled) :
    (ofVec (vec.set index.toNat v)).Bounded ∧ ∀ k, (ofVec (vec.set index.toNat v)).view k
      = if k = index then some (simple value.settled) else p.view k := by
  refine ⟨hbounded _ (by rw [List.length_set]; exact hlen), fun k => ?_⟩
  rw [hview, List.getElem?_set, hp]
  by_cases hk : k = index
  · rw [if_pos hk, if_pos (by rw [hk]), if_pos hindex, Option.map_some, hv]
  · have hne : index.toNat ≠ k.toNat := fun h => hk (UInt32.toNat_inj.mp h).symm
    rw [if_neg hk, if_neg hne]

/-- **Setting an element** replaces it, where dense storage has it. -/
theorem view_setDenseProperty {index : UInt32} (hp : p.Bounded) :
    ((p.setDenseProperty index value).1 = false ∧ (p.setDenseProperty index value).2 = p) ∨
      (p.setDenseProperty index value).1 = true ∧ (p.setDenseProperty index value).2.Bounded ∧
        ∀ k, (p.setDenseProperty index value).2.view k
          = if k = index then some (simple value.settled) else p.view k := by
  cases p with
  | denseI32 vec =>
      rw [Bounded] at hp
      unfold setDenseProperty
      dsimp only
      split
      · next hindex =>
        have hindex' : ∀ {U : Type} (g : Int32 → U), index.toNat < (vec.map g).length := by
          intro U g
          rwa [List.length_map]
        cases value with
        | integer32 n =>
            exact .inr ⟨rfl, view_set (fun _ _ => view_denseI32 _) (fun _ h => h)
              (fun _ => view_denseI32 _) hp hindex rfl⟩
        | float64 x =>
            dsimp only
            split
            · next hx =>
              exact .inr ⟨rfl, view_set (fun _ _ => view_denseI32 _) (fun _ h => h)
                (fun _ => view_denseI32 _) hp hindex (by rw [JsVariant.settled_float64, ← hx])⟩
            · refine .inr ⟨rfl, view_set (fun _ _ => view_denseF64 _) (fun _ h => h)
                (fun k => ?_) (by rwa [List.length_map]) (hindex' _) rfl⟩
              rw [view_denseI32, List.getElem?_map, Option.map_map]
              rfl
        | other v =>
            refine .inr ⟨rfl, view_set (fun _ _ => view_denseElement _) (fun _ h => h)
              (fun k => ?_) (by rwa [List.length_map]) (hindex' _) rfl⟩
            rw [view_denseI32, List.getElem?_map, Option.map_map]
            rfl
      · exact .inl ⟨rfl, rfl⟩
  | denseF64 vec =>
      rw [Bounded] at hp
      unfold setDenseProperty
      dsimp only
      split
      · next hindex =>
        cases hn : value.asNumber with
        | some x =>
            exact .inr ⟨rfl, view_set (fun _ _ => view_denseF64 _) (fun _ h => h)
              (fun _ => view_denseF64 _) hp hindex (by rw [← JsVariant.settled_of_asNumber hn])⟩
        | none =>
            refine .inr ⟨rfl, view_set (fun _ _ => view_denseElement _) (fun _ h => h)
              (fun k => ?_) (by rwa [List.length_map]) (by rwa [List.length_map]) rfl⟩
            rw [view_denseF64, List.getElem?_map, Option.map_map]
            rfl
      · exact .inl ⟨rfl, rfl⟩
  | denseElement vec =>
      rw [Bounded] at hp
      unfold setDenseProperty
      dsimp only
      split
      · next hindex =>
        exact .inr ⟨rfl, view_set (fun _ _ => view_denseElement _) (fun _ h => h)
          (fun _ => view_denseElement _) hp hindex rfl⟩
      · exact .inl ⟨rfl, rfl⟩
  | denseReadOnlyElement vec => exact .inl ⟨rfl, rfl⟩
  | sparseElement map => exact .inl ⟨rfl, rfl⟩
  | sparseProperty map => exact .inl ⟨rfl, rfl⟩

omit T f value in
/-- **The conversion to sparse storage** changes nothing. -/
theorem view_transformToSparse (hp : p.Bounded) :
    p.transformToSparse.Bounded ∧ ∀ k, p.transformToSparse.view k = p.view k := by
  cases p with
  | denseI32 vec =>
      rw [Bounded] at hp
      refine ⟨trivial, fun k => ?_⟩
      rw [transformToSparse, view_sparseElement, get?_collect (by rw [List.length_map]; omega),
        List.getElem?_map, Option.map_map, view_denseI32]
      rfl
  | denseF64 vec =>
      rw [Bounded] at hp
      refine ⟨trivial, fun k => ?_⟩
      rw [transformToSparse, view_sparseElement, get?_collect (by rw [List.length_map]; omega),
        List.getElem?_map, Option.map_map, view_denseF64]
      rfl
  | denseElement vec =>
      rw [Bounded] at hp
      refine ⟨trivial, fun k => ?_⟩
      rw [transformToSparse, view_sparseElement, get?_collect (by omega), view_denseElement]
  | denseReadOnlyElement vec =>
      rw [Bounded] at hp
      refine ⟨trivial, fun k => ?_⟩
      rw [transformToSparse, view_sparseProperty, get?_collect (by rw [List.length_map]; omega),
        List.getElem?_map, Option.map_map, view_denseReadOnlyElement]
      rfl
  | sparseElement map => exact ⟨trivial, fun _ => rfl⟩
  | sparseProperty map => exact ⟨trivial, fun _ => rfl⟩

end Dense

/-! ### Stored descriptors -/

section Stored

variable {p : IndexedProperties P} {key : UInt32} {property : PropertyDescriptor (JsVariant P)}
  {C : PropertyDescriptor (JsVariant P) → Prop}

/-- Every descriptor in a hash map meets a condition; elements do so by themselves. -/
def Each (C : PropertyDescriptor (JsVariant P) → Prop) : IndexedProperties P → Prop
  | .sparseProperty map => ∀ k d, map.get? k = some d → C d
  | _ => True

/-- What is read meets the condition, if elements do. -/
theorem Each.of_get (hsimple : ∀ v, C (simple v)) (hreadonly : ∀ v, C (readonly v))
    (hp : p.Each C) {d : PropertyDescriptor (JsVariant P)} (hd : p.get key = some d) : C d := by
  cases p with
  | denseI32 vec | denseF64 vec | denseElement vec | sparseElement map =>
      obtain ⟨v, -, rfl⟩ := Option.map_eq_some_iff.mp hd
      exact hsimple _
  | denseReadOnlyElement vec =>
      obtain ⟨v, -, rfl⟩ := Option.map_eq_some_iff.mp hd
      exact hreadonly _
  | sparseProperty map => exact hp key d hd

/-- What holds of every property of a map holds after an insertion of one that has it, too. -/
theorem each_sparseProperty_insert
    {map : OrderedMap UInt32 (PropertyDescriptor (JsVariant P))}
    (hmap : ∀ k d, map.get? k = some d → C d) (hproperty : C property) :
    (sparseProperty (map.insert key property)).Each C := by
  intro k d hd
  rw [OrderedMap.get?_insert] at hd
  split at hd
  · exact Option.some.inj hd ▸ hproperty
  · exact hmap k d hd

/-- What holds of every property is kept when a dense storage becomes a map for an insertion. -/
theorem Each.convertToSparseAndInsert (hsimple : ∀ v, C (simple v))
    (hreadonly : ∀ v, C (readonly v)) (hbounded : p.Bounded) (hp : p.Each C)
    (hproperty : C property) : (p.convertToSparseAndInsert key property).2.Each C :=
  each_sparseProperty_insert
    (fun _ _ hd => hp.of_get hsimple hreadonly (get?_toDescriptors hbounded ▸ hd)) hproperty

/-- Insertion stores the property or an element. -/
theorem Each.insert (hsimple : ∀ v, C (simple v)) (hreadonly : ∀ v, C (readonly v))
    (hbounded : p.Bounded) (hp : p.Each C) (hproperty : C property) :
    (p.insert key property).2.Each C := by
  have hconvert : (p.convertToSparseAndInsert key property).2.Each C :=
    hp.convertToSparseAndInsert hsimple hreadonly hbounded hproperty
  rw [IndexedProperties.insert]
  cases propertyReadonlyValue property with
  | some value =>
      dsimp only
      unfold insertReadonly
      split
      · split
        · trivial
        · exact hconvert
      · split
        · trivial
        · exact hconvert
      · exact hconvert
  | none =>
      cases propertySimpleValue property with
      | some value =>
          dsimp only
          unfold insertSimple
          split
          · split
            · split
              · trivial
              · split <;> trivial
            · trivial
          · split
            · split <;> trivial
            · trivial
          · split <;> trivial
          · exact hconvert
          · trivial
          · exact each_sparseProperty_insert hp (hsimple value)
      | none => exact hconvert

/-- What holds of every property of a map is kept when one is removed. -/
theorem Each.removeExisting {map : OrderedMap UInt32 (PropertyDescriptor (JsVariant P))}
    (hmap : ∀ k d, map.get? k = some d → C d) :
    (sparseProperty (map.erase key)).Each C := by
  intro k d hd
  rw [OrderedMap.get?_erase] at hd
  split at hd
  · cases hd
  · exact hmap k d hd

/-- Removal stores nothing new. -/
theorem Each.remove (hreadonly : ∀ v, C (readonly v)) (hbounded : p.Bounded) (hp : p.Each C) :
    (p.remove key).2.Each C := by
  cases p with
  | denseI32 vec | denseF64 vec | denseElement vec =>
      simp only [IndexedProperties.remove, removeDense]
      split
      · trivial
      · split <;> trivial
  | denseReadOnlyElement vec =>
      simp only [IndexedProperties.remove, removeDense]
      split
      · trivial
      · split
        · trivial
        · rw [Bounded] at hbounded
          refine Each.removeExisting fun k d hd => ?_
          rw [get?_collect (by rw [List.length_map]; omega), List.getElem?_map] at hd
          obtain ⟨v, -, rfl⟩ := Option.map_eq_some_iff.mp hd
          exact hreadonly v
  | sparseElement map => trivial
  | sparseProperty map => exact Each.removeExisting hp

end Stored

end IndexedProperties

end BoaLigero
