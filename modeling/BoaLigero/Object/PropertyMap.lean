import BoaLigero.Object.Shape

/-!
# Property Maps

The named properties of an object (`object/property_map.rs`): a shape, which says where a
property lives and what its attributes are, and a storage vector with the values. Inserting
and removing edit the storage in place by one or two cells, while the shape computes its
slots on its own.

The values are a type `V` whose default is JavaScript's `undefined`. The integer keys of an
object live in its indexed properties, which are not part of this model. A place where the
source panics gives `none`.

What a map stores is stated as `PropertyMap.Holds`: the storage is cut into the blocks of
the keys, in key order, each as long as the slot of its key is wide. The blocks do not
mention attributes, so they survive whatever a shape does to the attributes of other
properties.

## Main results

* `Holds.get_eq` — reading a property reads its block.
* `insertWithSlot_spec`, `remove_spec` — inserting replaces or appends the block of the key,
  removing drops it; neither ever fails.
-/

namespace BoaLigero

/-! ### Property descriptors -/

/-- The kind of a property descriptor (`DescriptorKind`). -/
inductive DescriptorKind (V : Type) where
  | data (value : Option V) (writable : Option Bool)
  | accessor (get set : Option V)
  | generic
  deriving DecidableEq, Repr

/-- A property descriptor (`PropertyDescriptor`). -/
@[ext] structure PropertyDescriptor (V : Type) where
  enumerable : Option Bool
  configurable : Option Bool
  kind : DescriptorKind V
  deriving DecidableEq, Repr

namespace PropertyDescriptor

variable {V : Type}

/-- The value of a data descriptor. -/
def value (d : PropertyDescriptor V) : Option V :=
  match d.kind with
  | .data value _ => value
  | _ => none

/-- The writable field of a data descriptor. -/
def writable (d : PropertyDescriptor V) : Option Bool :=
  match d.kind with
  | .data _ writable => writable
  | _ => none

/-- The getter of an accessor descriptor. -/
def get (d : PropertyDescriptor V) : Option V :=
  match d.kind with
  | .accessor get _ => get
  | _ => none

/-- The setter of an accessor descriptor. -/
def set (d : PropertyDescriptor V) : Option V :=
  match d.kind with
  | .accessor _ set => set
  | _ => none

/-- Whether this is a data descriptor. -/
def isDataDescriptor (d : PropertyDescriptor V) : Bool :=
  match d.kind with
  | .data _ _ => true
  | _ => false

/-- Whether this is an accessor descriptor. -/
def isAccessorDescriptor (d : PropertyDescriptor V) : Bool :=
  match d.kind with
  | .accessor _ _ => true
  | _ => false

/-- Whether this is a generic descriptor. -/
def isGenericDescriptor (d : PropertyDescriptor V) : Bool :=
  match d.kind with
  | .generic => true
  | _ => false

/-- The attributes of the slot for a property (`to_slot_attributes`); the source expects
the fields to be there. -/
def toSlotAttributes (d : PropertyDescriptor V) : Option SlotAttributes :=
  d.configurable.bind fun configurable =>
    d.enumerable.bind fun enumerable =>
      if d.isDataDescriptor then
        d.writable.map fun writable => { configurable, enumerable, writable }
      else some { configurable, enumerable, get := d.get.isSome, set := d.set.isSome }

/-- A complete data property. -/
def ofData (value : V) (writable enumerable configurable : Bool) : PropertyDescriptor V :=
  { enumerable := some enumerable, configurable := some configurable
    kind := .data (some value) (some writable) }

/-- An accessor property with a getter, a setter, or both. -/
def ofAccessor (get set : Option V) (enumerable configurable : Bool) : PropertyDescriptor V :=
  { enumerable := some enumerable, configurable := some configurable, kind := .accessor get set }

/-- A descriptor of a property, as opposed to that of a request: all fields of a data
descriptor are there, and an accessor has a getter or a setter. -/
inductive IsComplete : PropertyDescriptor V → Prop
  | data (value : V) (writable enumerable configurable : Bool) :
      IsComplete (ofData value writable enumerable configurable)
  | accessor (get set : Option V) (enumerable configurable : Bool)
      (hsome : get.isSome || set.isSome) :
      IsComplete (ofAccessor get set enumerable configurable)

/-- Whether a descriptor is complete. -/
def isComplete (d : PropertyDescriptor V) : Bool :=
  match d.enumerable, d.configurable, d.kind with
  | some _, some _, .data (some _) (some _) => true
  | some _, some _, .accessor get set => get.isSome || set.isSome
  | _, _, _ => false

theorem IsComplete.of_isComplete {d : PropertyDescriptor V} (h : d.isComplete = true) :
    d.IsComplete := by
  obtain ⟨e, c, kind⟩ := d
  rw [isComplete] at h
  split at h
  · next he hc hk =>
      dsimp only at he hc hk
      subst he hc hk
      exact .data _ _ _ _
  · next he hc hk =>
      dsimp only at he hc hk
      subst he hc hk
      exact .accessor _ _ _ _ h
  · cases h

/-- A complete descriptor has a slot. -/
theorem IsComplete.exists_attributes {d : PropertyDescriptor V} (hd : d.IsComplete) :
    ∃ a, d.toSlotAttributes = some a := by
  cases hd <;> exact ⟨_, rfl⟩

end PropertyDescriptor

/-! ### Storage -/

namespace Storage

variable {V : Type}

/-- `Vec::remove`. -/
def remove (storage : List V) (index : ℕ) : Option (List V) :=
  if index < storage.length then some (storage.eraseIdx index) else none

/-- `Vec::insert`. -/
def insert (storage : List V) (index : ℕ) (value : V) : Option (List V) :=
  if index ≤ storage.length then some (storage.insertIdx index value) else none

/-- Writing an element of a vector. -/
def write (storage : List V) (index : ℕ) (value : V) : Option (List V) :=
  if index < storage.length then some (storage.set index value) else none

/-- Write an element if a condition holds. -/
def writeIf (condition : Bool) (storage : List V) (index : ℕ) (value : V) : Option (List V) :=
  if condition then write storage index value else some storage

end Storage

/-- The named properties of an object (`PropertyMap`). -/
structure PropertyMap (V : Type) where
  shape : Shape
  storage : List V
  deriving DecidableEq, Repr

namespace PropertyMap

variable {V : Type} [Inhabited V]

/-- The descriptor stored at a slot (`get_storage`). -/
def getStorage (storage : List V) (slot : Slot) : Option (PropertyDescriptor V) :=
  let a := slot.attributes
  let descriptor kind : PropertyDescriptor V :=
    { configurable := some a.configurable, enumerable := some a.enumerable, kind }
  if a.isAccessorDescriptor then
    (if a.get then storage[slot.index]?.map some else some none).bind fun get =>
      (if a.set then storage[slot.index + 1]?.map some else some none).map fun set =>
        descriptor (.accessor get set)
  else
    storage[slot.index]?.map fun value => descriptor (.data (some value) (some a.writable))

/-- Get the property with the given key (`PropertyMap::get`). -/
def get (m : PropertyMap V) (H : Shapes) (key : PropertyKey) :
    Option (Option (PropertyDescriptor V)) :=
  match H.lookup m.shape key with
  | some slot => (getStorage m.storage slot).map some
  | none => some none

/-- Get the property with the given key, and the slot it was found at
(`get_with_slot`): the attributes of the slot, the bits of the inline cache kept. -/
def getWithSlot (m : PropertyMap V) (H : Shapes) (key : PropertyKey) (outSlot : Slot) :
    Option (Option (PropertyDescriptor V) × Slot) :=
  match H.lookup m.shape key with
  | some slot =>
      let attributes := { slot.attributes with
        inPrototype := outSlot.attributes.inPrototype || slot.attributes.inPrototype
        found := true
        notCacheable := outSlot.attributes.notCacheable || slot.attributes.notCacheable }
      (getStorage m.storage slot).map fun d => (some d, { index := slot.index, attributes })
  | none => some (none, outSlot)

/-- Apply the storage action of an attribute change at the slot of the property. -/
def applyAction (storage : List V) (index : ℕ) : ChangeTransitionAction → Option (List V)
  | .nothing => some storage
  | .remove => Storage.remove storage (index + 1)
  -- The new cell goes in front of the old one.
  | .insert => Storage.insert storage index default

/-- Write the values of a descriptor over the cells of its slot. -/
def writeCells (storage : List V) (index : ℕ) (attributes : SlotAttributes)
    (property : PropertyDescriptor V) : Option (List V) :=
  if attributes.isAccessorDescriptor then
    (Storage.writeIf attributes.get storage index (property.get.getD default)).bind
      fun storage => Storage.writeIf attributes.set storage (index + 1) (property.set.getD default)
  else property.value.bind fun value => Storage.write storage index value

/-- The cells of a new property. -/
def newCells (attributes : SlotAttributes) (property : PropertyDescriptor V) : List V :=
  if attributes.isAccessorDescriptor then [property.get.getD default, property.set.getD default]
  else [property.value.getD default]

/-- The out slot of an insertion: the bits of the inline cache are kept. -/
def insertedSlot (outSlot : Slot) (index : ℕ) (attributes : SlotAttributes) : Slot :=
  { index
    attributes := { attributes with
      inPrototype := outSlot.attributes.inPrototype || attributes.inPrototype
      found := outSlot.attributes.found || attributes.found
      notCacheable := outSlot.attributes.notCacheable || attributes.notCacheable } }

/-- Insert the property with the given key (`insert_with_slot`): whether it was there, and
the slot it was written to. -/
def insertWithSlot (m : PropertyMap V) (H : Shapes) (key : PropertyKey)
    (property : PropertyDescriptor V) (outSlot : Slot) :
    Option (Bool × Slot × PropertyMap V × Shapes) :=
  property.toSlotAttributes.bind fun attributes =>
    match H.lookup m.shape key with
    | some slot =>
        let index := slot.index
        let changed : Option (PropertyMap V × Shapes) :=
          if slot.attributes ≠ attributes then
            (H.changeAttributesTransition m.shape { propertyKey := key, attributes }).bind
              fun ((shape, action), H) =>
                (applyAction m.storage index action).map fun storage => ({ shape, storage }, H)
          else some (m, H)
        changed.bind fun (m, H) =>
          (writeCells m.storage index attributes property).map fun storage =>
            (true, insertedSlot outSlot index attributes, { m with storage }, H)
    | none =>
        let (shape, H) := H.insertPropertyTransition m.shape { propertyKey := key, attributes }
        some (false, insertedSlot outSlot m.storage.length attributes,
          { shape, storage := m.storage ++ newCells attributes property }, H)

/-- Insert the property with the given key (`PropertyMap::insert`). -/
def insert (m : PropertyMap V) (H : Shapes) (key : PropertyKey)
    (property : PropertyDescriptor V) : Option (Bool × PropertyMap V × Shapes) :=
  (m.insertWithSlot H key property { index := 0, attributes := .empty }).map fun r =>
    (r.1, r.2.2)

/-- Remove the property with the given key (`PropertyMap::remove`). -/
def remove (m : PropertyMap V) (H : Shapes) (key : PropertyKey) :
    Option (Bool × PropertyMap V × Shapes) :=
  match H.lookup m.shape key with
  | some slot =>
      -- Shift all elements when removing.
      (if slot.attributes.isAccessorDescriptor then Storage.remove m.storage (slot.index + 1)
        else some m.storage).bind fun storage =>
        (Storage.remove storage slot.index).bind fun storage =>
          (H.removePropertyTransition m.shape key).map fun (shape, H) =>
            (true, { shape, storage }, H)
  | none => some (false, m, H)

/-- Change the prototype of the object. -/
def setPrototype (m : PropertyMap V) (H : Shapes) (prototype : JsPrototype) :
    PropertyMap V × Shapes :=
  let (shape, H) := H.changePrototypeTransition m.shape prototype
  ({ m with shape }, H)

/-! ### Storage cut into blocks -/

/-- The storage made of the blocks of the keys. -/
def cells (rows : List (PropertyKey × List V)) : List V := rows.flatMap Prod.snd

/-- The keys of the blocks with their lengths. -/
def blockWidths (rows : List (PropertyKey × List V)) : List (PropertyKey × ℕ) :=
  rows.map fun r => (r.1, r.2.length)

/-- **What a map stores**: the storage consists of one block for every key of the shape, in
key order, as long as the slot of the key is wide. -/
structure Holds (H : Shapes) (m : PropertyMap V) (rows : List (PropertyKey × List V)) : Prop where
  storage_eq : m.storage = cells rows
  widths_eq : blockWidths rows = widths (H.propertyList m.shape)

omit [Inhabited V] in
@[simp] theorem cells_append (rows rows' : List (PropertyKey × List V)) :
    cells (rows ++ rows') = cells rows ++ cells rows' := by simp [cells]

omit [Inhabited V] in
@[simp] theorem cells_cons (r : PropertyKey × List V) (rows : List (PropertyKey × List V)) :
    cells (r :: rows) = r.2 ++ cells rows := by simp [cells]

omit [Inhabited V] in
/-- The blocks of a list of slots fill as many cells as the slots take. -/
theorem length_cells {rows : List (PropertyKey × List V)} {ps : PropertyList}
    (h : blockWidths rows = widths ps) : (cells rows).length = totalWidth ps := by
  have hsum := congrArg (fun l => (l.map Prod.snd).sum) h
  simpa [blockWidths, widths, cells, totalWidth, List.length_flatMap, Function.comp_def] using hsum

omit [Inhabited V] in
/-- The blocks belong to the keys. -/
theorem keys_of_blockWidths {rows : List (PropertyKey × List V)} {ps : PropertyList}
    (h : blockWidths rows = widths ps) : Assoc.keys rows = Assoc.keys ps := by
  have hkeys := congrArg Assoc.keys h
  simpa [blockWidths, widths, Assoc.keys, Function.comp_def] using hkeys

omit [Inhabited V] in
/-- **Where a property lives**: its block, between the blocks of the keys before and after
it, and its slot, which starts where the block does. -/
theorem Holds.exists_block {H : Shapes} {m : PropertyMap V} (wf : H.WF)
    {rows : List (PropertyKey × List V)} (hm : m.Holds H rows) {key : PropertyKey}
    {a : SlotAttributes} (hkey : (H.propertyList m.shape).lookup key = some a) :
    ∃ ps qs pre post block, H.propertyList m.shape = ps ++ (key, a) :: qs ∧
      rows = pre ++ (key, block) :: post ∧ blockWidths pre = widths ps ∧
      blockWidths post = widths qs ∧ block.length = a.width ∧
      H.lookup m.shape key = some { index := (cells pre).length, attributes := a } := by
  have hnd := wf.nodup m.shape
  obtain ⟨ps, qs, hlist⟩ := List.append_of_mem ((Assoc.lookup_eq_some_iff_mem hnd).mp hkey)
  have hw := hm.widths_eq
  rw [hlist, widths_append, blockWidths, List.map_eq_append_iff] at hw
  obtain ⟨pre, rest, rfl, hpre, hrest⟩ := hw
  obtain ⟨⟨k, block⟩, post, rfl, hblock, hpost⟩ := List.map_eq_cons_iff.mp hrest
  obtain ⟨rfl, hlen⟩ := Prod.mk.inj hblock
  refine ⟨ps, qs, pre, post, block, hlist, rfl, hpre, hpost, hlen, ?_⟩
  rw [hlist] at hnd
  have hk : k ∉ Assoc.keys ps := by
    rw [Assoc.keys_append, Assoc.keys_cons] at hnd
    exact fun hmem => (List.nodup_append.mp hnd).2.2 k hmem k (by simp) rfl
  rw [Shapes.lookup_eq wf, hlist, lookup_layout_append_cons hk, length_cells hpre]

omit [Inhabited V] in
/-- The block of a key is as long as its slot is wide. -/
theorem Holds.length_block {H : Shapes} {m : PropertyMap V} {rows : List (PropertyKey × List V)}
    (hm : m.Holds H rows) {key : PropertyKey} {block : List V} {n : ℕ}
    (hblock : rows.lookup key = some block)
    (hwidth : (widths (H.propertyList m.shape)).lookup key = some n) : block.length = n := by
  rw [← hm.widths_eq, blockWidths, Assoc.lookup_mapValues, hblock, Option.map_some] at hwidth
  exact Option.some.inj hwidth

/-! ### Working behind a prefix of the storage -/

omit [Inhabited V] in
theorem remove_append (s t : List V) (i : ℕ) :
    Storage.remove (s ++ t) (s.length + i) = (Storage.remove t i).map fun t => s ++ t := by
  have hiff : s.length + i < (s ++ t).length ↔ i < t.length := by simp
  rw [Storage.remove, Storage.remove]
  by_cases hi : i < t.length
  · rw [if_pos (hiff.mpr hi), if_pos hi, List.eraseIdx_append_of_length_le (by omega),
      Nat.add_sub_cancel_left, Option.map_some]
  · rw [if_neg (mt hiff.mp hi), if_neg hi, Option.map_none]

omit [Inhabited V] in
theorem insertIdx_append (s t : List V) (i : ℕ) (v : V) :
    (s ++ t).insertIdx (s.length + i) v = s ++ t.insertIdx i v := by
  induction s with
  | nil => simp
  | cons x s ih =>
      rw [List.length_cons, Nat.add_right_comm, List.cons_append, List.insertIdx_succ_cons, ih]
      rfl

omit [Inhabited V] in
theorem insert_append (s t : List V) (i : ℕ) (v : V) :
    Storage.insert (s ++ t) (s.length + i) v = (Storage.insert t i v).map fun t => s ++ t := by
  have hiff : s.length + i ≤ (s ++ t).length ↔ i ≤ t.length := by simp
  rw [Storage.insert, Storage.insert]
  by_cases hi : i ≤ t.length
  · rw [if_pos (hiff.mpr hi), if_pos hi, Option.map_some, insertIdx_append]
  · rw [if_neg (mt hiff.mp hi), if_neg hi, Option.map_none]

omit [Inhabited V] in
theorem write_append (s t : List V) (i : ℕ) (v : V) :
    Storage.write (s ++ t) (s.length + i) v = (Storage.write t i v).map fun t => s ++ t := by
  have hiff : s.length + i < (s ++ t).length ↔ i < t.length := by simp
  rw [Storage.write, Storage.write]
  by_cases hi : i < t.length
  · rw [if_pos (hiff.mpr hi), if_pos hi, Option.map_some, List.set_append_right _ _ (by omega),
      Nat.add_sub_cancel_left]
  · rw [if_neg (mt hiff.mp hi), if_neg hi, Option.map_none]

omit [Inhabited V] in
theorem writeIf_append (c : Bool) (s t : List V) (i : ℕ) (v : V) :
    Storage.writeIf c (s ++ t) (s.length + i) v =
      (Storage.writeIf c t i v).map fun t => s ++ t := by
  cases c with
  | true => exact write_append s t i v
  | false => rfl

/-- The storage action works behind a prefix as it does without. -/
theorem applyAction_append (s t : List V) (action : ChangeTransitionAction) :
    applyAction (s ++ t) s.length action = (applyAction t 0 action).map fun t => s ++ t := by
  cases action with
  | nothing => rfl
  | remove => exact remove_append s t 1
  | insert => exact insert_append s t 0 default

/-- Writing the cells of a property works behind a prefix as it does without. -/
theorem writeCells_append (s t : List V) (a : SlotAttributes) (d : PropertyDescriptor V) :
    writeCells (s ++ t) s.length a d = (writeCells t 0 a d).map fun t => s ++ t := by
  by_cases ha : a.isAccessorDescriptor
  · have h₀ := writeIf_append a.get s t 0 (d.get.getD default)
    rw [Nat.add_zero] at h₀
    simp only [writeCells, ha, if_true, h₀, Option.bind_map, Option.map_bind]
    congr 1
    funext t
    exact writeIf_append a.set s t 1 (d.set.getD default)
  · simp only [writeCells, ha, Bool.false_eq_true, if_false, Option.map_bind]
    congr 1
    funext v
    exact write_append s t 0 v

omit [Inhabited V] in
/-- Reading a slot behind a prefix. -/
theorem getStorage_append (s t : List V) (a : SlotAttributes) :
    getStorage (s ++ t) { index := s.length, attributes := a } =
      getStorage t { index := 0, attributes := a } := by
  have hget : ∀ i, (s ++ t)[s.length + i]? = t[i]? := by
    intro i
    rw [List.getElem?_append_right (by omega), Nat.add_sub_cancel_left]
  have h₀ : (s ++ t)[s.length]? = t[0]? := hget 0
  simp only [getStorage, h₀, hget, Nat.zero_add]

/-! ### Blocks -/

omit [Inhabited V] in
/-- A block of a slot is one cell or two. -/
theorem block_cases {b : List V} {a : SlotAttributes} (hb : b.length = a.width) :
    (a.isAccessorDescriptor = false ∧ ∃ x, b = [x]) ∨
      (a.isAccessorDescriptor = true ∧ ∃ x y, b = [x, y]) := by
  cases ha : a.isAccessorDescriptor with
  | false =>
      rw [SlotAttributes.width, ha] at hb
      exact .inl ⟨rfl, List.length_eq_one_iff.mp hb⟩
  | true =>
      rw [SlotAttributes.width, ha] at hb
      exact .inr ⟨rfl, List.length_eq_two.mp hb⟩

omit [Inhabited V] in
/-- Reading a slot reads its block only. -/
theorem getStorage_block {b : List V} {a : SlotAttributes} (hb : b.length = a.width)
    (rest : List V) :
    getStorage (b ++ rest) { index := 0, attributes := a } =
      getStorage b { index := 0, attributes := a } := by
  rcases block_cases hb with ⟨ha, x, rfl⟩ | ⟨ha, x, y, rfl⟩ <;> simp [getStorage, ha]

omit [Inhabited V] in
/-- A block can be read. -/
theorem exists_getStorage {b : List V} {a : SlotAttributes} (hb : b.length = a.width) :
    ∃ d, getStorage b { index := 0, attributes := a } = some d := by
  rcases block_cases hb with ⟨ha, x, rfl⟩ | ⟨ha, x, y, rfl⟩
  · simp [getStorage, ha]
  · cases hg : a.get <;> cases hs : a.set <;> simp [getStorage, ha, hg, hs]

omit [Inhabited V] in
/-- The slot of a complete data property. -/
theorem toSlotAttributes_ofData (v : V) (w e c : Bool) :
    (PropertyDescriptor.ofData v w e c).toSlotAttributes =
      some { writable := w, enumerable := e, configurable := c } := rfl

omit [Inhabited V] in
/-- The slot of an accessor property. -/
theorem toSlotAttributes_ofAccessor (g s : Option V) (e c : Bool) :
    (PropertyDescriptor.ofAccessor g s e c).toSlotAttributes =
      some { enumerable := e, configurable := c, get := g.isSome, set := s.isSome } := rfl

/-- The cells of a new property hold it. -/
theorem newCells_spec {d : PropertyDescriptor V} (hd : d.IsComplete) {a : SlotAttributes}
    (ha : d.toSlotAttributes = some a) :
    (newCells a d).length = a.width ∧
      getStorage (newCells a d) { index := 0, attributes := a } = some d := by
  cases hd with
  | data v w e c =>
      rw [toSlotAttributes_ofData] at ha
      obtain rfl := Option.some.inj ha
      exact ⟨rfl, rfl⟩
  | accessor g s e c hsome =>
      rw [toSlotAttributes_ofAccessor] at ha
      obtain rfl := Option.some.inj ha
      cases g with
      | none =>
          cases s with
          | none => cases hsome
          | some s => exact ⟨rfl, rfl⟩
      | some g => cases s <;> exact ⟨rfl, rfl⟩

/-- Writing an accessor over two cells. -/
theorem writeCells_accessor (g s : Option V) (e c : Bool) (hsome : g.isSome || s.isSome)
    (x y : V) (rest : List V) :
    ∃ block, writeCells (x :: y :: rest) 0
        { enumerable := e, configurable := c, get := g.isSome, set := s.isSome }
        (PropertyDescriptor.ofAccessor g s e c) = some (block ++ rest) ∧ block.length = 2 ∧
      getStorage block { index := 0, attributes :=
        { enumerable := e, configurable := c, get := g.isSome, set := s.isSome } } =
          some (PropertyDescriptor.ofAccessor g s e c) := by
  cases g with
  | none =>
      cases s with
      | none => cases hsome
      | some s => exact ⟨[x, s], rfl, rfl, rfl⟩
  | some g =>
      cases s with
      | none => exact ⟨[g, y], rfl, rfl, rfl⟩
      | some s => exact ⟨[g, s], rfl, rfl, rfl⟩

/-- **Replacing the block of a property**: after the storage action of the change and the
writes, the cells hold the new descriptor, and the rest of the storage has moved along. -/
theorem replace_block {d : PropertyDescriptor V} (hd : d.IsComplete) {a b : SlotAttributes}
    (ha : d.toSlotAttributes = some a) {block : List V} (hb : block.length = b.width)
    (rest : List V) :
    ∃ block', ((applyAction (block ++ rest) 0 (if b.widthMatch a then .nothing
        else if b.isAccessorDescriptor then .remove else .insert)).bind
          fun storage => writeCells storage 0 a d) = some (block' ++ rest) ∧
      block'.length = a.width ∧
      getStorage block' { index := 0, attributes := a } = some d := by
  cases hd with
  | data v w e c =>
      rw [toSlotAttributes_ofData] at ha
      obtain rfl := Option.some.inj ha
      refine ⟨[v], ?_, rfl, rfl⟩
      rcases block_cases hb with ⟨hkind, x, rfl⟩ | ⟨hkind, x, y, rfl⟩
      · rw [if_pos (by rw [SlotAttributes.widthMatch_iff, hkind]; rfl)]
        rfl
      · rw [if_neg (by rw [SlotAttributes.widthMatch_iff, hkind]; exact Bool.noConfusion),
          if_pos hkind]
        rfl
  | accessor g s e c hsome =>
      rw [toSlotAttributes_ofAccessor] at ha
      obtain rfl := Option.some.inj ha
      set a : SlotAttributes :=
        { enumerable := e, configurable := c, get := g.isSome, set := s.isSome } with hadef
      have hacc : a.isAccessorDescriptor = true := hsome
      have hwidth : a.width = 2 := by rw [SlotAttributes.width, hacc]; rfl
      rcases block_cases hb with ⟨hkind, x, rfl⟩ | ⟨hkind, x, y, rfl⟩
      · rw [if_neg (by rw [SlotAttributes.widthMatch_iff, hkind, hacc]; decide),
          if_neg (by rw [hkind]; decide)]
        obtain ⟨block, hwrite, hlen, hget⟩ := writeCells_accessor g s e c hsome default x rest
        exact ⟨block, hwrite, hlen.trans hwidth.symm, hget⟩
      · rw [if_pos (by rw [SlotAttributes.widthMatch_iff, hkind, hacc])]
        obtain ⟨block, hwrite, hlen, hget⟩ := writeCells_accessor g s e c hsome x y rest
        exact ⟨block, hwrite, hlen.trans hwidth.symm, hget⟩

/-! ### The operations -/

variable {H H' : Shapes} {m m' : PropertyMap V} {rows : List (PropertyKey × List V)}
  {key : PropertyKey}

omit [Inhabited V] in
/-- **Reading a property** reads the block of its key with the attributes of its key. -/
theorem Holds.get_eq (hm : m.Holds H rows) (wf : H.WF) {a : SlotAttributes}
    (hkey : (H.propertyList m.shape).lookup key = some a) :
    ∃ block d, rows.lookup key = some block ∧
      getStorage block { index := 0, attributes := a } = some d ∧
      m.get H key = some (some d) := by
  obtain ⟨ps, qs, pre, post, block, hlist, rfl, hpre, -, hlen, hlookup⟩ := hm.exists_block wf hkey
  obtain ⟨d, hd⟩ := exists_getStorage hlen
  have hnd := wf.nodup m.shape
  rw [← keys_of_blockWidths hm.widths_eq] at hnd
  refine ⟨block, d, (Assoc.lookup_eq_some_iff_mem hnd).mpr (by simp), hd, ?_⟩
  rw [get, hlookup, hm.storage_eq, cells_append, cells_cons]
  simp only [getStorage_append, getStorage_block hlen, hd, Option.map_some]

omit [Inhabited V] in
/-- An absent property is not found. -/
theorem get_eq_none (wf : H.WF) (hkey : key ∉ Assoc.keys (H.propertyList m.shape)) :
    m.get H key = some none := by
  have hnone : H.lookup m.shape key = none := by
    rw [Shapes.lookup_eq wf, Assoc.lookup_eq_none_iff_notMem, keys_layout]
    exact hkey
  rw [get, hnone]

/-- What an operation on a map does to the shapes and to the map: the other maps keep
theirs, and the new map has the properties `ps`, the prototype `q` and the blocks `rows`. -/
structure Updates (inPlace : Bool) (H H' : Shapes) (m m' : PropertyMap V) (ps : PropertyList)
    (q : JsPrototype) (rows : List (PropertyKey × List V)) : Prop where
  moves : H.Moves inPlace H' m.shape m'.shape ps q
  holds : m'.Holds H' rows

/-- The storage of a present property, after the action and the writes of an insertion. -/
theorem replace_cells {d : PropertyDescriptor V} (hd : d.IsComplete) {a b : SlotAttributes}
    (ha : d.toSlotAttributes = some a) {block : List V} (hb : block.length = b.width)
    (pre rest : List V) :
    ∃ block', ((applyAction (pre ++ (block ++ rest)) pre.length (if b.widthMatch a then .nothing
        else if b.isAccessorDescriptor then .remove else .insert)).bind
          fun storage => writeCells storage pre.length a d) = some (pre ++ (block' ++ rest)) ∧
      block'.length = a.width ∧
      getStorage block' { index := 0, attributes := a } = some d := by
  obtain ⟨block', heq, hlen, hget⟩ := replace_block hd ha hb rest
  refine ⟨block', ?_, hlen, hget⟩
  obtain ⟨storage, haction, hwrite⟩ := Option.bind_eq_some_iff.mp heq
  simp only [applyAction_append, haction, Option.map_some, Option.bind_some, writeCells_append,
    hwrite]

/-- **Inserting a present property** replaces its block. The shape is left alone when the
attributes are the same; otherwise the other properties keep their attributes where the
width does not change or the transition chain keeps them. -/
theorem insertWithSlot_present (wf : H.WF) (hv : H.Valid m.shape) (hm : m.Holds H rows)
    {b a : SlotAttributes} (hkey : (H.propertyList m.shape).lookup key = some b)
    {d : PropertyDescriptor V} (hd : d.IsComplete) (ha : d.toSlotAttributes = some a)
    (outSlot : Slot) :
    ∃ m' H' ps block, ∃ n, m.insertWithSlot H key d outSlot =
        some (true, insertedSlot outSlot n a, m', H') ∧
      H.lookup m.shape key = some { index := n, attributes := b } ∧
      Updates (b = a) H H' m m' ps (H.prototype m.shape) (Assoc.assign rows key block) ∧
      SameWidths ps (Assoc.assign (H.propertyList m.shape) key a) ∧
      (b.widthMatch a ∨ H.Kept m.shape key →
        ps = Assoc.assign (H.propertyList m.shape) key a) ∧
      getStorage block { index := 0, attributes := a } = some d := by
  obtain ⟨ps, qs, pre, post, block, hlist, rfl, hpre, hpost, hlen, hlookup⟩ :=
    hm.exists_block wf hkey
  have hndlist := wf.nodup m.shape
  have hndrows := hndlist
  rw [← keys_of_blockWidths hm.widths_eq] at hndrows
  obtain ⟨block', hcells, hlen', hget⟩ := replace_cells hd ha hlen (cells pre) (cells post)
  have hstorage : m.storage = cells pre ++ (block ++ cells post) := by
    rw [hm.storage_eq, cells_append, cells_cons]
  have hassign : Assoc.assign (H.propertyList m.shape) key a = ps ++ (key, a) :: qs := by
    rw [hlist] at hndlist ⊢
    exact Assoc.assign_append_cons hndlist a
  have hrows : Assoc.assign (pre ++ (key, block) :: post) key block' =
      pre ++ (key, block') :: post := Assoc.assign_append_cons hndrows block'
  -- The widths fit whatever became of the other attributes.
  have hholds : ∀ {m' : PropertyMap V} {H' : Shapes},
      m'.storage = cells pre ++ (block' ++ cells post) →
      SameWidths (H'.propertyList m'.shape) (Assoc.assign (H.propertyList m.shape) key a) →
      m'.Holds H' (Assoc.assign (pre ++ (key, block) :: post) key block') := by
    intro m' H' hst hsw
    refine ⟨by rw [hst, hrows, cells_append, cells_cons], ?_⟩
    rw [hsw, hrows, hassign, widths_append, blockWidths, List.map_append]
    simp only [List.map_cons, hlen']
    rw [← hpre]
    exact congrArg _ (congrArg _ hpost)
  by_cases hba : b = a
  · subst hba
    have hw : b.widthMatch b := SlotAttributes.widthMatch_iff.mpr rfl
    rw [if_pos hw] at hcells
    have hsame : Assoc.assign (H.propertyList m.shape) key b = H.propertyList m.shape := by
      rw [hassign, hlist]
    refine ⟨{ m with storage := cells pre ++ (block' ++ cells post) }, H,
      H.propertyList m.shape, block', (cells pre).length, ?_, hlookup, ⟨?_, ?_⟩, ?_, ?_, hget⟩
    · simp only [insertWithSlot, ha, hlookup, Option.bind_some]
      have hwrite : writeCells m.storage (cells pre).length b d =
          some (cells pre ++ (block' ++ cells post)) := by
        rw [hstorage]
        exact hcells
      simp [hwrite]
    · simpa using Shapes.Moves.refl wf hv
    · exact hholds rfl (by rw [hsame]; rfl)
    · rw [hsame]; rfl
    · exact fun _ => hsame.symm
  · obtain ⟨shape', H', ps', hchange, hmoves, hsw, hkept⟩ :=
      Shapes.changeAttributesTransition_spec wf hv hkey (a := a)
    rw [← hstorage] at hcells
    obtain ⟨storage₁, haction, hwrite⟩ := Option.bind_eq_some_iff.mp hcells
    refine ⟨{ shape := shape', storage := cells pre ++ (block' ++ cells post) }, H', ps', block',
      (cells pre).length, ?_, hlookup, ⟨?_, ?_⟩, hsw, hkept, hget⟩
    · simp only [insertWithSlot, ha, hlookup, Option.bind_some, ne_eq, hba, not_false_eq_true,
        if_true, hchange, haction, Option.map_some, hwrite]
    · simpa [hba] using hmoves
    · exact hholds rfl (by rw [hmoves.list_eq]; exact hsw)

/-- **Inserting an absent property** appends its block. -/
theorem insertWithSlot_absent (wf : H.WF) (hv : H.Valid m.shape) (hm : m.Holds H rows)
    (hkey : key ∉ Assoc.keys (H.propertyList m.shape)) {a : SlotAttributes}
    {d : PropertyDescriptor V} (hd : d.IsComplete) (ha : d.toSlotAttributes = some a)
    (outSlot : Slot) :
    ∃ m' H' block, m.insertWithSlot H key d outSlot =
        some (false, insertedSlot outSlot m.storage.length a, m', H') ∧
      Updates true H H' m m' (H.propertyList m.shape ++ [(key, a)]) (H.prototype m.shape)
        (rows ++ [(key, block)]) ∧
      getStorage block { index := 0, attributes := a } = some d := by
  have hnone : H.lookup m.shape key = none := by
    rw [Shapes.lookup_eq wf, Assoc.lookup_eq_none_iff_notMem, keys_layout]
    exact hkey
  obtain ⟨shape', H', hins⟩ : ∃ shape' H', H.insertPropertyTransition m.shape
      { propertyKey := key, attributes := a } = (shape', H') := ⟨_, _, rfl⟩
  have hmoves := Shapes.insertPropertyTransition_spec wf hv hkey hins
  obtain ⟨hlen, hget⟩ := newCells_spec hd ha
  refine ⟨{ shape := shape', storage := m.storage ++ newCells a d }, H', newCells a d, ?_,
    ⟨hmoves, ?_, ?_⟩, hget⟩
  · simp only [insertWithSlot, ha, hnone, Option.bind_some, hins]
  · rw [hm.storage_eq, cells_append]
    simp [cells]
  · rw [hmoves.list_eq, widths_append, ← hm.widths_eq, blockWidths, List.map_append]
    simp [blockWidths, widths, hlen]

omit [Inhabited V] in
/-- **Removing a present property** drops its block; the other properties keep their
attributes where the transition chain keeps them. -/
theorem remove_present (wf : H.WF) (hv : H.Valid m.shape) (hm : m.Holds H rows)
    (hkey : key ∈ Assoc.keys (H.propertyList m.shape)) :
    ∃ m' H' ps, m.remove H key = some (true, m', H') ∧
      Updates false H H' m m' ps (H.prototype m.shape) (Assoc.remove rows key) ∧
      SameWidths ps (Assoc.remove (H.propertyList m.shape) key) ∧
      (H.Kept m.shape key → ps = Assoc.remove (H.propertyList m.shape) key) := by
  obtain ⟨a, ha⟩ := Assoc.exists_lookup_of_mem hkey
  obtain ⟨ps, qs, pre, post, block, hlist, rfl, hpre, hpost, hlen, hlookup⟩ :=
    hm.exists_block wf ha
  have hndlist := wf.nodup m.shape
  have hndrows := hndlist
  rw [← keys_of_blockWidths hm.widths_eq] at hndrows
  have hstorage : m.storage = cells pre ++ (block ++ cells post) := by
    rw [hm.storage_eq, cells_append, cells_cons]
  obtain ⟨shape', H', ps', hremove, hmoves, hsw, hkept⟩ :=
    Shapes.removePropertyTransition_spec wf hv hkey
  refine ⟨{ shape := shape', storage := cells pre ++ cells post }, H', ps', ?_, ⟨hmoves, ?_, ?_⟩,
    hsw, hkept⟩
  · have hcells : ((if a.isAccessorDescriptor then
          Storage.remove m.storage ((cells pre).length + 1) else some m.storage).bind
        fun storage => Storage.remove storage (cells pre).length) =
          some (cells pre ++ cells post) := by
      have h₀ : ∀ t : List V, Storage.remove (cells pre ++ t) (cells pre).length =
          (Storage.remove t 0).map fun t => cells pre ++ t := fun t => remove_append _ t 0
      rw [hstorage]
      rcases block_cases hlen with ⟨hkind, x, rfl⟩ | ⟨hkind, x, y, rfl⟩
      · rw [if_neg (by rw [hkind]; exact Bool.noConfusion), Option.bind_some, h₀]
        rfl
      · rw [if_pos hkind, remove_append, Option.bind_map]
        simp only [Function.comp_def, h₀]
        rfl
    obtain ⟨storage₁, hfirst, hsecond⟩ := Option.bind_eq_some_iff.mp hcells
    simp only [remove, hlookup, hfirst, Option.bind_some, hsecond, hremove, Option.map_some]
  · rw [Assoc.remove_append_cons hndrows, cells_append]
  · rw [Assoc.remove_append_cons hndrows, hmoves.list_eq, hsw, hlist,
      Assoc.remove_append_cons (hlist ▸ hndlist), widths_append, ← hpre, ← hpost, blockWidths,
      List.map_append]
    rfl

end PropertyMap

end BoaLigero
