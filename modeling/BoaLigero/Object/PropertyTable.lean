import Mathlib.Algebra.Ring.Nat
import Mathlib.Data.List.Induction
import BoaLigero.Util.OrderedMap

/-!
# Property Tables

The layout half of an object's shape (`object/shape/slot.rs`,
`object/shape/property_table.rs`). A `PropertyTableInner` keeps the property keys in the
order in which they were added, each with the slot of the object's storage it owns, and a
hash map from a key to its position and slot. Data properties own one storage cell,
accessor properties two; the index of a slot is computed from the slot before it
(`Slot.fromPrevious`).

A table says nothing about which of its properties a shape owns: several shapes share a
table, each owning a prefix of it. What a table stores is therefore stated once, as
`PropertyTableInner.Represents`: the entries are the `layout` of a list of keys and
attributes without repeated keys, and the hash map is its index.

`u32` positions are natural numbers here, and the hash map is a function.

## Main results

* `Represents.cloneCount`, `Represents.insert`, `Represents.setAttributes` — each table
  operation, as an operation on the represented list.
* `Represents.map_eq_some_iff` — the hash map finds exactly the entries.
-/

namespace BoaLigero

/-- The key of a named property (`PropertyKey`): a string or a symbol. Integer keys live in
the indexed properties of an object and never reach its shape. -/
inductive PropertyKey where
  | string (name : String)
  | symbol (id : ℕ)
  deriving DecidableEq, Repr

/-- The attribute bits of a slot (`SlotAttributes`): the property attributes proper, then
the bits reserved for the inline cache. -/
@[ext] structure SlotAttributes where
  writable : Bool := false
  enumerable : Bool := false
  configurable : Bool := false
  get : Bool := false
  set : Bool := false
  inPrototype : Bool := false
  found : Bool := false
  notCacheable : Bool := false
  deriving DecidableEq, Repr

namespace SlotAttributes

/-- No bit set (`SlotAttributes::empty`). -/
def empty : SlotAttributes := {}

/-- Whether the slot holds a getter or a setter (`is_accessor_descriptor`). -/
def isAccessorDescriptor (a : SlotAttributes) : Bool := a.get || a.set

/-- Whether two slots have the same number of cells (`width_match`). -/
def widthMatch (a b : SlotAttributes) : Bool :=
  a.isAccessorDescriptor == b.isAccessorDescriptor

/-- The number of storage cells of a slot (`width`): accessors take two. -/
def width (a : SlotAttributes) : ℕ := 1 + a.isAccessorDescriptor.toNat

/-- Slots match in width exactly when they are both accessors or both data. -/
theorem widthMatch_iff {a b : SlotAttributes} :
    a.widthMatch b ↔ a.isAccessorDescriptor = b.isAccessorDescriptor := by
  simp [widthMatch]

/-- Matching slots have the same width. -/
theorem width_eq_of_widthMatch {a b : SlotAttributes} (h : a.widthMatch b) :
    a.width = b.width := by
  rw [widthMatch_iff] at h
  simp [width, h]

end SlotAttributes

/-- A position of an object's storage with its attributes (`Slot`). -/
@[ext] structure Slot where
  index : ℕ
  attributes : SlotAttributes
  deriving DecidableEq, Repr

namespace Slot

/-- The number of storage cells of a slot (`Slot::width`). -/
def width (s : Slot) : ℕ := s.attributes.width

/-- The slot after `previousSlot` (`Slot::from_previous`). -/
def fromPrevious (previousSlot : Option Slot) (newAttributes : SlotAttributes) : Slot :=
  match previousSlot with
  | none => { index := 0, attributes := newAttributes }
  | some previous => { index := previous.index + previous.width, attributes := newAttributes }

end Slot

/-- The keys of a property list with their attributes, oldest first. -/
abbrev PropertyList := List (PropertyKey × SlotAttributes)

/-! ### Layout -/

/-- The storage cells a property list takes. -/
def totalWidth (ps : PropertyList) : ℕ := (ps.map fun p => p.2.width).sum

@[simp] theorem totalWidth_nil : totalWidth [] = 0 := rfl

@[simp] theorem totalWidth_cons (p : PropertyKey × SlotAttributes) (ps : PropertyList) :
    totalWidth (p :: ps) = p.2.width + totalWidth ps := by simp [totalWidth]

@[simp] theorem totalWidth_append (ps qs : PropertyList) :
    totalWidth (ps ++ qs) = totalWidth ps + totalWidth qs := by simp [totalWidth]

/-- The slots of a property list that starts at storage cell `n`: consecutive, in order,
each as wide as its kind. -/
def layoutFrom : ℕ → PropertyList → List (PropertyKey × Slot)
  | _, [] => []
  | n, (k, a) :: ps => (k, { index := n, attributes := a }) :: layoutFrom (n + a.width) ps

/-- The slots of a property list that fills the storage from its first cell. -/
def layout (ps : PropertyList) : List (PropertyKey × Slot) := layoutFrom 0 ps

@[simp] theorem layout_nil : layout [] = [] := rfl

theorem layoutFrom_append (n : ℕ) (ps qs : PropertyList) :
    layoutFrom n (ps ++ qs) = layoutFrom n ps ++ layoutFrom (n + totalWidth ps) qs := by
  induction ps generalizing n with
  | nil => rfl
  | cons p ps ih => simp [layoutFrom, ih, Nat.add_assoc]

theorem layout_append (ps qs : PropertyList) :
    layout (ps ++ qs) = layout ps ++ layoutFrom (totalWidth ps) qs := by
  simp [layout, layoutFrom_append]

@[simp] theorem keys_layoutFrom (n : ℕ) (ps : PropertyList) :
    Assoc.keys (layoutFrom n ps) = Assoc.keys ps := by
  induction ps generalizing n with
  | nil => rfl
  | cons p ps ih => simp [layoutFrom, ih]

@[simp] theorem keys_layout (ps : PropertyList) : Assoc.keys (layout ps) = Assoc.keys ps :=
  keys_layoutFrom 0 ps

@[simp] theorem length_layout (ps : PropertyList) : (layout ps).length = ps.length := by
  rw [← Assoc.length_keys, keys_layout, Assoc.length_keys]

/-- Laying out a prefix gives a prefix of the layout. -/
theorem layoutFrom_take (n i : ℕ) (ps : PropertyList) :
    layoutFrom n (ps.take i) = (layoutFrom n ps).take i := by
  induction ps generalizing n i with
  | nil => simp [layoutFrom]
  | cons p ps ih => cases i <;> simp [layoutFrom, ih]

theorem layout_take (i : ℕ) (ps : PropertyList) : layout (ps.take i) = (layout ps).take i :=
  layoutFrom_take 0 i ps

/-- Forgetting the cell indices of a layout gives the property list back. -/
theorem layoutFrom_map_attributes (n : ℕ) (ps : PropertyList) :
    (layoutFrom n ps).map (fun e => (e.1, e.2.attributes)) = ps := by
  induction ps generalizing n with
  | nil => rfl
  | cons p ps ih => simp [layoutFrom, ih]

theorem layout_map_attributes (ps : PropertyList) :
    (layout ps).map (fun e => (e.1, e.2.attributes)) = ps :=
  layoutFrom_map_attributes 0 ps

/-- Layouts determine their property lists. -/
theorem layout_injective {ps qs : PropertyList} (h : layout ps = layout qs) : ps = qs := by
  rw [← layout_map_attributes ps, h, layout_map_attributes]

/-- The slot of a key carries the attributes of that key. -/
theorem lookup_layoutFrom_map (n : ℕ) (ps : PropertyList) (k : PropertyKey) :
    ((layoutFrom n ps).lookup k).map Slot.attributes = ps.lookup k := by
  induction ps generalizing n with
  | nil => rfl
  | cons p ps ih =>
      obtain ⟨k', a⟩ := p
      simp only [layoutFrom, List.lookup_cons]
      split
      · rfl
      · exact ih _

theorem lookup_layout_map (ps : PropertyList) (k : PropertyKey) :
    ((layout ps).lookup k).map Slot.attributes = ps.lookup k :=
  lookup_layoutFrom_map 0 ps k

/-- The slot of a key inside the list starts after the cells of the keys before it. -/
theorem lookup_layout_append_cons {ps qs : PropertyList} {k : PropertyKey}
    {a : SlotAttributes} (hk : k ∉ Assoc.keys ps) :
    (layout (ps ++ (k, a) :: qs)).lookup k = some { index := totalWidth ps, attributes := a } := by
  rw [layout_append, Assoc.lookup_append_of_notMem (by simpa using hk)]
  simp [layoutFrom]

/-- The slot after the last one of a layout. -/
theorem fromPrevious_layout (ps : PropertyList) (a : SlotAttributes) :
    Slot.fromPrevious ((layout ps).getLast?.map Prod.snd) a =
      { index := totalWidth ps, attributes := a } := by
  cases ps using List.reverseRecOn with
  | nil => rfl
  | append_singleton ps p =>
      obtain ⟨k, b⟩ := p
      simp [layout_append, layoutFrom, Slot.fromPrevious, Slot.width]

/-- The keys of a property list with the widths of their slots. -/
def widths (ps : PropertyList) : List (PropertyKey × ℕ) := ps.map fun p => (p.1, p.2.width)

theorem widths_append (ps qs : PropertyList) : widths (ps ++ qs) = widths ps ++ widths qs := by
  simp [widths]

/-- The same keys in the same order, with attributes of the same widths. -/
def SameWidths (ps qs : PropertyList) : Prop := widths ps = widths qs

/-- Lists of the same widths have the same keys. -/
theorem SameWidths.keys_eq {ps qs : PropertyList} (h : SameWidths ps qs) :
    Assoc.keys ps = Assoc.keys qs := by
  have hkeys := congrArg Assoc.keys h
  rwa [widths, widths, Assoc.keys_mapValues, Assoc.keys_mapValues] at hkeys

/-- Lists with the same keys whose attributes match in width, key by key. -/
theorem sameWidths_of_lookup {ps qs : PropertyList} (hnd : (Assoc.keys ps).Nodup)
    (hkeys : Assoc.keys ps = Assoc.keys qs)
    (hlook : ∀ k a b, ps.lookup k = some a → qs.lookup k = some b →
      a.isAccessorDescriptor = b.isAccessorDescriptor) : SameWidths ps qs := by
  refine Assoc.eq_of_keys_of_lookup ?_ ?_ fun k hk => ?_
  · rwa [widths, Assoc.keys_mapValues]
  · rw [widths, widths, Assoc.keys_mapValues, Assoc.keys_mapValues, hkeys]
  · rw [widths, Assoc.keys_mapValues] at hk
    obtain ⟨a, ha⟩ := Assoc.exists_lookup_of_mem hk
    obtain ⟨b, hb⟩ := Assoc.exists_lookup_of_mem (hkeys ▸ hk)
    rw [widths, widths, Assoc.lookup_mapValues, Assoc.lookup_mapValues, ha, hb, Option.map_some,
      Option.map_some, SlotAttributes.width, SlotAttributes.width, hlook k a b ha hb]

/-! ### Tables -/

/-- The internal representation of a property table (`PropertyTableInner`). -/
structure PropertyTableInner where
  /-- The position and slot of a key. -/
  map : PropertyKey → Option (ℕ × Slot)
  /-- The keys with their slots, in insertion order. -/
  keys : List (PropertyKey × Slot)

namespace PropertyTableInner

/-- A table without properties (`PropertyTableInner::with_capacity`, `default`). -/
def empty : PropertyTableInner := ⟨fun _ => none, []⟩

instance : Inhabited PropertyTableInner := ⟨empty⟩

/-- One step of the loop of `clone_count`. -/
def pushCloned (t : PropertyTableInner) (e : PropertyKey × Slot) : PropertyTableInner :=
  { keys := t.keys ++ [e]
    map := Function.update t.map e.1 (some (t.keys.length, e.2)) }

/-- A new table with the first `n` properties (`clone_count`). -/
def cloneCount (t : PropertyTableInner) (n : ℕ) : PropertyTableInner :=
  (t.keys.take n).foldl pushCloned empty

/-- Add a property (`PropertyTableInner::insert`). -/
def insert (t : PropertyTableInner) (key : PropertyKey) (attributes : SlotAttributes) :
    PropertyTableInner :=
  let slot := Slot.fromPrevious (t.keys.getLast?.map Prod.snd) attributes
  { keys := t.keys ++ [(key, slot)]
    map := Function.update t.map key (some (t.keys.length, slot)) }

/-- Change the attributes of the entry at position `index` of a key list. -/
def modifyAttributes (keys : List (PropertyKey × Slot)) (index : ℕ)
    (attributes : SlotAttributes) : List (PropertyKey × Slot) :=
  keys.modify index fun e => (e.1, { e.2 with attributes := attributes })

/-- Change the attributes of a property (`set_attributes_at_index`), `none` where the
source is unreachable. -/
def setAttributesAtIndex (t : PropertyTableInner) (key : PropertyKey)
    (attributes : SlotAttributes) : Option PropertyTableInner :=
  match t.map key with
  | none => none
  | some (index, slot) =>
      some {
        map := Function.update t.map key (some (index, { slot with attributes := attributes }))
        keys := modifyAttributes t.keys index attributes }

/-- The slot of a property that must be there (`get_expect`). -/
def getExpect (t : PropertyTableInner) (key : PropertyKey) : Option Slot :=
  (t.map key).map Prod.snd

/-- **What a table stores.** Its entries are the layout of a list of keys and attributes
without repeated keys, and its hash map finds exactly them. -/
structure Represents (t : PropertyTableInner) (ps : PropertyList) : Prop where
  nodup : (Assoc.keys ps).Nodup
  keys_eq : t.keys = layout ps
  map_eq : ∀ k i slot, t.map k = some (i, slot) ↔ (layout ps)[i]? = some (k, slot)

namespace Represents

variable {t : PropertyTableInner} {ps : PropertyList}

/-- The empty table stores no property. -/
theorem empty : PropertyTableInner.empty.Represents [] :=
  ⟨by simp, rfl, by simp [PropertyTableInner.empty]⟩

/-- A table stores one list only. -/
theorem unique {qs : PropertyList} (h : t.Represents ps) (h' : t.Represents qs) : ps = qs :=
  layout_injective (h.keys_eq.symm.trans h'.keys_eq)

/-- Forgetting the cell indices of a table's entries gives the list it stores. -/
theorem map_attributes (h : t.Represents ps) :
    (t.keys.map fun e => (e.1, e.2.attributes)) = ps := by
  rw [h.keys_eq, layout_map_attributes]

/-- A table whose hash map holds every entry and nothing else. -/
theorem of_entries (hnd : (Assoc.keys ps).Nodup) (hkeys : t.keys = layout ps)
    (hin : ∀ i k slot, (layout ps)[i]? = some (k, slot) → t.map k = some (i, slot))
    (hout : ∀ k, k ∉ Assoc.keys ps → t.map k = none) : t.Represents ps := by
  refine ⟨hnd, hkeys, fun k i slot => ⟨fun hm => ?_, hin i k slot⟩⟩
  by_cases hk : k ∈ Assoc.keys ps
  · rw [← keys_layout] at hk
    obtain ⟨slot', hslot'⟩ := Assoc.exists_of_mem_keys hk
    obtain ⟨j, hj⟩ := List.mem_iff_getElem?.mp hslot'
    rw [hin j k slot' hj] at hm
    obtain ⟨rfl, rfl⟩ := Prod.mk.inj (Option.some.inj hm)
    exact hj
  · rw [hout k hk] at hm
    cases hm

/-- A key is in the hash map exactly when it is a key of the list. -/
theorem map_eq_none_iff (h : t.Represents ps) {k : PropertyKey} :
    t.map k = none ↔ k ∉ Assoc.keys ps := by
  constructor
  · intro hnone hmem
    rw [← keys_layout] at hmem
    obtain ⟨slot, hslot⟩ := Assoc.exists_of_mem_keys hmem
    obtain ⟨i, hi⟩ := List.mem_iff_getElem?.mp hslot
    rw [(h.map_eq k i slot).mpr hi] at hnone
    cases hnone
  · intro hk
    cases hm : t.map k with
    | none => rfl
    | some e =>
        obtain ⟨i, slot⟩ := e
        have hi := (h.map_eq k i slot).mp hm
        have hmem := Assoc.mem_keys_of_mem (List.mem_iff_getElem?.mpr ⟨i, hi⟩)
        exact absurd (by simpa using hmem) hk

/-- The slot found by the hash map is the slot of the layout. -/
theorem getExpect_eq (h : t.Represents ps) (k : PropertyKey) :
    t.getExpect k = (layout ps).lookup k := by
  cases hm : t.map k with
  | none =>
      rw [getExpect, hm, Option.map_none, eq_comm, Assoc.lookup_eq_none_iff_notMem, keys_layout]
      exact h.map_eq_none_iff.mp hm
  | some e =>
      obtain ⟨i, slot⟩ := e
      rw [getExpect, hm, Option.map_some, eq_comm,
        Assoc.lookup_eq_some_iff_mem (by simpa using h.nodup)]
      exact List.mem_iff_getElem?.mpr ⟨i, (h.map_eq k i slot).mp hm⟩

/-- Adding an absent property appends it. -/
theorem insert (h : t.Represents ps) {k : PropertyKey} (hk : k ∉ Assoc.keys ps)
    (a : SlotAttributes) : (t.insert k a).Represents (ps ++ [(k, a)]) := by
  have hslot : Slot.fromPrevious (t.keys.getLast?.map Prod.snd) a =
      { index := totalWidth ps, attributes := a } := by
    rw [h.keys_eq, fromPrevious_layout]
  have hlen : t.keys.length = (layout ps).length := by rw [h.keys_eq]
  refine ⟨?_, ?_, fun p i slot => ?_⟩
  · simpa [List.nodup_append, h.nodup] using fun b hb => hb.ne_of_notMem hk
  · simp only [PropertyTableInner.insert, hslot, layout_append, layoutFrom]
    rw [h.keys_eq]
  · by_cases hp : p = k
    · subst hp
      have hj : (layout (ps ++ [(p, a)]))[t.keys.length]? =
          some (p, { index := totalWidth ps, attributes := a }) := by
        rw [hlen, layout_append, List.getElem?_append_right (Nat.le_refl _)]
        simp [layoutFrom]
      have hnd : (Assoc.keys (layout (ps ++ [(p, a)]))).Nodup := by
        simpa [List.nodup_append, h.nodup] using fun b hb => hb.ne_of_notMem hk
      rw [Assoc.getElem?_eq_some_iff_of_nodup hnd hj]
      simp [PropertyTableInner.insert, hslot]
    · have hne : ((k, { index := totalWidth ps, attributes := a }) : PropertyKey × Slot) ≠
          (p, slot) := fun heq => hp (Prod.mk.inj heq).1.symm
      simp only [PropertyTableInner.insert, Function.update_of_ne hp, h.map_eq, layout_append,
        layoutFrom, List.getElem?_append, List.getElem?_singleton]
      split
      · rfl
      · next hi =>
          rw [List.getElem?_eq_none (by omega)]
          split <;> simp [hne]

/-- A table built by pushing the first entries of a layout. -/
theorem foldl_pushCloned (hnd : (Assoc.keys ps).Nodup) :
    ((layout ps).foldl pushCloned PropertyTableInner.empty).Represents ps := by
  induction ps using List.reverseRecOn with
  | nil => exact Represents.empty
  | append_singleton ps p ih =>
      obtain ⟨k, a⟩ := p
      have hnd' := hnd
      rw [Assoc.keys_append, List.nodup_append] at hnd'
      have ih := ih hnd'.1
      have hk : k ∉ Assoc.keys ps := fun h => hnd'.2.2 k h k (by simp) rfl
      have hpush : ((layout ps).foldl pushCloned PropertyTableInner.empty).insert k a =
          (layout (ps ++ [(k, a)])).foldl pushCloned PropertyTableInner.empty := by
        rw [layout_append, List.foldl_append]
        simp only [layoutFrom, List.foldl_cons, List.foldl_nil, PropertyTableInner.insert,
          pushCloned, ih.keys_eq, fromPrevious_layout]
      exact hpush ▸ ih.insert hk a

/-- Cloning the first properties stores the prefix. -/
theorem cloneCount (h : t.Represents ps) (n : ℕ) : (t.cloneCount n).Represents (ps.take n) := by
  have hnd : (Assoc.keys (ps.take n)).Nodup := by
    rw [Assoc.keys_take]
    exact h.nodup.sublist (List.take_sublist _ _)
  have hfold := foldl_pushCloned hnd
  rwa [layout_take, ← h.keys_eq] at hfold

/-- The layout of a list with a property inside. -/
theorem layout_append_cons (ps qs : PropertyList) (k : PropertyKey) (a : SlotAttributes) :
    layout (ps ++ (k, a) :: qs) = layout ps ++
      (k, { index := totalWidth ps, attributes := a }) ::
        layoutFrom (totalWidth ps + a.width) qs := by
  simp [layout_append, layoutFrom]

/-- Changing the attributes of a property to ones of the same width replaces them in
place. -/
theorem setAttributesAtIndex (h : t.Represents ps) {k : PropertyKey} {a b : SlotAttributes}
    (hk : ps.lookup k = some b) (hw : b.widthMatch a) :
    ∃ t', t.setAttributesAtIndex k a = some t' ∧ t'.Represents (Assoc.assign ps k a) := by
  have hmem := (Assoc.lookup_eq_some_iff_mem h.nodup).mp hk
  obtain ⟨l₁, l₂, rfl⟩ := List.append_of_mem hmem
  have hnd := h.nodup
  have hk₁ : k ∉ Assoc.keys l₁ := by
    simp only [Assoc.keys_append, Assoc.keys_cons] at hnd
    exact fun h => (List.nodup_append.mp hnd).2.2 k h k (by simp) rfl
  have hwidth : b.width = a.width := SlotAttributes.width_eq_of_widthMatch hw
  -- The entry of `k` sits right after the entries of `l₁`.
  have hmap : t.map k = some ((layout l₁).length, { index := totalWidth l₁, attributes := b }) := by
    rw [h.map_eq, layout_append_cons, List.getElem?_append_right (Nat.le_refl _)]
    simp
  rw [Assoc.assign_append_cons hnd]
  have hkeys : modifyAttributes t.keys (layout l₁).length a = layout (l₁ ++ (k, a) :: l₂) := by
    rw [modifyAttributes, h.keys_eq, layout_append_cons, layout_append_cons, hwidth,
      List.modify_eq_set_getElem?]
    simp
  have hnd' : (Assoc.keys (layout (l₁ ++ (k, a) :: l₂))).Nodup := by simpa using hnd
  refine ⟨_, by rw [PropertyTableInner.setAttributesAtIndex, hmap], ⟨by simpa using hnd, hkeys, ?_⟩⟩
  intro p i slot
  by_cases hp : p = k
  · subst hp
    have hj : (layout (l₁ ++ (p, a) :: l₂))[(layout l₁).length]? =
        some (p, { index := totalWidth l₁, attributes := a }) := by
      rw [layout_append_cons, List.getElem?_append_right (Nat.le_refl _)]
      simp
    rw [Assoc.getElem?_eq_some_iff_of_nodup hnd' hj]
    simp
  · have hne : ∀ slot', ((k, slot') : PropertyKey × Slot) ≠ (p, slot) :=
      fun slot' heq => hp (Prod.mk.inj heq).1.symm
    simp only [Function.update_of_ne hp]
    rw [h.map_eq, ← hkeys, modifyAttributes, List.getElem?_modify, h.keys_eq]
    split
    · next hi =>
        have hk' := (h.map_eq _ _ _).mp hmap
        rw [← hi, hk']
        simp [hne]
    · simp

end Represents

end PropertyTableInner

end BoaLigero
