import BoaLigero.Object.UniqueShape

/-!
# Shapes

The shape of an object (`object/shape/mod.rs`): a shared shape, or a unique shape of the
object's own. A shared shape whose transition chain reaches `transitionCountMax` is
replaced by a unique one. `Shapes` is the state behind both kinds; a unique shape is its
address, and moving its property table to a new shape leaves an empty table behind.

What an operation does is stated once for both kinds, as `Shapes.Moves`: which properties
and which prototype the new shape has, that shared shapes keep theirs, and that no unique
shape but the object's own is touched.

## Main results

* `insertPropertyTransition_spec`, `changePrototypeTransition_spec` — these two do what
  they say on every shape.
* `removePropertyTransition_spec`, `changeAttributesTransition_spec` — removal and change of
  attributes keep the keys, their order and their widths on every shape, and the other
  attributes too on unique shapes and where the transition chain keeps them.
-/

namespace BoaLigero

/-- The internal representation of a unique shape (`unique_shape::Inner`). -/
structure UniqueShapeInner where
  propertyTable : PropertyTableInner
  prototype : JsPrototype

/-- The state behind shapes: the shared ones, and the unique ones by address. -/
structure Shapes where
  shared : ShapeHeap
  uniques : List UniqueShapeInner

/-- The shape of an object (`Shape`). -/
inductive Shape where
  | unique (addr : ℕ)
  | shared (shape : SharedShape)
  deriving DecidableEq, Repr

namespace Shape

/-- The max transition count of a shared shape from the root node
(`Shape::TRANSITION_COUNT_MAX`). -/
def transitionCountMax : ℕ := 1024

end Shape

namespace Shapes

variable (H : Shapes)

/-- The unique shape at an address. -/
def unique (addr : ℕ) : UniqueShapeInner := H.uniques.getD addr ⟨.empty, none⟩

/-- `UniqueShape::new`. -/
def newUnique (prototype : JsPrototype) (propertyTable : PropertyTableInner) :
    Shape × Shapes :=
  (.unique H.uniques.length, { H with uniques := H.uniques ++ [{ propertyTable, prototype }] })

/-- Change a unique shape in place. -/
def writeUnique (addr : ℕ) (inner : UniqueShapeInner) : Shapes :=
  { H with uniques := H.uniques.set addr inner }

/-- Take the table out of a unique shape, and put it, changed, into a new one; the
prototype is taken along. -/
def moveUnique (addr : ℕ) (propertyTable : PropertyTableInner) : Shape × Shapes :=
  (H.writeUnique addr { propertyTable := .empty, prototype := none }).newUnique
    (H.unique addr).prototype propertyTable

/-- Replace a shared shape with a long transition chain by a unique shape (`to_unique`). -/
def settle (shape : SharedShape) : Shape × Shapes :=
  if Shape.transitionCountMax ≤ shape.transitionCount then
    H.newUnique shape.prototype ((H.shared.propertyTable shape).cloneCount shape.propertyCount)
  else (.shared shape, H)

/-- Look a property up (`Shape::lookup`). -/
def lookup : Shape → PropertyKey → Option Slot
  | .shared shape, key => H.shared.lookup shape key
  | .unique addr, key => ((H.unique addr).propertyTable.map key).map Prod.snd

/-- The prototype of a shape (`Shape::prototype`). -/
def prototype : Shape → JsPrototype
  | .shared shape => shape.prototype
  | .unique addr => (H.unique addr).prototype

/-- `Shape::insert_property_transition`. -/
def insertPropertyTransition : Shape → TransitionKey → Shape × Shapes
  | .shared shape, key =>
      let (shape, shared) := H.shared.insertPropertyTransition shape key
      { H with shared }.settle shape
  | .unique addr, key =>
      let inner := H.unique addr
      (.unique addr, H.writeUnique addr { inner with
        propertyTable := inner.propertyTable.insert key.propertyKey key.attributes })

/-- `Shape::change_attributes_transition`. -/
def changeAttributesTransition :
    Shape → TransitionKey → Option ((Shape × ChangeTransitionAction) × Shapes)
  | .shared shape, key =>
      (H.shared.changeAttributesTransition shape key).map fun ((shape, action), shared) =>
        let (shape, H) := { H with shared }.settle shape
        ((shape, action), H)
  | .unique addr, key =>
      ((H.unique addr).propertyTable.changeAttributes key).map fun (propertyTable, action) =>
        let (shape, H) := H.moveUnique addr propertyTable
        ((shape, action), H)

/-- `Shape::remove_property_transition`. -/
def removePropertyTransition : Shape → PropertyKey → Option (Shape × Shapes)
  | .shared shape, key =>
      (H.shared.removePropertyTransition shape key).map fun (shape, shared) =>
        { H with shared }.settle shape
  | .unique addr, key =>
      ((H.unique addr).propertyTable.removeProperty key).map fun
        | some propertyTable => H.moveUnique addr propertyTable
        | none => (.unique addr, H)

/-- `Shape::change_prototype_transition`: the old unique shape loses its table but not its
prototype. -/
def changePrototypeTransition : Shape → JsPrototype → Shape × Shapes
  | .shared shape, prototype =>
      let (shape, shared) := H.shared.changePrototypeTransition shape prototype
      { H with shared }.settle shape
  | .unique addr, prototype =>
      let inner := H.unique addr
      (H.writeUnique addr { inner with propertyTable := .empty }).newUnique prototype
        inner.propertyTable

/-! ### What a shape says -/

/-- The properties of a shape with their attributes, in insertion order. -/
def propertyList : Shape → PropertyList
  | .shared shape => H.shared.propertyList shape
  | .unique addr => PropertyTableInner.attributesOf (H.unique addr).propertyTable.keys

/-- What shapes say does not depend on what the collector left alive. -/
@[simp] theorem propertyList_withAlive (H : Shapes) (alive : ℕ → Bool) (shape : Shape) :
    { H with shared := { H.shared with alive := alive } }.propertyList shape =
      H.propertyList shape := by
  cases shape <;> rfl

/-- A shape of this state. -/
def Valid : Shape → Prop
  | .shared shape => H.shared.Valid shape
  | .unique addr => addr < H.uniques.length

/-- The invariant of the shapes. -/
structure WF (H : Shapes) : Prop where
  shared : H.shared.WF
  unique : ∀ inner ∈ H.uniques,
    inner.propertyTable.Represents (PropertyTableInner.attributesOf inner.propertyTable.keys)

/-- Rolling back a property of this shape finds the attributes that the others have now;
unique shapes do not roll back. -/
def Kept (H : Shapes) : Shape → PropertyKey → Prop
  | .shared s, key => H.shared.Kept s key
  | .unique _, _ => True

/-- What an operation on a shape does: its result has the properties `ps` and the prototype
`q`, the shared shapes keep what they say, and no unique shape but the one operated on
changes. The result is a new unique shape, unless the operation works in place. -/
structure Moves (inPlace : Bool) (H H' : Shapes) (shape shape' : Shape) (ps : PropertyList)
    (q : JsPrototype) : Prop where
  wf : H'.WF
  shared : H.shared.Extends H'.shared
  length : H.uniques.length ≤ H'.uniques.length
  frame : ∀ u, shape ≠ .unique u → u < H.uniques.length → H'.uniques[u]? = H.uniques[u]?
  owner : ∀ u, shape' = .unique u →
    (inPlace = true ∧ shape = .unique u) ∨ H.uniques.length ≤ u
  valid : H'.Valid shape'
  list_eq : H'.propertyList shape' = ps
  prototype_eq : H'.prototype shape' = q

variable {H H' : Shapes} {shape shape' : Shape} {key : PropertyKey} {ps : PropertyList}
  {q : JsPrototype}

theorem WF.represents (wf : H.WF) (addr : ℕ) : (H.unique addr).propertyTable.Represents
    (PropertyTableInner.attributesOf (H.unique addr).propertyTable.keys) := by
  rw [Shapes.unique, List.getD_eq_getElem?_getD]
  cases hu : H.uniques[addr]? with
  | none => exact .empty
  | some inner => exact wf.unique inner (List.mem_of_getElem? hu)

/-- No shape lists a property twice. -/
theorem WF.nodup (wf : H.WF) (shape : Shape) : (Assoc.keys (H.propertyList shape)).Nodup := by
  cases shape with
  | shared s => exact wf.shared.nodup s
  | unique addr => exact (wf.represents addr).nodup

/-- **Looking a property up** finds its slot in the layout of the shape's properties. -/
theorem lookup_eq (wf : H.WF) (shape : Shape) (key : PropertyKey) :
    H.lookup shape key = (layout (H.propertyList shape)).lookup key := by
  cases shape with
  | shared s => exact ShapeHeap.lookup_eq wf.shared s key
  | unique addr => exact (wf.represents addr).getExpect_eq key

/-- Shapes that are not operated on stay as they are. -/
theorem Moves.propertyList_eq {inPlace : Bool} (hm : Moves inPlace H H' shape shape' ps q)
    (wf : H.WF) {other : Shape} (hv : H.Valid other)
    (hne : ∀ u, other = .unique u → shape ≠ .unique u) :
    H'.Valid other ∧ H'.propertyList other = H.propertyList other ∧
      H'.prototype other = H.prototype other := by
  cases other with
  | shared s =>
      exact ⟨hm.shared.valid hv, hm.shared.propertyList_eq wf.shared hv, rfl⟩
  | unique u =>
      have hu := hm.frame u (hne u rfl) hv
      have hget : H'.unique u = H.unique u := by
        rw [unique, unique, List.getD_eq_getElem?_getD, hu, List.getD_eq_getElem?_getD]
      exact ⟨lt_of_lt_of_le hv hm.length, by rw [propertyList, hget]; rfl,
        by rw [prototype, hget]; rfl⟩

/-- Doing nothing. -/
theorem Moves.refl (wf : H.WF) (hv : H.Valid shape) :
    Moves true H H shape shape (H.propertyList shape) (H.prototype shape) :=
  ⟨wf, .refl _, le_rfl, fun _ _ _ => rfl, fun _ hu => .inl ⟨rfl, hu⟩, hv, rfl, rfl⟩

/-! ### Building blocks -/

/-- A new unique shape. -/
theorem newUnique_moves (wf : H.WF) {t : PropertyTableInner} (ht : t.Represents ps)
    (shape : Shape) (q : JsPrototype) :
    Moves false H (H.newUnique q t).2 shape (H.newUnique q t).1 ps q := by
  have hget : (H.newUnique q t).2.unique H.uniques.length = { propertyTable := t, prototype := q } := by
    simp [unique, newUnique]
  refine ⟨⟨wf.shared, ?_⟩, .refl _, by simp [newUnique], ?_, ?_, by simp [newUnique, Valid], ?_, ?_⟩
  · intro inner hinner
    rcases List.mem_append.mp hinner with hinner | hinner
    · exact wf.unique inner hinner
    · rw [List.mem_singleton.mp hinner]
      exact (show PropertyTableInner.attributesOf t.keys = ps from ht.map_attributes) ▸ ht
  · intro u _ hu
    exact List.getElem?_append_left hu
  · intro u hu
    obtain rfl : H.uniques.length = u := Shape.unique.inj hu
    exact .inr le_rfl
  · show PropertyTableInner.attributesOf ((H.newUnique q t).2.unique H.uniques.length).propertyTable.keys = ps
    rw [hget]
    exact ht.map_attributes
  · show ((H.newUnique q t).2.unique H.uniques.length).prototype = q
    rw [hget]

/-- Changing a unique shape in place. -/
theorem writeUnique_moves (wf : H.WF) {addr : ℕ} (hv : addr < H.uniques.length)
    {t : PropertyTableInner} (ht : t.Represents ps) (q : JsPrototype) :
    Moves true H (H.writeUnique addr { propertyTable := t, prototype := q }) (.unique addr)
      (.unique addr) ps q := by
  have hget : (H.writeUnique addr { propertyTable := t, prototype := q }).unique addr =
      { propertyTable := t, prototype := q } := by
    simp [unique, writeUnique, hv]
  refine ⟨⟨wf.shared, ?_⟩, .refl _, by simp [writeUnique], ?_, ?_, by simpa [writeUnique, Valid], ?_, ?_⟩
  · intro inner hinner
    rcases List.mem_or_eq_of_mem_set hinner with hinner | rfl
    · exact wf.unique inner hinner
    · exact (show PropertyTableInner.attributesOf t.keys = ps from ht.map_attributes) ▸ ht
  · intro u hu _
    refine List.getElem?_set_ne fun h => hu ?_
    rw [h]
  · intro u hu
    exact .inl ⟨rfl, hu⟩
  · rw [propertyList, hget]
    exact ht.map_attributes
  · rw [prototype, hget]

/-- The operation that writes the old shape and then makes a new one. -/
theorem Moves.thenNew {addr : ℕ} {ps' : PropertyList} {q' : JsPrototype} {t : PropertyTableInner}
    (hm : Moves true H H' (.unique addr) (.unique addr) ps' q') (ht : t.Represents ps)
    (q : JsPrototype) :
    Moves false H (H'.newUnique q t).2 (.unique addr) (H'.newUnique q t).1 ps q := by
  have hn := newUnique_moves hm.wf ht (.unique addr) q
  refine ⟨hn.wf, hm.shared, hm.length.trans hn.length, fun u hne hu => ?_, fun u hu => ?_,
    hn.valid, hn.list_eq, hn.prototype_eq⟩
  · rw [hn.frame u hne (lt_of_lt_of_le hu hm.length), hm.frame u hne hu]
  · rcases hn.owner u hu with ⟨h, -⟩ | hle
    · cases h
    · exact .inr (hm.length.trans hle)

/-- Moving the table of a unique shape. -/
theorem moveUnique_moves (wf : H.WF) {addr : ℕ} (hv : addr < H.uniques.length)
    {t : PropertyTableInner} (ht : t.Represents ps) :
    Moves false H (H.moveUnique addr t).2 (.unique addr) (H.moveUnique addr t).1 ps
      (H.prototype (.unique addr)) :=
  (writeUnique_moves wf hv .empty none).thenNew ht _

/-- A shared shape produced from the shared state. -/
theorem shared_moves (wf : H.WF) {s s' : SharedShape} {shared' : ShapeHeap}
    (hp : H.shared.Produces shared' s' ps q) :
    Moves false H { H with shared := shared' } (.shared s) (.shared s') ps q :=
  ⟨⟨hp.wf, wf.unique⟩, hp.extends_heap, le_rfl, fun _ _ _ => rfl, fun _ hu => (nomatch hu),
    hp.valid, hp.list_eq, hp.prototype_eq⟩

/-- A shared shape produced from the shared state, settled. -/
theorem settle_moves (wf : H.WF) {s s' : SharedShape} {shared' : ShapeHeap}
    (hp : H.shared.Produces shared' s' ps q) :
    Moves false H ({ H with shared := shared' }.settle s').2 (.shared s)
      ({ H with shared := shared' }.settle s').1 ps q := by
  have hm := shared_moves (s := s) wf hp
  rw [settle]
  split
  · have hrep := (hp.wf.represents s'.inner.propertyTable).cloneCount s'.propertyCount
    have hlist : (shared'.entries s'.inner.propertyTable).take s'.propertyCount = ps := hp.list_eq
    rw [hlist] at hrep
    have hn := newUnique_moves hm.wf hrep (.shared s) s'.prototype
    exact ⟨hn.wf, hp.extends_heap, hn.length, hn.frame, hn.owner, hn.valid, hn.list_eq,
      hn.prototype_eq.trans hp.prototype_eq⟩
  · exact hm

/-! ### The operations -/

/-- **Inserting an absent property** appends it. -/
theorem insertPropertyTransition_spec (wf : H.WF) (hv : H.Valid shape)
    (hk : key ∉ Assoc.keys (H.propertyList shape)) {a : SlotAttributes}
    (heq : H.insertPropertyTransition shape { propertyKey := key, attributes := a } =
      (shape', H')) :
    Moves true H H' shape shape' (H.propertyList shape ++ [(key, a)]) (H.prototype shape) := by
  cases shape with
  | shared s =>
      obtain ⟨s₁, h₁, hins⟩ : ∃ s₁ h₁, H.shared.insertPropertyTransition s
          { propertyKey := key, attributes := a } = (s₁, h₁) := ⟨_, _, rfl⟩
      have hm := settle_moves (s := s) wf
        (ShapeHeap.insertPropertyTransition_spec wf.shared hv hk hins)
      simp only [insertPropertyTransition, hins] at heq
      rw [heq] at hm
      refine ⟨hm.wf, hm.shared, hm.length, hm.frame, fun u hu => .inr ?_, hm.valid, hm.list_eq,
        hm.prototype_eq⟩
      rcases hm.owner u hu with ⟨h, -⟩ | hle
      · cases h
      · exact hle
  | unique addr =>
      obtain ⟨rfl, rfl⟩ := Prod.mk.inj heq
      exact writeUnique_moves wf hv ((wf.represents addr).insert hk a) _

/-- **Changing the prototype** keeps the properties. -/
theorem changePrototypeTransition_spec (wf : H.WF) (hv : H.Valid shape)
    (heq : H.changePrototypeTransition shape q = (shape', H')) :
    Moves false H H' shape shape' (H.propertyList shape) q := by
  cases shape with
  | shared s =>
      obtain ⟨s₁, h₁, hproto⟩ : ∃ s₁ h₁, H.shared.changePrototypeTransition s q = (s₁, h₁) :=
        ⟨_, _, rfl⟩
      have hm := settle_moves (s := s) wf
        (ShapeHeap.changePrototypeTransition_spec wf.shared hv hproto)
      simp only [changePrototypeTransition, hproto] at heq
      rwa [heq] at hm
  | unique addr =>
      obtain ⟨rfl, rfl⟩ := Prod.mk.inj heq
      exact (writeUnique_moves wf hv .empty _).thenNew (wf.represents addr) q

/-- **Removing a present property** never fails. The other properties keep their order and
widths, and their attributes too where the transition chain keeps them. -/
theorem removePropertyTransition_spec (wf : H.WF) (hv : H.Valid shape)
    (hkey : key ∈ Assoc.keys (H.propertyList shape)) :
    ∃ shape' H' ps, H.removePropertyTransition shape key = some (shape', H') ∧
      Moves false H H' shape shape' ps (H.prototype shape) ∧
      SameWidths ps (Assoc.remove (H.propertyList shape) key) ∧
      (H.Kept shape key → ps = Assoc.remove (H.propertyList shape) key) := by
  cases shape with
  | shared s =>
      obtain ⟨s', h', pre, post, heq, hspec, hreb⟩ :=
        ShapeHeap.removePropertyTransition_spec wf.shared hv hkey
      refine ⟨_, _, pre ++ post, ?_, settle_moves wf hspec, ?_, ?_⟩
      · simp only [removePropertyTransition, heq, Option.map_some]
      · exact ShapeHeap.sameWidths_removed wf.shared hv hreb
      · exact (ShapeHeap.removed_eq_iff wf.shared hreb).mpr
  | unique addr =>
      obtain ⟨t', heq, ht'⟩ := (wf.represents addr).removeProperty hkey
      refine ⟨_, _, _, ?_, moveUnique_moves wf hv ht', rfl, fun _ => rfl⟩
      simp only [removePropertyTransition, heq, Option.map_some]

/-- **Changing the attributes of a present property** never fails, and its storage action
is that of the change of width. The other properties keep their order and widths, and their
attributes too where the transition chain keeps them. -/
theorem changeAttributesTransition_spec (wf : H.WF) (hv : H.Valid shape)
    {a b : SlotAttributes} (hkey : (H.propertyList shape).lookup key = some b) :
    ∃ shape' H' ps,
      H.changeAttributesTransition shape { propertyKey := key, attributes := a } =
        some ((shape', if b.widthMatch a then .nothing
          else if b.isAccessorDescriptor then .remove else .insert), H') ∧
      Moves false H H' shape shape' ps (H.prototype shape) ∧
      SameWidths ps (Assoc.assign (H.propertyList shape) key a) ∧
      (b.widthMatch a ∨ H.Kept shape key → ps = Assoc.assign (H.propertyList shape) key a) := by
  cases shape with
  | shared s =>
      by_cases hw : b.widthMatch a
      · obtain ⟨s', h', heq, hspec⟩ :=
          ShapeHeap.changeAttributesTransition_of_widthMatch wf.shared hv hkey hw
        refine ⟨_, _, _, ?_, settle_moves wf hspec, rfl, fun _ => rfl⟩
        simp only [changeAttributesTransition, heq, Option.map_some, hw, if_true]
      · obtain ⟨s', h', pre, post, heq, hspec, hreb⟩ :=
          ShapeHeap.changeAttributesTransition_of_not_widthMatch wf.shared hv hkey hw
        refine ⟨_, _, _, ?_, settle_moves wf hspec, ?_, ?_⟩
        · simp only [changeAttributesTransition, heq, Option.map_some, hw]
          rfl
        · exact ShapeHeap.sameWidths_converted wf.shared hv hreb a
        · exact fun hkept => (ShapeHeap.converted_eq_iff wf.shared hreb a).mpr
            (hkept.resolve_left hw)
  | unique addr =>
      obtain ⟨t', heq, ht'⟩ := (wf.represents addr).changeAttributes hkey (a := a)
      refine ⟨_, _, _, ?_, moveUnique_moves wf hv ht', rfl, fun _ => rfl⟩
      simp only [changeAttributesTransition, heq, Option.map_some]
      congr 3
      by_cases hw : b.widthMatch a
      · rw [if_pos hw, if_pos hw]
      · rw [if_neg hw, if_neg hw]
        rw [SlotAttributes.widthMatch_iff] at hw
        cases ha : a.isAccessorDescriptor <;> cases hb : b.isAccessorDescriptor <;> simp_all

/-! ### The shapes of several objects -/

/-- The slots of a shape, in key order, as its table has them. -/
def slots (H : Shapes) : Shape → List (PropertyKey × Slot)
  | .shared s => (H.shared.propertyTable s).keys.take s.propertyCount
  | .unique addr => (H.unique addr).propertyTable.keys

/-- The slots of a shape are the layout of its properties. -/
theorem slots_eq (wf : H.WF) (shape : Shape) : H.slots shape = layout (H.propertyList shape) := by
  cases shape with
  | shared s =>
      rw [slots, propertyList, ShapeHeap.propertyList, layout_take, ShapeHeap.propertyTable,
        (wf.shared.represents _).keys_eq]
  | unique addr => exact (wf.represents addr).keys_eq

/-- The shapes in use: they are valid, and no two objects share a unique shape. -/
structure Owned (H : Shapes) (shapes : List Shape) : Prop where
  wf : H.WF
  valid : ∀ shape ∈ shapes, H.Valid shape
  distinct : ∀ i j u : ℕ, shapes[i]? = some (.unique u) → shapes[j]? = some (.unique u) → i = j

namespace Owned

variable {shapes : List Shape} {inPlace : Bool}

/-- An operation on the shape of one object leaves the shapes of the others as they are. -/
theorem other (ho : Owned H shapes) {i j : ℕ} {other : Shape} (hi : shapes[i]? = some shape)
    (hj : shapes[j]? = some other) (hij : i ≠ j)
    (hm : Moves inPlace H H' shape shape' ps q) :
    H'.Valid other ∧ H'.propertyList other = H.propertyList other ∧
      H'.prototype other = H.prototype other := by
  refine hm.propertyList_eq ho.wf (ho.valid other (List.mem_of_getElem? hj)) ?_
  rintro u rfl rfl
  exact hij (ho.distinct i j u hi hj)

/-- An operation on the shape of one object keeps the shapes owned. -/
theorem set (ho : Owned H shapes) {i : ℕ} (hi : shapes[i]? = some shape)
    (hm : Moves inPlace H H' shape shape' ps q) : Owned H' (shapes.set i shape') := by
  have hlt := (List.getElem?_eq_some_iff.mp hi).1
  -- The new shape is no one else's.
  have hnew : ∀ j u : ℕ, i ≠ j → shapes[j]? = some (.unique u) → shape' ≠ .unique u := by
    rintro j u hij hj rfl
    rcases hm.owner u rfl with ⟨-, rfl⟩ | hle
    · exact hij (ho.distinct i j u hi hj)
    · exact absurd (ho.valid _ (List.mem_of_getElem? hj)) (Nat.not_lt.mpr hle)
  refine ⟨hm.wf, fun s hs => ?_, fun a b u ha hb => ?_⟩
  · obtain ⟨j, hj⟩ := List.mem_iff_getElem?.mp hs
    by_cases hij : i = j
    · subst hij
      rw [List.getElem?_set_self hlt] at hj
      exact Option.some.inj hj ▸ hm.valid
    · rw [List.getElem?_set_ne hij] at hj
      exact (ho.other hi hj hij hm).1
  · by_cases hia : i = a
    · subst hia
      rw [List.getElem?_set_self hlt] at ha
      by_cases hib : i = b
      · exact hib
      · rw [List.getElem?_set_ne hib] at hb
        exact absurd (Option.some.inj ha) (hnew b u hib hb)
    · rw [List.getElem?_set_ne hia] at ha
      by_cases hib : i = b
      · subst hib
        rw [List.getElem?_set_self hlt] at hb
        exact absurd (Option.some.inj hb) (hnew a u hia ha)
      · rw [List.getElem?_set_ne hib] at hb
        exact ho.distinct a b u ha hb

/-- A collection leaves the shapes in use as they are. -/
theorem collect (ho : Owned H shapes) (alive : ℕ → Bool) :
    Owned { H with shared := { H.shared with alive := alive } } shapes := by
  refine ⟨⟨ho.wf.shared.withAlive alive, ho.wf.unique⟩, fun s hs => ?_, ho.distinct⟩
  have hv := ho.valid s hs
  cases s <;> exact hv

/-- A new object brings its own shape. -/
theorem push (ho : Owned H shapes) (hm : Moves false H H' shape shape' ps q)
    (hfree : ∀ u, Shape.unique u ∈ shapes → shape ≠ .unique u) :
    Owned H' (shapes ++ [shape']) := by
  have hnew : ∀ u, Shape.unique u ∈ shapes → shape' ≠ .unique u := by
    rintro u hu rfl
    rcases hm.owner u rfl with ⟨h, -⟩ | hle
    · cases h
    · exact absurd (ho.valid _ hu) (Nat.not_lt.mpr hle)
  have hcases : ∀ (j : ℕ) s, (shapes ++ [shape'])[j]? = some s →
      shapes[j]? = some s ∨ (j = shapes.length ∧ s = shape') := by
    intro j s hj
    rw [List.getElem?_append] at hj
    split at hj
    · exact .inl hj
    · rw [List.getElem?_singleton] at hj
      split at hj
      · exact .inr ⟨by omega, (Option.some.inj hj).symm⟩
      · cases hj
  refine ⟨hm.wf, fun s hs => ?_, fun a b u ha hb => ?_⟩
  · rcases List.mem_append.mp hs with hs | hs
    · exact (hm.propertyList_eq ho.wf (ho.valid s hs) fun u hu => hfree u (hu ▸ hs)).1
    · exact List.mem_singleton.mp hs ▸ hm.valid
  · rcases hcases a _ ha with ha' | ⟨hlast, ha'⟩ <;>
      rcases hcases b _ hb with hb' | ⟨hlast', hb'⟩
    · exact ho.distinct a b u ha' hb'
    · exact absurd hb'.symm (hnew u (List.mem_of_getElem? ha'))
    · exact absurd ha'.symm (hnew u (List.mem_of_getElem? hb'))
    · exact hlast.trans hlast'.symm

/-- The shapes of the other objects, after a new one was added. -/
theorem other_push (ho : Owned H shapes) (hm : Moves false H H' shape shape' ps q)
    (hfree : ∀ u, Shape.unique u ∈ shapes → shape ≠ .unique u) {s : Shape} (hs : s ∈ shapes) :
    H'.propertyList s = H.propertyList s ∧ H'.prototype s = H.prototype s :=
  (hm.propertyList_eq ho.wf (ho.valid s hs) fun u hu => hfree u (hu ▸ hs)).2

end Owned

end Shapes

end BoaLigero
