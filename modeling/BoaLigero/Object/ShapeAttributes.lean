import BoaLigero.Object.Shape

/-!
# The Attributes That Occur in Shapes

Shapes make no attributes up: whatever a transition does, rolling back included, every
attribute of a new table was requested or was in some table before. A property `Q` that all
requested attributes have therefore holds of all attributes of all tables, whatever the
history of the shapes.

## Main results

* `Shapes.EachAttribute.insertPropertyTransition`, `.changePrototypeTransition`,
  `.removePropertyTransition`, `.changeAttributesTransition` — every operation on shapes
  keeps `Q`.
* `Shapes.EachAttribute.of_lookup` — so every slot that is found has it.
-/

namespace BoaLigero

variable {Q : SlotAttributes → Prop}

namespace PropertyTableInner

/-- Every attribute of a table satisfies `Q`. -/
def EachAttribute (Q : SlotAttributes → Prop) (t : PropertyTableInner) : Prop :=
  ∀ e ∈ t.keys, Q e.2.attributes

namespace EachAttribute

variable {t : PropertyTableInner}

/-- The empty table has no slots, so that each of them has the property. -/
theorem empty : EachAttribute Q PropertyTableInner.empty :=
  fun _ he => (nomatch he)

/-- For a table that represents a list, the attributes are those of the list. -/
theorem iff_of_represents {ps : PropertyList} (hrep : t.Represents ps) :
    t.EachAttribute Q ↔ ∀ p ∈ ps, Q p.2 := by
  rw [EachAttribute, ← hrep.map_attributes]
  simp only [List.mem_map, forall_exists_index, and_imp, forall_apply_eq_imp_iff₂]

/-- Adding a slot whose attributes have the property keeps it for each slot of the table. -/
theorem insert (ht : t.EachAttribute Q) (key : PropertyKey) {a : SlotAttributes} (ha : Q a) :
    (t.insert key a).EachAttribute Q := by
  intro e he
  rcases List.mem_append.mp he with he | he
  · exact ht e he
  · rw [List.mem_singleton.mp he, fromPrevious_eq]
    exact ha

/-- Pushing slots one after the other keeps the property, if the slots that are pushed have it. -/
theorem foldl_pushCloned {es : List (PropertyKey × Slot)} (hes : ∀ e ∈ es, Q e.2.attributes)
    (ht : t.EachAttribute Q) : (es.foldl pushCloned t).EachAttribute Q := by
  induction es generalizing t with
  | nil => exact ht
  | cons e es ih =>
      refine ih (fun e' he' => hes e' (List.mem_cons_of_mem _ he')) fun e' he' => ?_
      rcases List.mem_append.mp he' with he' | he'
      · exact ht e' he'
      · exact List.mem_singleton.mp he' ▸ hes e List.mem_cons_self

/-- A copy of the first slots of a table has the property if the table has it. -/
theorem cloneCount (ht : t.EachAttribute Q) (n : ℕ) : (t.cloneCount n).EachAttribute Q :=
  foldl_pushCloned (fun e he => ht e (List.mem_of_mem_take he)) empty

/-- Changing the attributes at one index keeps the property, if the new attributes have it. -/
theorem modifyAttributes {es : List (PropertyKey × Slot)} (hes : ∀ e ∈ es, Q e.2.attributes)
    (index : ℕ) {a : SlotAttributes} (ha : Q a) :
    ∀ e ∈ PropertyTableInner.modifyAttributes es index a, Q e.2.attributes := by
  intro e he
  obtain ⟨i, hi⟩ := List.mem_iff_getElem?.mp he
  rw [PropertyTableInner.modifyAttributes, List.getElem?_modify] at hi
  obtain ⟨e', he', heq⟩ := Option.map_eq_some_iff.mp hi
  split at heq
  · exact heq ▸ ha
  · exact heq ▸ hes e' (List.mem_of_getElem? he')

/-- Changing the attributes of one key of a table keeps the property of each slot. -/
theorem setAttributesAtIndex (ht : t.EachAttribute Q) {key : PropertyKey} {a : SlotAttributes}
    (ha : Q a) {t' : PropertyTableInner} (heq : t.setAttributesAtIndex key a = some t') :
    t'.EachAttribute Q := by
  rw [PropertyTableInner.setAttributesAtIndex] at heq
  split at heq
  · cases heq
  · obtain rfl := Option.some.inj heq
    exact modifyAttributes ht _ ha

end EachAttribute

end PropertyTableInner

namespace ShapeHeap

/-- Every attribute of every table satisfies `Q`. -/
def EachAttribute (Q : SlotAttributes → Prop) (h : ShapeHeap) : Prop :=
  ∀ i, (h.tables i).EachAttribute Q

namespace EachAttribute

variable {h : ShapeHeap} {s : SharedShape} {a : SlotAttributes}

/-- Replacing one table by a table with the property keeps it for all tables of a heap. -/
theorem update (hQ : h.EachAttribute Q) (i : ℕ) {t : PropertyTableInner} (ht : t.EachAttribute Q) :
    ∀ j, (Function.update h.tables i t j).EachAttribute Q := by
  intro j
  by_cases hj : j = i
  · subst hj
    rwa [Function.update_self]
  · rw [Function.update_of_ne hj]
    exact hQ j

/-- Adding a slot to a table, or to a copy of it where the table is longer, keeps the property in
the heap. -/
theorem addPropertyDeepCloneIfNeeded (hQ : h.EachAttribute Q) (table : ℕ) (key : PropertyKey)
    (ha : Q a) (n : ℕ) :
    (h.addPropertyDeepCloneIfNeeded table key a n).2.EachAttribute Q := by
  simp only [ShapeHeap.addPropertyDeepCloneIfNeeded]
  split
  · exact hQ.update _ ((hQ table).insert key ha)
  · exact hQ.update _ (((hQ table).cloneCount n).insert key ha)

/-- A new insert shape keeps the property, if the attributes of what is inserted have it. -/
theorem newInsertShape (hQ : h.EachAttribute Q) (s : SharedShape) (key : PropertyKey) (ha : Q a) :
    (h.newInsertShape s { propertyKey := key, attributes := a }).2.EachAttribute Q :=
  hQ.addPropertyDeepCloneIfNeeded _ key ha _

/-- An insert transition, taken from the cache or made anew, keeps the property in the heap. -/
theorem insertPropertyTransition (hQ : h.EachAttribute Q) (s : SharedShape) (key : PropertyKey)
    (ha : Q a) :
    (h.insertPropertyTransition s { propertyKey := key, attributes := a }).2.EachAttribute Q := by
  rw [ShapeHeap.insertPropertyTransition]
  split
  · split
    · exact hQ
    · exact newInsertShape (h := h.prunePropertyTransitions s.addr) hQ s key ha
  · exact hQ.newInsertShape s key ha

/-- A prototype transition adds no slot, and keeps the property in the heap. -/
theorem changePrototypeTransition (hQ : h.EachAttribute Q) (s : SharedShape) (q : JsPrototype) :
    (h.changePrototypeTransition s q).2.EachAttribute Q := by
  rw [ShapeHeap.changePrototypeTransition]
  split
  · split <;> exact hQ
  · exact hQ

/-- Insert transitions one after the other keep the property, if all that is inserted has it. -/
theorem insertTransitions (hQ : h.EachAttribute Q) (s : SharedShape) {transitions : PropertyList}
    (htr : ∀ p ∈ transitions, Q p.2) : (h.insertTransitions s transitions).2.EachAttribute Q := by
  induction transitions generalizing h s with
  | nil => exact hQ
  | cons p rest ih =>
      exact ih (hQ.insertPropertyTransition s p.1 (htr p List.mem_cons_self)) _
        fun p' hp' => htr p' (List.mem_cons_of_mem _ hp')

/-- The slot that a shape finds for its last key has attributes with the property. -/
theorem property (hQ : h.EachAttribute Q) {key : PropertyKey} {slot : Slot}
    (heq : h.property s = some (key, slot)) : Q slot.attributes :=
  hQ _ _ (List.mem_of_getElem? heq)

/-- Walking back collects attributes of tables only. -/
theorem rollbackLoop (hQ : h.EachAttribute Q) {key : PropertyKey} {q q' : Option JsPrototype}
    {transitions found : PropertyList} {base : SharedShape} (htr : ∀ p ∈ transitions, Q p.2)
    (heq : h.rollbackLoop key s q transitions = some (base, q', found)) :
    ∀ p ∈ found, Q p.2 := by
  induction s generalizing q transitions with
  | root inner =>
      rw [ShapeHeap.rollbackLoop] at heq
      split at heq
      · cases heq
      · split at heq
        · cases heq
        · split at heq
          · cases heq
            exact htr
          · cases heq
  | next inner previous ih =>
      rw [ShapeHeap.rollbackLoop] at heq
      split at heq
      · exact ih htr heq
      · split at heq
        · cases heq
        · next k slot hprop =>
            split at heq
            · cases heq
              exact htr
            · split at heq
              · exact ih htr heq
              · refine ih (fun p hp => ?_) heq
                rcases exists_orInsert transitions k slot.attributes with ⟨-, hor⟩ | ⟨-, hor⟩
                · exact htr p (hor ▸ hp)
                · rw [hor] at hp
                  rcases List.mem_append.mp hp with hp | hp
                  · exact htr p hp
                  · exact List.mem_singleton.mp hp ▸ hQ.property hprop

/-- The prototype transition at the end of a rebuilt shape keeps the property, if there is one. -/
theorem applyPrototype (hQ : h.EachAttribute Q) (base : SharedShape) (q : Option JsPrototype) :
    (h.applyPrototype base q).2.EachAttribute Q := by
  cases q with
  | none => exact hQ
  | some q => exact hQ.changePrototypeTransition base q

/-- Removing a property replays the transitions behind it, whose attributes are in the heap already.
-/
theorem removePropertyTransition (hQ : h.EachAttribute Q) {key : PropertyKey} {s' : SharedShape}
    {h' : ShapeHeap} (heq : h.removePropertyTransition s key = some (s', h')) :
    h'.EachAttribute Q := by
  rw [ShapeHeap.removePropertyTransition] at heq
  split at heq
  · cases heq
  · next base q transitions hroll =>
      have htr := hQ.rollbackLoop (fun _ hp => absurd hp List.not_mem_nil) hroll
      have hH := congrArg Prod.snd (Option.some.inj heq)
      exact Eq.mp (congrArg _ hH) ((hQ.applyPrototype base q).insertTransitions _ fun p hp =>
        htr p (List.mem_reverse.mp hp))

/-- A new shape with changed attributes keeps the property, if the new attributes have it. -/
theorem newAttributesShape (hQ : h.EachAttribute Q) {key : PropertyKey} (ha : Q a) {slot : Slot}
    {r : (SharedShape × ChangeTransitionAction) × ShapeHeap}
    (heq : h.newAttributesShape s { propertyKey := key, attributes := a } slot = some r) :
    r.2.EachAttribute Q := by
  rw [ShapeHeap.newAttributesShape] at heq
  split at heq
  · split at heq
    · cases heq
    · next table htable =>
        cases heq
        exact hQ.update _ ((hQ _).setAttributesAtIndex ha htable)
  · split at heq
    · cases heq
    · next base q transitions hroll =>
        have htr := hQ.rollbackLoop (fun _ hp => absurd hp List.not_mem_nil) hroll
        cases heq
        exact ((hQ.applyPrototype base q).insertPropertyTransition _ _ ha).insertTransitions _
          fun p hp => htr p (List.mem_reverse.mp hp)

/-- An attribute transition, taken from the cache or made anew, keeps the property in the heap. -/
theorem changeAttributesTransition (hQ : h.EachAttribute Q) {key : PropertyKey} (ha : Q a)
    {r : (SharedShape × ChangeTransitionAction) × ShapeHeap}
    (heq : h.changeAttributesTransition s { propertyKey := key, attributes := a } = some r) :
    r.2.EachAttribute Q := by
  rw [ShapeHeap.changeAttributesTransition] at heq
  split at heq
  · cases heq
  · split at heq
    · split at heq
      · cases heq
        exact hQ
      · exact newAttributesShape (h := h.prunePropertyTransitions s.addr) hQ ha heq
    · exact hQ.newAttributesShape ha heq

end EachAttribute

end ShapeHeap

namespace Shapes

/-- Every attribute of every shape satisfies `Q`. -/
structure EachAttribute (Q : SlotAttributes → Prop) (H : Shapes) : Prop where
  shared : H.shared.EachAttribute Q
  unique : ∀ inner ∈ H.uniques, inner.propertyTable.EachAttribute Q

namespace EachAttribute

variable {H H' : Shapes} {shape shape' : Shape} {a : SlotAttributes} {key : PropertyKey}

/-- The table of each unique shape has the property that holds in the whole heap. -/
theorem getUnique (hQ : H.EachAttribute Q) (addr : ℕ) :
    (H.unique addr).propertyTable.EachAttribute Q := by
  rw [Shapes.unique, List.getD_eq_getElem?_getD]
  cases hu : H.uniques[addr]? with
  | none => exact .empty
  | some inner => exact hQ.unique inner (List.mem_of_getElem? hu)

/-- A slot that is found has the property. -/
theorem of_lookup (hQ : H.EachAttribute Q) (wf : H.WF) {slot : Slot}
    (heq : H.lookup shape key = some slot) : Q slot.attributes := by
  have hmem : (key, slot) ∈ H.slots shape := by
    rw [Shapes.lookup_eq wf] at heq
    rw [slots_eq wf]
    exact (Assoc.lookup_eq_some_iff_mem (by simpa using wf.nodup shape)).mp heq
  cases shape with
  | shared s => exact hQ.shared _ _ (List.mem_of_mem_take hmem)
  | unique addr => exact hQ.getUnique addr _ hmem

/-- A new unique shape keeps the property, if its table has it. -/
theorem newUnique (hQ : H.EachAttribute Q) (q : JsPrototype) {t : PropertyTableInner}
    (ht : t.EachAttribute Q) : (H.newUnique q t).2.EachAttribute Q := by
  refine ⟨hQ.shared, fun inner hinner => ?_⟩
  rcases List.mem_append.mp hinner with hinner | hinner
  · exact hQ.unique inner hinner
  · exact List.mem_singleton.mp hinner ▸ ht

/-- Overwriting a unique shape keeps the property, if the new table has it. -/
theorem writeUnique (hQ : H.EachAttribute Q) (addr : ℕ) {inner : UniqueShapeInner}
    (hinner : inner.propertyTable.EachAttribute Q) : (H.writeUnique addr inner).EachAttribute Q := by
  refine ⟨hQ.shared, fun inner' hinner' => ?_⟩
  rcases List.mem_or_eq_of_mem_set hinner' with hmem | rfl
  · exact hQ.unique inner' hmem
  · exact hinner

/-- Moving the table of a unique shape to another one keeps the property in the heap. -/
theorem moveUnique (hQ : H.EachAttribute Q) (addr : ℕ) {t : PropertyTableInner}
    (ht : t.EachAttribute Q) : (H.moveUnique addr t).2.EachAttribute Q := by
  have hmoved : (H.writeUnique addr
      { propertyTable := .empty, prototype := none }).EachAttribute Q := hQ.writeUnique addr .empty
  exact hmoved.newUnique _ ht

/-- A shape whose table is settled keeps the property in the heap. -/
theorem settle (hQ : H.EachAttribute Q) (s : SharedShape) : (H.settle s).2.EachAttribute Q := by
  rw [Shapes.settle]
  split
  · exact hQ.newUnique _ ((hQ.shared _).cloneCount _)
  · exact hQ

/-- The shared part of a heap can be replaced by one with the property. -/
theorem withShared (hQ : H.EachAttribute Q) {shared : ShapeHeap} (hs : shared.EachAttribute Q) :
    EachAttribute Q { H with shared } := ⟨hs, hQ.unique⟩

/-- An insert transition of any shape, shared or unique, keeps the property in the heap. -/
theorem insertPropertyTransition (hQ : H.EachAttribute Q) (ha : Q a)
    (heq : H.insertPropertyTransition shape { propertyKey := key, attributes := a } =
      (shape', H')) : H'.EachAttribute Q := by
  cases shape with
  | shared s =>
      have hs := hQ.withShared (hQ.shared.insertPropertyTransition s key ha)
      have hH := congrArg Prod.snd heq
      exact Eq.mp (congrArg _ hH) (hs.settle _)
  | unique addr =>
      cases heq
      exact hQ.writeUnique addr ((hQ.getUnique addr).insert key ha)

/-- A prototype transition of any shape, shared or unique, keeps the property in the heap. -/
theorem changePrototypeTransition (hQ : H.EachAttribute Q) {q : JsPrototype}
    (heq : H.changePrototypeTransition shape q = (shape', H')) : H'.EachAttribute Q := by
  cases shape with
  | shared s =>
      have hs := hQ.withShared (hQ.shared.changePrototypeTransition s q)
      have hH := congrArg Prod.snd heq
      exact Eq.mp (congrArg _ hH) (hs.settle _)
  | unique addr =>
      cases heq
      exact (hQ.writeUnique addr .empty).newUnique _ (hQ.getUnique addr)

/-- Removing a property from any shape, shared or unique, keeps the property of the attributes. -/
theorem removePropertyTransition (hQ : H.EachAttribute Q) (wf : H.WF)
    (heq : H.removePropertyTransition shape key = some (shape', H')) : H'.EachAttribute Q := by
  cases shape with
  | shared s =>
      obtain ⟨⟨s', shared⟩, hremove, hsettle⟩ := Option.map_eq_some_iff.mp heq
      have hH := congrArg Prod.snd hsettle
      exact Eq.mp (congrArg _ hH)
        ((hQ.withShared (hQ.shared.removePropertyTransition hremove)).settle s')
  | unique addr =>
      obtain ⟨r, hremove, hmove⟩ := Option.map_eq_some_iff.mp heq
      cases r with
      | none =>
          cases hmove
          exact hQ
      | some t =>
          cases hmove
          refine hQ.moveUnique addr ?_
          have hrep := wf.represents addr
          by_cases hkey : key ∈ Assoc.keys
              (PropertyTableInner.attributesOf (H.unique addr).propertyTable.keys)
          · obtain ⟨t', ht', hrep'⟩ := hrep.removeProperty hkey
            rw [ht'] at hremove
            cases hremove
            rw [PropertyTableInner.EachAttribute.iff_of_represents hrep']
            intro p hp
            exact (PropertyTableInner.EachAttribute.iff_of_represents hrep).mp
              (hQ.getUnique addr) p (List.mem_of_mem_filter hp)
          · rw [PropertyTableInner.removeProperty, hrep.map_eq_none_iff.mpr hkey] at hremove
            cases hremove

/-- An attribute transition of any shape, shared or unique, keeps the property in the heap. -/
theorem changeAttributesTransition (hQ : H.EachAttribute Q) (wf : H.WF) (ha : Q a)
    {action : ChangeTransitionAction}
    (heq : H.changeAttributesTransition shape { propertyKey := key, attributes := a } =
      some ((shape', action), H')) : H'.EachAttribute Q := by
  cases shape with
  | shared s =>
      obtain ⟨⟨⟨s', action'⟩, shared⟩, hchange, hsettle⟩ := Option.map_eq_some_iff.mp heq
      have hH := congrArg Prod.snd hsettle
      exact Eq.mp (congrArg _ hH)
        ((hQ.withShared (hQ.shared.changeAttributesTransition ha hchange)).settle s')
  | unique addr =>
      obtain ⟨⟨t, action'⟩, hchange, hmove⟩ := Option.map_eq_some_iff.mp heq
      cases hmove
      refine hQ.moveUnique addr ?_
      have hrep := wf.represents addr
      by_cases hkey : key ∈ Assoc.keys
          (PropertyTableInner.attributesOf (H.unique addr).propertyTable.keys)
      · obtain ⟨b, hb⟩ := Assoc.exists_lookup_of_mem hkey
        obtain ⟨t', ht', hrep'⟩ := hrep.changeAttributes hb (a := a)
        rw [ht'] at hchange
        cases hchange
        rw [PropertyTableInner.EachAttribute.iff_of_represents hrep']
        intro p hp
        rcases Assoc.mem_assign hp with rfl | hp
        · exact ha
        · exact (PropertyTableInner.EachAttribute.iff_of_represents hrep).mp
            (hQ.getUnique addr) p hp
      · rw [PropertyTableInner.changeAttributes, hrep.map_eq_none_iff.mpr hkey] at hchange
        cases hchange

end EachAttribute

end Shapes

end BoaLigero
