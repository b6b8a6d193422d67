import BoaLigero.Object.ShapeHeap

/-!
# Rolling Back a Transition Chain

Removing a property of a shared shape, or turning it from a data property into an accessor
or back, walks the transition chain back to the shape from before the property was
inserted, and inserts the later properties again (`rollback_before`,
`remove_property_transition`, `change_attributes_transition`). The walk records, for every
shape it passes, the *newest* property of that shape. For a shape made by inserting a
property this is the inserted one; for a shape made by changing the attributes of a
property it need not be the changed one.

`recordedAttributes` states, for any property, which attributes the walk ends up with: the
ones it had when it was last the newest property, or, for a property older than the one
that is rolled back, the ones it had when that one was inserted. `Kept` says that these are
the attributes it has now.

## Main results

* `rollbackBefore_spec` — the walk succeeds and finds exactly the recorded attributes, in
  order.
* `removePropertyTransition_spec`, `changeAttributesTransition_spec` — the two transitions
  never fail on a present property; they keep the order, the presence and the width of
  every other property and the prototype, and they give the others their recorded
  attributes.
* `removed_eq_iff`, `converted_eq_iff` — so they leave the other properties as they were
  exactly when `Kept` holds.
-/

namespace BoaLigero

/-- Action to be performed on the storage after a property attribute change
(`ChangeTransitionAction`). -/
inductive ChangeTransitionAction where
  | nothing
  | remove
  | insert
  deriving DecidableEq, Repr

namespace ShapeHeap

/-- Record a property unless a later shape recorded it already (`entry` and `or_insert`). -/
def orInsert (transitions : PropertyList) (key : PropertyKey) (attributes : SlotAttributes) :
    PropertyList :=
  if key ∈ Assoc.keys transitions then transitions else transitions ++ [(key, attributes)]

/-- The loop of `rollback_before`: the current shape, then the prototype and the properties
collected so far, latest first. `none` where the source is unreachable. -/
def rollbackLoop (h : ShapeHeap) (key : PropertyKey) : SharedShape → Option JsPrototype →
    PropertyList → Option (SharedShape × Option JsPrototype × PropertyList)
  | .root inner, prototype, transitions =>
      if inner.flags = .prototype then none
      else
        match h.property (.root inner) with
        | none => none
        | some (currentPropertyKey, _) =>
            if inner.flags = .insertProperty ∧ currentPropertyKey = key then
              some (.root inner, prototype, transitions)
            else none
  | .next inner previous, prototype, transitions =>
      -- Only the latest prototype change is taken.
      if inner.flags = .prototype then
        rollbackLoop h key previous (prototype.or (some inner.prototype)) transitions
      else
        match h.property (.next inner previous) with
        | none => none
        | some (currentPropertyKey, slot) =>
            if inner.flags = .insertProperty ∧ currentPropertyKey = key then
              some (previous, prototype, transitions)
            else if currentPropertyKey = key then
              rollbackLoop h key previous prototype transitions
            else
              rollbackLoop h key previous prototype
                (orInsert transitions currentPropertyKey slot.attributes)

/-- Rollback to the shape before the insertion of a property (`rollback_before`). -/
def rollbackBefore (h : ShapeHeap) (s : SharedShape) (key : PropertyKey) :
    Option (SharedShape × Option JsPrototype × PropertyList) :=
  h.rollbackLoop key s none []

/-- Apply the prototype transition, if one was found. -/
def applyPrototype (h : ShapeHeap) (base : SharedShape) :
    Option JsPrototype → SharedShape × ShapeHeap
  | some prototype => h.changePrototypeTransition base prototype
  | none => (base, h)

/-- Apply the previous properties, in order. -/
def insertTransitions (h : ShapeHeap) (base : SharedShape) :
    PropertyList → SharedShape × ShapeHeap
  | [] => (base, h)
  | (propertyKey, attributes) :: rest =>
      let (base, h) := h.insertPropertyTransition base { propertyKey, attributes }
      h.insertTransitions base rest

/-- Remove a property (`remove_property_transition`). -/
def removePropertyTransition (h : ShapeHeap) (s : SharedShape) (key : PropertyKey) :
    Option (SharedShape × ShapeHeap) :=
  match h.rollbackBefore s key with
  | none => none
  | some (base, prototype, transitions) =>
      let (base, h) := h.applyPrototype base prototype
      some (h.insertTransitions base transitions.reverse)

/-- The storage action of a change from the attributes of `slot`. -/
def changeAction (slot : Slot) : ChangeTransitionAction :=
  if slot.attributes.isAccessorDescriptor then .remove else .insert

/-- The part of `change_attributes_transition` that makes new shapes. -/
def newAttributesShape (h : ShapeHeap) (s : SharedShape) (key : TransitionKey) (slot : Slot) :
    Option ((SharedShape × ChangeTransitionAction) × ShapeHeap) :=
  if slot.attributes.widthMatch key.attributes then
    match (h.propertyTable s).setAttributesAtIndex key.propertyKey key.attributes with
    | none => none
    | some table =>
        let (propertyTable, h) := h.newTable table
        let (shape, h) := h.alloc s s.propertyCount s.prototype propertyTable .configureProperty
        some ((shape, .nothing), h.insertProperty s.addr key shape)
  else
    match h.rollbackBefore s key.propertyKey with
    | none => none
    | some (base, prototype, transitions) =>
        let (base, h) := h.applyPrototype base prototype
        let (base, h) := h.insertPropertyTransition base key
        let (base, h) := h.insertTransitions base transitions.reverse
        some ((base, changeAction slot), h)

/-- Change the attributes of a property (`change_attributes_transition`). -/
def changeAttributesTransition (h : ShapeHeap) (s : SharedShape) (key : TransitionKey) :
    Option ((SharedShape × ChangeTransitionAction) × ShapeHeap) :=
  match (h.propertyTable s).getExpect key.propertyKey with
  | none => none
  | some slot =>
      match h.getProperty s key with
      | some shape =>
          match h.upgrade shape with
          | some inner =>
              let action :=
                if slot.attributes.widthMatch key.attributes then .nothing else changeAction slot
              some ((inner, action), h)
          | none => (h.prunePropertyTransitions s.addr).newAttributesShape s key slot
      | none => h.newAttributesShape s key slot

/-! ### What the walk records -/

/-- The attributes that property `p` had the last time it was the newest property of a
shape of the chain, walking back from the given shape; for a property older than `key`,
the attributes it had when `key` was inserted. -/
def recordedAttributes (h : ShapeHeap) (key p : PropertyKey) :
    SharedShape → Option SlotAttributes
  | .root _ => none
  | .next inner previous =>
      if inner.flags = .prototype then recordedAttributes h key p previous
      else
        match h.property (.next inner previous) with
        | none => none
        | some (newest, slot) =>
            if inner.flags = .insertProperty ∧ newest = key then
              (h.propertyList previous).lookup p
            else if newest = p then some slot.attributes
            else recordedAttributes h key p previous

/-- Every property other than `key` still has the attributes that rolling back `key` will
find for it. -/
def Kept (h : ShapeHeap) (s : SharedShape) (key : PropertyKey) : Prop :=
  ∀ p ∈ Assoc.keys (h.propertyList s), p ≠ key →
    (h.propertyList s).lookup p = h.recordedAttributes key p s

instance (h : ShapeHeap) (s : SharedShape) (key : PropertyKey) : Decidable (h.Kept s key) :=
  inferInstanceAs (Decidable (∀ p ∈ _, p ≠ key → _ = _))

variable {h h' : ShapeHeap} {s s' : SharedShape} {key : PropertyKey}

/-- The newest property of a shape that has properties. -/
theorem property_eq (wf : h.WF) (hs : h.Valid s) {ps : PropertyList} {k : PropertyKey}
    {a : SlotAttributes} (hlist : h.propertyList s = ps ++ [(k, a)]) :
    h.property s = some (k, { index := totalWidth ps, attributes := a }) := by
  have hlen := wf.length_propertyList hs
  rw [hlist, List.length_append, List.length_singleton] at hlen
  have hkeys : (layout (h.propertyList s))[ps.length]? =
      some (k, { index := totalWidth ps, attributes := a }) := by
    rw [hlist, layout_append, List.getElem?_append_right (by simp)]
    simp [layoutFrom]
  rw [propertyList, layout_take, List.getElem?_take_of_lt (by omega)] at hkeys
  rw [property, propertyTable, (wf.represents _).keys_eq, ← hkeys]
  congr 1
  omega

/-- What a link to the previous shape says when the shape was not made by a prototype
change: either its newest property was inserted, or the keys are the same. -/
theorem Linked.cases {inner : SharedShapeInner} {previous : SharedShape}
    (hl : h.Linked previous (.next inner previous)) (hflags : inner.flags ≠ .prototype) :
    inner.prototype = previous.prototype ∧
      ((inner.flags = .insertProperty ∧ ∃ k a, k ∉ Assoc.keys (h.propertyList previous) ∧
          h.propertyList (.next inner previous) = h.propertyList previous ++ [(k, a)]) ∨
        (inner.flags = .configureProperty ∧ Assoc.keys (h.propertyList (.next inner previous)) =
          Assoc.keys (h.propertyList previous))) := by
  rw [Linked] at hl
  cases hf : inner.flags with
  | insertProperty =>
      simp only [SharedShape.inner, hf] at hl
      exact ⟨hl.1, .inl ⟨rfl, hl.2.2⟩⟩
  | configureProperty =>
      simp only [SharedShape.inner, hf] at hl
      obtain ⟨hq, -, k, a, b, hk, -, hlist⟩ := hl
      exact ⟨hq, .inr ⟨rfl, by rw [hlist, Assoc.keys_assign_of_mem (Assoc.mem_keys_of_lookup hk)]⟩⟩
  | prototype => exact absurd hf hflags

/-- Recording a property in a list of keys. -/
theorem exists_orInsert (transitions : PropertyList) (k : PropertyKey) (a : SlotAttributes) :
    (k ∈ Assoc.keys transitions ∧ orInsert transitions k a = transitions) ∨
      (k ∉ Assoc.keys transitions ∧ orInsert transitions k a = transitions ++ [(k, a)]) := by
  by_cases hk : k ∈ Assoc.keys transitions
  · exact .inl ⟨hk, by simp [orInsert, hk]⟩
  · exact .inr ⟨hk, by simp [orInsert, hk]⟩

/-- What the loop of `rollback_before` returns from a shape with keys `pre ++ key :: post`:
the shape from before `key` was inserted, and, appended to the properties collected
before, those of `post` that were not among them, latest first. -/
structure RolledBack (h : ShapeHeap) (key : PropertyKey) (s : SharedShape)
    (pre post : List PropertyKey) (prototype : Option JsPrototype) (transitions : PropertyList)
    (base : SharedShape) (prototype' : Option JsPrototype) (found : PropertyList) : Prop where
  loop_eq : h.rollbackLoop key s prototype transitions =
    some (base, prototype', transitions ++ found)
  valid : h.Valid base
  prototype_eq : prototype'.getD base.prototype = prototype.getD s.prototype
  base_keys : Assoc.keys (h.propertyList base) = pre
  base_lookup : ∀ p ∈ pre, (h.propertyList base).lookup p = h.recordedAttributes key p s
  found_keys : (Assoc.keys found).reverse = post.filter fun p => p ∉ Assoc.keys transitions
  found_eq : ∀ p a, (p, a) ∈ found → h.recordedAttributes key p s = some a

/-- Splitting a list of keys at `key` when its last element is known. -/
theorem append_cons_eq_concat {pre post front : List PropertyKey} {newest : PropertyKey}
    (h : front ++ [newest] = pre ++ key :: post) :
    (newest = key ∧ front = pre ∧ post = []) ∨
      ∃ rest, post = rest ++ [newest] ∧ front = pre ++ key :: rest := by
  rcases List.eq_nil_or_concat' post with rfl | ⟨rest, last, rfl⟩
  · obtain ⟨rfl, heq⟩ := List.append_inj' h rfl
    exact .inl ⟨by simpa using heq, rfl, rfl⟩
  · have h' : front ++ [newest] = (pre ++ key :: rest) ++ [last] := by simpa using h
    obtain ⟨rfl, heq⟩ := List.append_inj' h' rfl
    obtain rfl : newest = last := by simpa using heq
    exact .inr ⟨rest, rfl, rfl⟩

/-- One step of the walk over a shape that records nothing. -/
theorem RolledBack.skip {inner : SharedShapeInner} {previous base : SharedShape}
    {pre post : List PropertyKey} {prototype prototype' q : Option JsPrototype}
    {transitions found : PropertyList}
    (hrb : h.RolledBack key previous pre post q transitions base prototype' found)
    (hloop : h.rollbackLoop key (.next inner previous) prototype transitions =
      h.rollbackLoop key previous q transitions)
    (hq : q.getD previous.prototype = prototype.getD inner.prototype)
    (hrec : ∀ p ∈ pre ++ post, h.recordedAttributes key p (.next inner previous) =
      h.recordedAttributes key p previous) :
    h.RolledBack key (.next inner previous) pre post prototype transitions base prototype'
      found where
  loop_eq := hloop.trans hrb.loop_eq
  valid := hrb.valid
  prototype_eq := hrb.prototype_eq.trans hq
  base_keys := hrb.base_keys
  base_lookup := fun p hp =>
    (hrb.base_lookup p hp).trans (hrec p (List.mem_append_left _ hp)).symm
  found_keys := hrb.found_keys
  found_eq := by
    intro p a hpa
    have hmem : p ∈ (Assoc.keys found).reverse :=
      List.mem_reverse.mpr (Assoc.mem_keys_of_mem hpa)
    rw [hrb.found_keys] at hmem
    have hpost := (List.mem_filter.mp hmem).1
    exact (hrec p (List.mem_append_right _ hpost)).trans (hrb.found_eq p a hpa)

/-- One step of the walk over a shape whose newest property is recorded: `rest` are the
keys between `key` and that property. -/
theorem RolledBack.record {inner : SharedShapeInner} {previous base : SharedShape}
    {pre rest post : List PropertyKey} {prototype prototype' : Option JsPrototype}
    {transitions found : PropertyList} {newest : PropertyKey} {a : SlotAttributes}
    (hrb : h.RolledBack key previous pre post prototype (orInsert transitions newest a) base
      prototype' found)
    (hloop : h.rollbackLoop key (.next inner previous) prototype transitions =
      h.rollbackLoop key previous prototype (orInsert transitions newest a))
    (hq : inner.prototype = previous.prototype)
    (hpost : post = rest ∨ post = rest ++ [newest])
    (hpre : newest ∉ pre) (hrest : newest ∉ rest)
    (hnewest : h.recordedAttributes key newest (.next inner previous) = some a)
    (hrec : ∀ p, p ≠ newest → h.recordedAttributes key p (.next inner previous) =
      h.recordedAttributes key p previous) :
    ∃ found', h.RolledBack key (.next inner previous) pre (rest ++ [newest]) prototype
      transitions base prototype' found' := by
  -- Later on, `newest` counts as recorded.
  have hmem : newest ∈ Assoc.keys (orInsert transitions newest a) := by
    rcases exists_orInsert transitions newest a with ⟨hin, heq⟩ | ⟨-, heq⟩ <;> simp [heq]
    exact hin
  have hfilter : (Assoc.keys found).reverse =
      rest.filter fun p => p ∉ Assoc.keys (orInsert transitions newest a) := by
    rw [hrb.found_keys]
    rcases hpost with rfl | rfl <;> simp [hmem]
  have hfound : ∀ p b, (p, b) ∈ found →
      h.recordedAttributes key p (.next inner previous) = some b := by
    intro p b hpb
    have hp : p ∈ (Assoc.keys found).reverse :=
      List.mem_reverse.mpr (Assoc.mem_keys_of_mem hpb)
    rw [hrb.found_keys] at hp
    have hne : p ≠ newest := by
      rintro rfl
      simp [hmem] at hp
    exact (hrec p hne).trans (hrb.found_eq p b hpb)
  have hbase : ∀ p ∈ pre, (h.propertyList base).lookup p =
      h.recordedAttributes key p (.next inner previous) := fun p hp =>
    (hrb.base_lookup p hp).trans (hrec p fun heq => hpre (heq ▸ hp)).symm
  have hproto : prototype'.getD base.prototype = prototype.getD inner.prototype := by
    rw [hrb.prototype_eq, hq]
  rcases exists_orInsert transitions newest a with ⟨hin, heq⟩ | ⟨hout, heq⟩
  · refine ⟨found, ?_, hrb.valid, hproto, hrb.base_keys, hbase, ?_, hfound⟩
    · rw [hloop, hrb.loop_eq, heq]
    · rw [hfilter, heq]
      simp [hin]
  · refine ⟨(newest, a) :: found, ?_, hrb.valid, hproto, hrb.base_keys, hbase, ?_, ?_⟩
    · rw [hloop, hrb.loop_eq, heq, List.append_assoc, List.singleton_append]
    · rw [Assoc.keys_cons, List.reverse_cons, hfilter, heq, List.filter_append]
      congr 1
      · refine List.filter_congr fun p hp => ?_
        have hne : p ≠ newest := fun h => hrest (h ▸ hp)
        simp [hne]
      · simp [hout]
    · intro p b hpb
      rcases List.mem_cons.mp hpb with heq | hpb
      · obtain ⟨rfl, rfl⟩ := Prod.mk.inj heq
        exact hnewest
      · exact hfound p b hpb

/-- **The walk.** Induction on the transition chain; the case of a shape that is not a
prototype change records its newest property, which is `key` itself exactly at the end. -/
theorem exists_rolledBack (wf : h.WF) (hs : h.Valid s) {pre post : List PropertyKey}
    (hkeys : Assoc.keys (h.propertyList s) = pre ++ key :: post)
    (prototype : Option JsPrototype) (transitions : PropertyList) :
    ∃ base prototype' found,
      h.RolledBack key s pre post prototype transitions base prototype' found := by
  induction s generalizing post prototype transitions with
  | root inner =>
      have hlen := wf.length_propertyList hs
      rw [wf.root _ hs rfl, ← Assoc.length_keys, hkeys] at hlen
      simp at hlen
  | next inner previous ih =>
      obtain ⟨hprev, hl⟩ := wf.linked _ previous hs rfl
      by_cases hflags : inner.flags = .prototype
      · have hlist : h.propertyList (.next inner previous) = h.propertyList previous := by
          simp only [Linked, SharedShape.inner, hflags] at hl
          exact hl.2
        obtain ⟨base, prototype', found, hrb⟩ := ih hprev (hlist ▸ hkeys)
          (prototype.or (some inner.prototype)) transitions
        refine ⟨base, prototype', found, hrb.skip ?_ ?_ fun p _ => ?_⟩
        · rw [rollbackLoop, if_pos hflags]
        · cases prototype <;> rfl
        · rw [recordedAttributes, if_pos hflags]
      obtain ⟨hq, hcases⟩ := Linked.cases hl hflags
      have hnd := wf.nodup (.next inner previous)
      -- The newest property of this shape.
      have hne : h.propertyList (.next inner previous) ≠ [] := by
        intro hnil
        simp [hnil] at hkeys
      obtain ⟨front, ⟨newest, a⟩, hlast⟩ := List.eq_nil_or_concat' _ |>.resolve_left hne
      have hprop := property_eq wf hs hlast
      have hsplit := hkeys
      rw [hlast, Assoc.keys_append] at hsplit
      have hsplit := append_cons_eq_concat hsplit
      rw [hkeys] at hnd
      obtain ⟨hins, k, b, hk, hlist⟩ | ⟨hconf, hsame⟩ := hcases
      · -- The newest property was inserted here.
        obtain ⟨rfl, heq⟩ := List.append_inj' (hlast.symm.trans hlist) rfl
        obtain ⟨rfl, rfl⟩ : newest = k ∧ a = b := by simpa using heq
        obtain ⟨rfl, hfront, rfl⟩ | ⟨rest, rfl, hfront⟩ := hsplit
        · subst hfront
          refine ⟨previous, prototype, [], ⟨?_, hprev, ?_, rfl, ?_, by simp, by simp⟩⟩
          · rw [rollbackLoop, if_neg hflags, hprop]
            simp [hins]
          · cases prototype with
            | none => exact hq.symm
            | some q => rfl
          · intro p hp
            rw [recordedAttributes, if_neg hflags, hprop]
            simp [hins]
        · have hnk : newest ≠ key := by
            rintro rfl
            exact hk (by simp [hfront])
          obtain ⟨base, prototype', found, hrb⟩ := ih hprev hfront prototype
            (orInsert transitions newest a)
          refine ⟨base, prototype', hrb.record ?_ hq (.inl rfl) ?_ ?_ ?_ fun p hp => ?_⟩
          · rw [rollbackLoop, if_neg hflags, hprop]
            simp [hnk]
          · exact fun hpre => hk (by simp [hfront, hpre])
          · exact fun hrest => hk (by simp [hfront, hrest])
          · rw [recordedAttributes, if_neg hflags, hprop]
            simp [hnk]
          · rw [recordedAttributes, if_neg hflags, hprop]
            simp [hnk, Ne.symm hp]
      · -- Some property was configured; the newest one need not be it.
        have hni : ¬ inner.flags = .insertProperty := by rw [hconf]; decide
        obtain ⟨rfl, hfront, rfl⟩ | ⟨rest, rfl, hfront⟩ := hsplit
        · obtain ⟨base, prototype', found, hrb⟩ := ih hprev (hsame ▸ hkeys) prototype transitions
          refine ⟨base, prototype', found, hrb.skip ?_ (by rw [hq]) fun p hp => ?_⟩
          · rw [rollbackLoop, if_neg hflags, hprop]
            simp [hni]
          · have hne : newest ≠ p := by
              rintro rfl
              exact (List.nodup_append.mp hnd).2.2 newest (by simpa using hp) newest (by simp) rfl
            rw [recordedAttributes, if_neg hflags, hprop]
            simp [hni, hne]
        · have hnd' : (pre ++ key :: rest ++ [newest]).Nodup := by simpa using hnd
          have hnot := fun hm => (List.nodup_append.mp hnd').2.2 newest hm newest (by simp) rfl
          have hnk : newest ≠ key := by
            rintro rfl
            exact hnot (by simp)
          obtain ⟨base, prototype', found, hrb⟩ := ih hprev (hsame ▸ hkeys) prototype
            (orInsert transitions newest a)
          refine ⟨base, prototype', hrb.record ?_ hq (.inr rfl) ?_ ?_ ?_ fun p hp => ?_⟩
          · rw [rollbackLoop, if_neg hflags, hprop]
            simp [hnk]
          · exact fun hpre => hnot (by simp [hpre])
          · exact fun hrest => hnot (by simp [hrest])
          · rw [recordedAttributes, if_neg hflags, hprop]
            simp [hnk]
          · rw [recordedAttributes, if_neg hflags, hprop]
            simp [hnk, Ne.symm hp]

/-! ### What the replay builds -/

/-- The properties before and after `key` that rolling back `key` finds: the same keys in
the same order, with the recorded attributes. -/
structure Rebuilds (h : ShapeHeap) (s : SharedShape) (key : PropertyKey)
    (pre post : PropertyList) : Prop where
  keys_eq : Assoc.keys (h.propertyList s) = Assoc.keys pre ++ key :: Assoc.keys post
  lookup_eq : ∀ p, p ∈ Assoc.keys (pre ++ post) →
    (pre ++ post).lookup p = h.recordedAttributes key p s

/-- **`rollback_before` succeeds on a present property**, and finds a shape and properties
that rebuild the shape without it. -/
theorem rollbackBefore_spec (wf : h.WF) (hs : h.Valid s)
    (hkey : key ∈ Assoc.keys (h.propertyList s)) :
    ∃ base prototype transitions, h.rollbackBefore s key = some (base, prototype, transitions) ∧
      h.Valid base ∧ prototype.getD base.prototype = s.prototype ∧
      h.Rebuilds s key (h.propertyList base) transitions.reverse := by
  obtain ⟨pre, post, hkeys⟩ := List.append_of_mem hkey
  obtain ⟨base, prototype, found, hrb⟩ := exists_rolledBack wf hs hkeys none []
  have hfound : Assoc.keys found.reverse = post := by
    have hrev := hrb.found_keys
    rw [Assoc.keys, ← List.map_reverse] at hrev
    simpa [Assoc.keys] using hrev
  refine ⟨base, prototype, found, hrb.loop_eq, hrb.valid, hrb.prototype_eq, ?_, ?_⟩
  · rw [hkeys, hrb.base_keys, hfound]
  · intro p hp
    by_cases hpre : p ∈ pre
    · rw [Assoc.lookup_append_of_mem (hrb.base_keys ▸ hpre)]
      exact hrb.base_lookup p hpre
    · rw [Assoc.lookup_append_of_notMem (hrb.base_keys ▸ hpre)]
      have hnd := wf.nodup s
      rw [hkeys] at hnd
      have hnd' : (Assoc.keys found.reverse).Nodup := by
        rw [hfound]
        exact (List.nodup_cons.mp (List.nodup_append.mp hnd).2.1).2
      have hp' : p ∈ Assoc.keys found.reverse := by
        rw [Assoc.keys_append, hrb.base_keys] at hp
        exact (List.mem_append.mp hp).resolve_left hpre
      obtain ⟨a, ha⟩ := Assoc.exists_lookup_of_mem hp'
      rw [ha, hrb.found_eq p a]
      exact List.mem_reverse.mp ((Assoc.lookup_eq_some_iff_mem hnd').mp ha)

/-- Applying a prototype, if there is one. -/
theorem applyPrototype_spec (wf : h.WF) (hs : h.Valid s) {q : Option JsPrototype}
    (heq : h.applyPrototype s q = (s', h')) :
    h.Produces h' s' (h.propertyList s) (q.getD s.prototype) := by
  cases q with
  | none =>
      obtain ⟨rfl, rfl⟩ := Prod.mk.inj heq
      exact ⟨wf, .refl _, hs, rfl, rfl⟩
  | some q => exact changePrototypeTransition_spec wf hs heq

/-- Inserting properties one after the other. -/
theorem insertTransitions_spec (wf : h.WF) (hs : h.Valid s) {ps : PropertyList}
    (hnd : (Assoc.keys (h.propertyList s ++ ps)).Nodup)
    (heq : h.insertTransitions s ps = (s', h')) :
    h.Produces h' s' (h.propertyList s ++ ps) s.prototype := by
  induction ps generalizing h s with
  | nil =>
      obtain ⟨rfl, rfl⟩ := Prod.mk.inj heq
      exact ⟨wf, .refl _, hs, by simp, rfl⟩
  | cons p ps ih =>
      obtain ⟨k, a⟩ := p
      obtain ⟨s₁, h₁, hins⟩ : ∃ s₁ h₁, h.insertPropertyTransition s
          { propertyKey := k, attributes := a } = (s₁, h₁) := ⟨_, _, rfl⟩
      have hk : k ∉ Assoc.keys (h.propertyList s) := by
        rw [Assoc.keys_append, List.nodup_append] at hnd
        exact fun hmem => hnd.2.2 k hmem k (by simp) rfl
      have hspec := insertPropertyTransition_spec wf hs hk hins
      rw [insertTransitions, hins] at heq
      have hrest := ih hspec.wf hspec.valid (by rw [hspec.list_eq]; simpa using hnd) heq
      refine ⟨hrest.wf, hspec.extends_heap.trans hrest.extends_heap, hrest.valid, ?_, ?_⟩
      · rw [hrest.list_eq, hspec.list_eq, List.append_assoc, List.singleton_append]
      · rw [hrest.prototype_eq, hspec.prototype_eq]

/-- The rebuilt keys are those of the shape, without repetition. -/
theorem Rebuilds.nodup (wf : h.WF) {pre post : PropertyList} (hreb : h.Rebuilds s key pre post) :
    (Assoc.keys pre ++ key :: Assoc.keys post).Nodup := hreb.keys_eq ▸ wf.nodup s

/-- **Removing a present property** never fails; it keeps the prototype and rebuilds the
other properties with their recorded attributes. -/
theorem removePropertyTransition_spec (wf : h.WF) (hs : h.Valid s)
    (hkey : key ∈ Assoc.keys (h.propertyList s)) :
    ∃ s' h' pre post, h.removePropertyTransition s key = some (s', h') ∧
      h.Produces h' s' (pre ++ post) s.prototype ∧ h.Rebuilds s key pre post := by
  obtain ⟨base, prototype, transitions, hroll, hbase, hq, hreb⟩ := rollbackBefore_spec wf hs hkey
  obtain ⟨s₁, h₁, happly⟩ : ∃ s₁ h₁, h.applyPrototype base prototype = (s₁, h₁) := ⟨_, _, rfl⟩
  have hspec₁ := applyPrototype_spec wf hbase happly
  obtain ⟨s₂, h₂, hins⟩ : ∃ s₂ h₂, h₁.insertTransitions s₁ transitions.reverse = (s₂, h₂) :=
    ⟨_, _, rfl⟩
  have hnd := hreb.nodup wf
  have hspec₂ := insertTransitions_spec hspec₁.wf hspec₁.valid
    (by rw [hspec₁.list_eq, Assoc.keys_append]
        exact hnd.sublist (List.sublist_cons_self _ _ |>.append_left _)) hins
  refine ⟨s₂, h₂, _, _, ?_, ?_, hreb⟩
  · simp only [removePropertyTransition, hroll, happly, hins]
  · exact ⟨hspec₂.wf, hspec₁.extends_heap.trans hspec₂.extends_heap, hspec₂.valid,
      by rw [hspec₂.list_eq, hspec₁.list_eq], by rw [hspec₂.prototype_eq, hspec₁.prototype_eq, hq]⟩

/-- The slot that `change_attributes_transition` starts from. -/
theorem getExpect_eq (wf : h.WF) {b : SlotAttributes}
    (hkey : (h.propertyList s).lookup key = some b) :
    ∃ slot, (h.propertyTable s).getExpect key = some slot ∧ slot.attributes = b := by
  have hrep := wf.represents s.inner.propertyTable
  have hent : (h.entries s.inner.propertyTable).lookup key = some b :=
    (List.take_prefix _ _).lookup_eq_some hkey
  have hmap := lookup_layout_map (h.entries s.inner.propertyTable) key
  rw [hent, Option.map_eq_some_iff] at hmap
  obtain ⟨slot, hslot, rfl⟩ := hmap
  exact ⟨slot, by rw [propertyTable, hrep.getExpect_eq, hslot], rfl⟩

/-- A new shape for attributes of the same width. -/
theorem newAttributesShape_of_widthMatch (wf : h.WF) (hs : h.Valid s) {a : SlotAttributes}
    {slot : Slot} (hkey : (h.propertyList s).lookup key = some slot.attributes)
    (hw : slot.attributes.widthMatch a) :
    ∃ s' h', h.newAttributesShape s { propertyKey := key, attributes := a } slot =
        some ((s', .nothing), h') ∧
      h.Produces h' s' (Assoc.assign (h.propertyList s) key a) s.prototype := by
  have hrep := wf.represents s.inner.propertyTable
  have hent : (h.entries s.inner.propertyTable).lookup key = some slot.attributes :=
    (List.take_prefix _ _).lookup_eq_some hkey
  obtain ⟨t, hset, ht⟩ := hrep.setAttributesAtIndex hent hw
  obtain ⟨wf₁, hext₁, hents₁⟩ := wf.newTable ht
  obtain ⟨i, h₁, hnew⟩ : ∃ i h₁, h.newTable t = (i, h₁) := ⟨_, _, rfl⟩
  rw [hnew] at wf₁ hext₁ hents₁
  have hi : i < h₁.tableCount := by
    obtain ⟨rfl, rfl⟩ := Prod.mk.inj hnew
    exact Nat.lt_succ_self _
  -- Assigning a key of the owned prefix commutes with taking that prefix.
  have htake : (Assoc.assign (h.entries s.inner.propertyTable) key a).take s.propertyCount =
      Assoc.assign (h.propertyList s) key a := by
    have hmem := Assoc.mem_keys_of_lookup hkey
    rw [Assoc.assign, if_pos (Assoc.mem_keys_of_lookup hent), Assoc.assign, if_pos hmem,
      propertyList, List.map_take]
  have hs₁ := hext₁.valid hs
  have hlist₁ := hext₁.propertyList_eq wf hs
  have hnewlist : ∀ x : SharedShape, x.inner.propertyTable = i →
      x.propertyCount = s.propertyCount →
      h₁.propertyList x = Assoc.assign (h.propertyList s) key a := by
    intro x hxt hxn
    rw [propertyList, hxt, hxn, hents₁, htake]
  have hlinked : h₁.Linked s
      (h₁.alloc s s.propertyCount s.prototype i .configureProperty).1 := by
    refine ⟨rfl, rfl, key, a, slot.attributes, by rw [hlist₁, hkey], hw, ?_⟩
    rw [hlist₁]
    exact hnewlist _ rfl rfl
  have hcount : s.propertyCount ≤ (h₁.entries i).length := by
    have hkeys := Assoc.keys_assign_of_mem (Assoc.mem_keys_of_lookup hent) a
    rw [hents₁, ← Assoc.length_keys, hkeys, Assoc.length_keys]
    exact wf.count s hs
  have wf₂ := wf₁.alloc (q := s.prototype) hs₁ hi hcount hlinked
  have hext₂ := h₁.extends_alloc s s.propertyCount s.prototype i .configureProperty
  have hv₂ := h₁.valid_alloc s s.propertyCount s.prototype i .configureProperty
  obtain ⟨x, h₂, halloc⟩ : ∃ x h₂, h₁.alloc s s.propertyCount s.prototype i .configureProperty =
      (x, h₂) := ⟨_, _, rfl⟩
  have hx : x.inner.propertyTable = i ∧ x.propertyCount = s.propertyCount ∧
      x.prototype = s.prototype := by
    obtain ⟨rfl, -⟩ := Prod.mk.inj halloc
    exact ⟨rfl, rfl, rfl⟩
  have htables : h₂.propertyList x = h₁.propertyList x := by
    obtain ⟨-, rfl⟩ := Prod.mk.inj halloc
    rfl
  rw [halloc] at wf₂ hext₂ hv₂
  have hlist₂ : h₂.propertyList x = Assoc.assign (h.propertyList s) key a :=
    htables.trans (hnewlist x hx.1 hx.2.1)
  have hlist : h₂.propertyList s = h.propertyList s :=
    (hext₂.propertyList_eq wf₁ hs₁).trans hlist₁
  have hsound : h₂.PropertySound s { propertyKey := key, attributes := a } x := by
    refine ⟨hv₂, hx.2.2, by rw [hlist₂, hlist], fun b hb => ?_⟩
    rw [hlist, hkey] at hb
    exact Option.some.inj hb ▸ hw
  refine ⟨x, h₂.insertProperty s.addr { propertyKey := key, attributes := a } x, ?_, ?_⟩
  · simp only [newAttributesShape, hw, if_true, propertyTable, hset, hnew, halloc]
  · exact ⟨wf₂.insertProperty (hext₂.valid hs₁) hsound, (hext₁.trans hext₂).trans
      ⟨List.prefix_refl _, Nat.le_refl _, fun _ _ => List.prefix_refl _⟩, hv₂, hlist₂, hx.2.2⟩

/-- A new shape for attributes of another width. -/
theorem newAttributesShape_of_not_widthMatch (wf : h.WF) (hs : h.Valid s) {a : SlotAttributes}
    {slot : Slot} (hkey : key ∈ Assoc.keys (h.propertyList s))
    (hw : ¬ slot.attributes.widthMatch a) :
    ∃ s' h' pre post, h.newAttributesShape s { propertyKey := key, attributes := a } slot =
        some ((s', changeAction slot), h') ∧
      h.Produces h' s' (pre ++ (key, a) :: post) s.prototype ∧ h.Rebuilds s key pre post := by
  obtain ⟨base, prototype, transitions, hroll, hbase, hq, hreb⟩ := rollbackBefore_spec wf hs hkey
  obtain ⟨s₁, h₁, happly⟩ : ∃ s₁ h₁, h.applyPrototype base prototype = (s₁, h₁) := ⟨_, _, rfl⟩
  have hspec₁ := applyPrototype_spec wf hbase happly
  obtain ⟨s₂, h₂, hins⟩ : ∃ s₂ h₂, h₁.insertPropertyTransition s₁
      { propertyKey := key, attributes := a } = (s₂, h₂) := ⟨_, _, rfl⟩
  have hnd := hreb.nodup wf
  have hk₁ : key ∉ Assoc.keys (h₁.propertyList s₁) := by
    rw [hspec₁.list_eq]
    exact fun hmem => (List.nodup_append.mp hnd).2.2 key hmem key (by simp) rfl
  have hspec₂ := insertPropertyTransition_spec hspec₁.wf hspec₁.valid hk₁ hins
  obtain ⟨s₃, h₃, hrest⟩ : ∃ s₃ h₃, h₂.insertTransitions s₂ transitions.reverse = (s₃, h₃) :=
    ⟨_, _, rfl⟩
  have hspec₃ := insertTransitions_spec hspec₂.wf hspec₂.valid
    (by rw [hspec₂.list_eq, hspec₁.list_eq]; simpa using hnd) hrest
  refine ⟨s₃, h₃, _, _, ?_, ?_, hreb⟩
  · simp only [newAttributesShape, hw, hroll, happly, hins, hrest]
    rfl
  · refine ⟨hspec₃.wf, (hspec₁.extends_heap.trans hspec₂.extends_heap).trans
      hspec₃.extends_heap, hspec₃.valid, ?_, ?_⟩
    · rw [hspec₃.list_eq, hspec₂.list_eq, hspec₁.list_eq, List.append_assoc,
        List.singleton_append]
    · rw [hspec₃.prototype_eq, hspec₂.prototype_eq, hspec₁.prototype_eq, hq]

/-- **Changing attributes within the same width** never fails and assigns the property in
place. -/
theorem changeAttributesTransition_of_widthMatch (wf : h.WF) (hs : h.Valid s)
    {a b : SlotAttributes} (hkey : (h.propertyList s).lookup key = some b)
    (hw : b.widthMatch a) :
    ∃ s' h', h.changeAttributesTransition s { propertyKey := key, attributes := a } =
        some ((s', .nothing), h') ∧
      h.Produces h' s' (Assoc.assign (h.propertyList s) key a) s.prototype := by
  obtain ⟨slot, hslot, rfl⟩ := getExpect_eq wf hkey
  simp only [changeAttributesTransition, hslot]
  cases hget : h.getProperty s { propertyKey := key, attributes := a } with
  | none => exact newAttributesShape_of_widthMatch wf hs hkey hw
  | some shape =>
      cases hup : h.upgrade shape with
      | some inner =>
          obtain rfl : shape = inner := by
            rw [upgrade] at hup
            split at hup
            · exact Option.some.inj hup
            · cases hup
          have hsound := wf.properties s _ _ hs hget
          exact ⟨shape, h, by simp [hup, hw], wf, .refl _, hsound.valid, hsound.list_eq,
            hsound.prototype_eq⟩
      | none =>
          have hext := h.extends_prunePropertyTransitions s.addr
          obtain ⟨s', h', heq, hspec⟩ := newAttributesShape_of_widthMatch
            (wf.prunePropertyTransitions s.addr) (hext.valid hs) (a := a) hkey hw
          exact ⟨s', h', by simp [hup, heq], hspec.wf, hext.trans hspec.extends_heap,
            hspec.valid, hspec.list_eq, hspec.prototype_eq⟩

/-- **Changing between data and accessor** never fails; it keeps the prototype and rebuilds
the other properties with their recorded attributes. -/
theorem changeAttributesTransition_of_not_widthMatch (wf : h.WF) (hs : h.Valid s)
    {a b : SlotAttributes} (hkey : (h.propertyList s).lookup key = some b)
    (hw : ¬ b.widthMatch a) :
    ∃ s' h' pre post, h.changeAttributesTransition s { propertyKey := key, attributes := a } =
        some ((s', if b.isAccessorDescriptor then .remove else .insert), h') ∧
      h.Produces h' s' (pre ++ (key, a) :: post) s.prototype ∧ h.Rebuilds s key pre post := by
  have hmem := Assoc.mem_keys_of_lookup hkey
  obtain ⟨slot, hslot, rfl⟩ := getExpect_eq wf hkey
  simp only [changeAttributesTransition, hslot]
  cases hget : h.getProperty s { propertyKey := key, attributes := a } with
  | none => exact newAttributesShape_of_not_widthMatch wf hs hmem hw
  | some shape =>
      -- No recorded transition changes the width of a property.
      exact absurd ((wf.properties s _ _ hs hget).width _ hkey) hw

/-! ### When the other properties keep their attributes -/

/-- The rebuilt keys are the other keys of the shape, in order. -/
theorem Rebuilds.keys_removed (wf : h.WF) {pre post : PropertyList}
    (hreb : h.Rebuilds s key pre post) :
    Assoc.keys (pre ++ post) = Assoc.keys (Assoc.remove (h.propertyList s) key) := by
  have hnd : (Assoc.keys (pre ++ (key, SlotAttributes.empty) :: post)).Nodup := by
    simpa using hreb.nodup wf
  have hkeys : Assoc.keys (h.propertyList s) =
      Assoc.keys (pre ++ (key, SlotAttributes.empty) :: post) := by
    rw [hreb.keys_eq]
    simp
  rw [Assoc.keys_remove, hkeys, ← Assoc.keys_remove, Assoc.remove_append_cons hnd]

/-- A property between the rebuilt ones does not change what they say. -/
theorem Rebuilds.lookup_converted (wf : h.WF) {pre post : PropertyList}
    (hreb : h.Rebuilds s key pre post) (a : SlotAttributes) (p : PropertyKey) :
    (pre ++ (key, a) :: post).lookup p = if p = key then some a else (pre ++ post).lookup p := by
  have hnd : (Assoc.keys (pre ++ (key, a) :: post)).Nodup := by simpa using hreb.nodup wf
  split
  · next hp =>
      subst hp
      exact (Assoc.lookup_eq_some_iff_mem hnd).mpr (by simp)
  · next hp => rw [← Assoc.remove_append_cons hnd, Assoc.lookup_remove, if_neg hp]

/-- **Removing is exact** when, and only when, the recorded attributes are the present
ones. -/
theorem removed_eq_iff (wf : h.WF) {pre post : PropertyList} (hreb : h.Rebuilds s key pre post) :
    pre ++ post = Assoc.remove (h.propertyList s) key ↔ h.Kept s key := by
  have hkeys := hreb.keys_removed wf
  constructor
  · intro heq p hp hne
    have hmem : p ∈ Assoc.keys (pre ++ post) := hkeys ▸ Assoc.mem_keys_remove.mpr ⟨hp, hne⟩
    rw [← hreb.lookup_eq p hmem, heq, Assoc.lookup_remove, if_neg hne]
  · intro hkept
    refine Assoc.eq_of_keys_of_lookup ?_ hkeys fun p hp => ?_
    · rw [hkeys]
      exact Assoc.nodup_remove (wf.nodup s) key
    · obtain ⟨hin, hne⟩ := Assoc.mem_keys_remove.mp (hkeys ▸ hp)
      rw [hreb.lookup_eq p hp, Assoc.lookup_remove, if_neg hne, hkept p hin hne]

/-- **Converting is exact** when, and only when, the recorded attributes are the present
ones. -/
theorem converted_eq_iff (wf : h.WF) {pre post : PropertyList}
    (hreb : h.Rebuilds s key pre post) (a : SlotAttributes) :
    pre ++ (key, a) :: post = Assoc.assign (h.propertyList s) key a ↔ h.Kept s key := by
  have hkey : key ∈ Assoc.keys (h.propertyList s) := by simp [hreb.keys_eq]
  have hnd : (Assoc.keys (pre ++ (key, a) :: post)).Nodup := by simpa using hreb.nodup wf
  have hrem := Assoc.remove_append_cons hnd
  rw [← removed_eq_iff wf hreb]
  constructor
  · intro heq
    refine Assoc.eq_of_keys_of_lookup (hrem ▸ Assoc.nodup_remove hnd key)
      (hreb.keys_removed wf) fun p _ => ?_
    rw [← hrem, heq, Assoc.lookup_remove, Assoc.lookup_remove, Assoc.lookup_assign]
    by_cases hp : p = key <;> simp [hp]
  · intro heq
    refine Assoc.eq_of_keys_of_lookup hnd ?_ fun p _ => ?_
    · rw [Assoc.keys_assign_of_mem hkey, hreb.keys_eq]
      simp
    · rw [hreb.lookup_converted wf, heq, Assoc.lookup_remove, Assoc.lookup_assign]
      by_cases hp : p = key <;> simp [hp]

/-! ### Widths -/

/-- **The recorded attributes have the width of the present ones**: no transition but a
rollback changes the width of a property. -/
theorem recordedAttributes_width (wf : h.WF) (hs : h.Valid s) {p : PropertyKey}
    (hp : p ≠ key) {a b : SlotAttributes} (ha : (h.propertyList s).lookup p = some a)
    (hb : h.recordedAttributes key p s = some b) :
    b.isAccessorDescriptor = a.isAccessorDescriptor := by
  induction s generalizing a with
  | root inner => cases hb
  | next inner previous ih =>
      obtain ⟨hprev, hl⟩ := wf.linked _ previous hs rfl
      by_cases hflags : inner.flags = .prototype
      · have hlist : h.propertyList (.next inner previous) = h.propertyList previous := by
          simp only [Linked, SharedShape.inner, hflags] at hl
          exact hl.2
        rw [recordedAttributes, if_pos hflags] at hb
        exact ih hprev (hlist ▸ ha) hb
      have hne : h.propertyList (.next inner previous) ≠ [] := by
        intro hnil
        simp [hnil] at ha
      obtain ⟨front, ⟨newest, c⟩, hlast⟩ := List.eq_nil_or_concat' _ |>.resolve_left hne
      have hprop := property_eq wf hs hlast
      have hnewest : (h.propertyList (.next inner previous)).lookup newest = some c :=
        (Assoc.lookup_eq_some_iff_mem (wf.nodup _)).mpr (by simp [hlast])
      rw [recordedAttributes, if_neg hflags, hprop] at hb
      dsimp only at hb
      -- The width of `p` is that in the previous shape, if it is there.
      have hback : ∀ a', (h.propertyList previous).lookup p = some a' →
          a'.isAccessorDescriptor = a.isAccessorDescriptor := by
        intro a' ha'
        rw [Linked] at hl
        cases hf : inner.flags with
        | insertProperty =>
            simp only [SharedShape.inner, hf] at hl
            obtain ⟨-, -, k, d, hk, hlist⟩ := hl
            rw [hlist, Assoc.lookup_append_of_mem (Assoc.mem_keys_of_lookup ha'), ha'] at ha
            rw [Option.some.inj ha]
        | configureProperty =>
            simp only [SharedShape.inner, hf] at hl
            obtain ⟨-, -, k, d, e, hk, hw, hlist⟩ := hl
            rw [hlist, Assoc.lookup_assign] at ha
            split at ha
            · next hpk =>
                rw [hpk, hk] at ha'
                obtain rfl := Option.some.inj ha
                obtain rfl := Option.some.inj ha'
                exact SlotAttributes.widthMatch_iff.mp hw
            · rw [ha] at ha'
              rw [Option.some.inj ha']
        | prototype => exact absurd hf hflags
      split at hb
      · exact hback b hb
      · split at hb
        · next hpn =>
            subst hpn
            rw [hnewest] at ha
            rw [← Option.some.inj ha, ← Option.some.inj hb]
        · next hdone hpn =>
            have hin : p ∈ Assoc.keys (h.propertyList previous) := by
              obtain ⟨-, ⟨-, k, d, -, hlist⟩ | ⟨-, hsame⟩⟩ := Linked.cases hl hflags
              · obtain ⟨-, heq⟩ := List.append_inj' (hlast.symm.trans hlist) rfl
                obtain ⟨rfl, -⟩ : newest = k ∧ c = d := by simpa using heq
                have hmem := Assoc.mem_keys_of_lookup ha
                rw [hlist, Assoc.keys_append] at hmem
                simpa [Ne.symm hpn] using hmem
              · exact hsame ▸ Assoc.mem_keys_of_lookup ha
            obtain ⟨a', ha'⟩ := Assoc.exists_lookup_of_mem hin
            exact (ih hprev ha' hb).trans (hback a' ha')

/-- The rebuilt properties have the widths of the present ones. -/
theorem Rebuilds.width (wf : h.WF) (hs : h.Valid s) {pre post : PropertyList}
    (hreb : h.Rebuilds s key pre post) {p : PropertyKey} {a b : SlotAttributes} (hp : p ≠ key)
    (ha : (pre ++ post).lookup p = some a) (hb : (h.propertyList s).lookup p = some b) :
    a.isAccessorDescriptor = b.isAccessorDescriptor := by
  rw [hreb.lookup_eq p (Assoc.mem_keys_of_lookup ha)] at ha
  exact recordedAttributes_width wf hs hp hb ha

/-- Removing keeps the widths of the other properties. -/
theorem sameWidths_removed (wf : h.WF) (hs : h.Valid s) {pre post : PropertyList}
    (hreb : h.Rebuilds s key pre post) :
    SameWidths (pre ++ post) (Assoc.remove (h.propertyList s) key) := by
  have hkeys := hreb.keys_removed wf
  refine sameWidths_of_lookup ?_ hkeys fun p a b ha hb => ?_
  · rw [hkeys]
    exact Assoc.nodup_remove (wf.nodup s) key
  · rw [Assoc.lookup_remove] at hb
    split at hb
    · cases hb
    · next hp => exact hreb.width wf hs hp ha hb

/-- Converting keeps the widths of the other properties. -/
theorem sameWidths_converted (wf : h.WF) (hs : h.Valid s) {pre post : PropertyList}
    (hreb : h.Rebuilds s key pre post) (a : SlotAttributes) :
    SameWidths (pre ++ (key, a) :: post) (Assoc.assign (h.propertyList s) key a) := by
  have hkey : key ∈ Assoc.keys (h.propertyList s) := by simp [hreb.keys_eq]
  refine sameWidths_of_lookup (by simpa using hreb.nodup wf) ?_ fun p c d hc hd => ?_
  · rw [Assoc.keys_assign_of_mem hkey, hreb.keys_eq]
    simp
  · rw [hreb.lookup_converted wf] at hc
    rw [Assoc.lookup_assign] at hd
    split at hd
    · next hp =>
        rw [if_pos hp] at hc
        rw [← Option.some.inj hc, ← Option.some.inj hd]
    · next hp =>
        rw [if_neg hp] at hc
        exact hreb.width wf hs hp hc hd

end ShapeHeap

end BoaLigero
