import BoaLigero.Util.Run
import BoaLigero.Object.PropertyMap

/-!
# Property Maps against Finite Maps

Several objects over common shapes: each object is a property map together with the
ordered map from keys to descriptors on which the same insertions and removals were
performed. Objects start on the shared shape of their prototype or on a unique shape of
their own, and a shared shape turns into a unique one when its transition chain has grown
long enough, at any point of a run.

Two things must fit together. The storage is edited in place, the slots are recomputed by
the shape: they agree in every run (`storage_tiles`). The attributes that a removal or a
conversion leaves to the other properties of a shared shape are the right ones where the
transition chain keeps them (`Shapes.Kept`): in the runs in which it does, reading a
property gives the descriptor inserted last (`storage_matches_reference`).

## Main results

* `storage_tiles` — in every run the slots of an object tile its storage in key order.
* `storage_matches_reference` — in every run whose removals and conversions keep the other
  properties, `get` is the finite map.
* `not_forall_get_matches` — the other runs need not agree.
-/

namespace BoaLigero

/-- An object's named properties with the finite map they should be. -/
structure MapObject (V : Type) where
  map : PropertyMap V
  reference : OrderedMap PropertyKey (PropertyDescriptor V)

/-- Shapes with the objects on them. -/
structure MapWorld (V : Type) where
  shapes : Shapes
  objects : List (MapObject V)

/-- What happens to the objects. -/
inductive MapLabel (V : Type) where
  /-- A new object with a unique shape (`from_prototype_unique_shape`). -/
  | newUnique (prototype : JsPrototype)
  /-- A new object with a shared shape (`from_prototype_with_shared_shape`). -/
  | newShared (prototype : JsPrototype)
  | insert (i : ℕ) (key : PropertyKey) (property : PropertyDescriptor V)
  | remove (i : ℕ) (key : PropertyKey)
  | setPrototype (i : ℕ) (prototype : JsPrototype)
  /-- A collection, which may leave any set of shared shapes alive. -/
  | collect (alive : ℕ → Bool)

/-- The slots cover the storage cells from `n` to `size`, one after the other, each as many
cells as its kind is wide. -/
def Tiles : ℕ → List (PropertyKey × Slot) → ℕ → Prop
  | n, [], size => n = size
  | n, (_, slot) :: slots, size => slot.index = n ∧ Tiles (n + slot.width) slots size

/-- A layout covers its cells. -/
theorem tiles_layoutFrom (n : ℕ) (ps : PropertyList) :
    Tiles n (layoutFrom n ps) (n + totalWidth ps) := by
  induction ps generalizing n with
  | nil => rfl
  | cons p ps ih =>
      have hrest := ih (n + p.2.width)
      rw [Nat.add_assoc] at hrest
      rw [totalWidth_cons]
      exact ⟨rfl, hrest⟩

namespace MapWorld

variable {V : Type} [Inhabited V] {w w' : MapWorld V}

/-- The step relation of the objects. -/
inductive Step : MapWorld V → MapLabel V → MapWorld V → Prop
  | newUnique {w : MapWorld V} {prototype : JsPrototype} {shape : Shape} {H' : Shapes}
      (hnew : w.shapes.newUnique prototype .empty = (shape, H')) :
      Step w (.newUnique prototype) ⟨H', w.objects ++ [⟨⟨shape, []⟩, .empty⟩]⟩
  | newShared {w : MapWorld V} {prototype : JsPrototype} {shape : SharedShape}
      {shared : ShapeHeap}
      (hnew : w.shapes.shared.changePrototypeTransition ShapeHeap.rootShape prototype =
        (shape, shared)) :
      Step w (.newShared prototype)
        ⟨{ w.shapes with shared }, w.objects ++ [⟨⟨.shared shape, []⟩, .empty⟩]⟩
  | insert {w : MapWorld V} {i : ℕ} {x : MapObject V} {key : PropertyKey}
      {property : PropertyDescriptor V} {found : Bool} {map : PropertyMap V} {H' : Shapes}
      (hx : w.objects[i]? = some x) (hcomplete : property.IsComplete)
      (hinsert : x.map.insert w.shapes key property = some (found, map, H')) :
      Step w (.insert i key property)
        ⟨H', w.objects.set i ⟨map, x.reference.insert key property⟩⟩
  | remove {w : MapWorld V} {i : ℕ} {x : MapObject V} {key : PropertyKey} {found : Bool}
      {map : PropertyMap V} {H' : Shapes} (hx : w.objects[i]? = some x)
      (hremove : x.map.remove w.shapes key = some (found, map, H')) :
      Step w (.remove i key) ⟨H', w.objects.set i ⟨map, x.reference.erase key⟩⟩
  | setPrototype {w : MapWorld V} {i : ℕ} {x : MapObject V} {prototype : JsPrototype}
      {map : PropertyMap V} {H' : Shapes} (hx : w.objects[i]? = some x)
      (hset : x.map.setPrototype w.shapes prototype = (map, H')) :
      Step w (.setPrototype i prototype) ⟨H', w.objects.set i ⟨map, x.reference⟩⟩
  | collect {w : MapWorld V} (alive : ℕ → Bool) :
      Step w (.collect alive)
        ⟨{ w.shapes with shared := { w.shapes.shared with alive := alive } }, w.objects⟩

/-- No objects yet. -/
def initial : MapWorld V := ⟨⟨.initial, []⟩, []⟩

/-- All runs of object operations. -/
def system (V : Type) [Inhabited V] : TransitionSystem (MapWorld V) (MapLabel V) where
  init w := w = initial
  step := Step

/-- The condition on a step: where a property of a shared shape is removed, or converted
between data and accessor, the transition chain of the shape keeps the attributes of the
other properties. -/
def StepPreserves (w : MapWorld V) : MapLabel V → Prop
  | .insert i key property =>
      ∀ x ∈ w.objects[i]?, ∀ a ∈ property.toSlotAttributes,
        ∀ b ∈ (w.shapes.propertyList x.map.shape).lookup key,
          b.widthMatch a ∨ w.shapes.Kept x.map.shape key
  | .remove i key =>
      ∀ x ∈ w.objects[i]?, key ∈ Assoc.keys (w.shapes.propertyList x.map.shape) →
        w.shapes.Kept x.map.shape key
  | _ => True

/-! ### The invariants -/

/-- The blocks of an object: its storage is made of them, and they belong to the keys of
the reference, in order. -/
structure Stores (H : Shapes) (x : MapObject V) (rows : List (PropertyKey × List V)) :
    Prop where
  holds : x.map.Holds H rows
  keys_eq : Assoc.keys (H.propertyList x.map.shape) = x.reference.keys

/-- Every block, read with the attributes of its key, is the descriptor of the
reference. -/
def Reads (H : Shapes) (x : MapObject V) (rows : List (PropertyKey × List V)) : Prop :=
  ∀ k d, x.reference.get? k = some d → ∃ a block,
    (H.propertyList x.map.shape).lookup k = some a ∧ rows.lookup k = some block ∧
      PropertyMap.getStorage block { index := 0, attributes := a } = some d

/-- What holds in every run, and, where `exact` is set, in the preserving ones. -/
structure Inv (exact : Prop) (w : MapWorld V) : Prop where
  owned : w.shapes.Owned (w.objects.map fun x => x.map.shape)
  root : w.shapes.shared.Valid ShapeHeap.rootShape ∧
    w.shapes.shared.propertyList ShapeHeap.rootShape = []
  stores : ∀ x ∈ w.objects, ∃ rows, Stores w.shapes x rows ∧ (exact → Reads w.shapes x rows)

variable {exact : Prop} {i : ℕ} {x : MapObject V} {H' : Shapes}

omit [Inhabited V] in
/-- What an object stores depends on its shape's properties only. -/
theorem Stores.congr {H : Shapes} {rows : List (PropertyKey × List V)} (hs : Stores H x rows)
    (heq : H'.propertyList x.map.shape = H.propertyList x.map.shape) : Stores H' x rows :=
  ⟨⟨hs.holds.storage_eq, by rw [heq, hs.holds.widths_eq]⟩, by rw [heq, hs.keys_eq]⟩

omit [Inhabited V] in
theorem Reads.congr {H : Shapes} {rows : List (PropertyKey × List V)} (hr : Reads H x rows)
    (heq : H'.propertyList x.map.shape = H.propertyList x.map.shape) : Reads H' x rows := by
  intro k d hk
  rw [heq]
  exact hr k d hk

omit [Inhabited V] in
/-- An operation on one object keeps the invariant, if the object stores its new
reference. -/
theorem Inv.updated (inv : Inv exact w) (hx : w.objects[i]? = some x) {inPlace : Bool}
    {map : PropertyMap V} {reference : OrderedMap PropertyKey (PropertyDescriptor V)}
    {ps : PropertyList} {q : JsPrototype} {rows : List (PropertyKey × List V)}
    (hup : PropertyMap.Updates inPlace w.shapes H' x.map map ps q rows)
    (hkeys : Assoc.keys ps = reference.keys)
    (hreads : exact → ∀ k d, reference.get? k = some d → ∃ a block, ps.lookup k = some a ∧
      rows.lookup k = some block ∧
        PropertyMap.getStorage block { index := 0, attributes := a } = some d) :
    Inv exact ⟨H', w.objects.set i ⟨map, reference⟩⟩ := by
  have hshape : (w.objects.map fun x => x.map.shape)[i]? = some x.map.shape := by simp [hx]
  have hlt := (List.getElem?_eq_some_iff.mp hx).1
  refine ⟨?_, ⟨hup.moves.shared.valid inv.root.1, ?_⟩, fun y hy => ?_⟩
  · rw [List.map_set]
    exact inv.owned.set hshape hup.moves
  · rw [hup.moves.shared.propertyList_eq inv.owned.wf.shared inv.root.1, inv.root.2]
  · obtain ⟨j, hj⟩ := List.mem_iff_getElem?.mp hy
    by_cases hij : i = j
    · subst hij
      rw [List.getElem?_set_self hlt] at hj
      obtain rfl := Option.some.inj hj
      refine ⟨rows, ⟨hup.holds, by rw [hup.moves.list_eq, hkeys]⟩, fun he k d hk => ?_⟩
      rw [hup.moves.list_eq]
      exact hreads he k d hk
    · rw [List.getElem?_set_ne hij] at hj
      have hshape' : (w.objects.map fun x => x.map.shape)[j]? = some y.map.shape := by simp [hj]
      have hsame := (inv.owned.other hshape hshape' hij hup.moves).2.1
      obtain ⟨rows', hstores, hr⟩ := inv.stores y (List.mem_of_getElem? hj)
      exact ⟨rows', hstores.congr hsame, fun he => (hr he).congr hsame⟩

omit [Inhabited V] in
/-- A new object without properties keeps the invariant. -/
theorem Inv.pushed (inv : Inv exact w) {shape shape' : Shape} {q : JsPrototype}
    (hm : w.shapes.Moves false H' shape shape' [] q) (hshared : ∀ u, shape ≠ .unique u) :
    Inv exact ⟨H', w.objects ++ [⟨⟨shape', []⟩, .empty⟩]⟩ := by
  have hfree : ∀ u, Shape.unique u ∈ w.objects.map (fun x => x.map.shape) → shape ≠ .unique u :=
    fun u _ => hshared u
  refine ⟨?_, ⟨hm.shared.valid inv.root.1, ?_⟩, fun y hy => ?_⟩
  · rw [List.map_append]
    exact inv.owned.push hm hfree
  · rw [hm.shared.propertyList_eq inv.owned.wf.shared inv.root.1, inv.root.2]
  · rcases List.mem_append.mp hy with hy | hy
    · obtain ⟨rows, hstores, hr⟩ := inv.stores y hy
      have hsame := (inv.owned.other_push hm hfree (List.mem_map_of_mem hy)).1
      exact ⟨rows, hstores.congr hsame, fun he => (hr he).congr hsame⟩
    · obtain rfl := List.mem_singleton.mp hy
      refine ⟨[], ⟨⟨rfl, by rw [hm.list_eq]; rfl⟩, by rw [hm.list_eq]; rfl⟩, ?_⟩
      intro _ k d hk
      cases hk

/-- Inserting a property never fails and keeps the invariant. -/
theorem Inv.inserted (inv : Inv exact w) (key : PropertyKey) (hx : w.objects[i]? = some x)
    {property : PropertyDescriptor V} (hcomplete : property.IsComplete)
    (hok : exact → w.StepPreserves (.insert i key property)) :
    ∃ found map H', x.map.insert w.shapes key property = some (found, map, H') ∧
      Inv exact ⟨H', w.objects.set i ⟨map, x.reference.insert key property⟩⟩ := by
  obtain ⟨rows, hstores, hreads⟩ := inv.stores x (List.mem_of_getElem? hx)
  obtain ⟨a, ha⟩ := hcomplete.exists_attributes
  have hwf := inv.owned.wf
  have hvalid := inv.owned.valid x.map.shape
    (List.mem_map_of_mem (f := fun x => x.map.shape) (List.mem_of_getElem? hx))
  -- Reading after the insertion, given what the new lists say.
  have hread : ∀ {ps : PropertyList} {rows' : List (PropertyKey × List V)} {block : List V},
      PropertyMap.getStorage block { index := 0, attributes := a } = some property →
      ps = Assoc.assign (w.shapes.propertyList x.map.shape) key a →
      rows' = Assoc.assign rows key block → exact →
      ∀ k d, (x.reference.insert key property).get? k = some d → ∃ a block,
        ps.lookup k = some a ∧ rows'.lookup k = some block ∧
          PropertyMap.getStorage block { index := 0, attributes := a } = some d := by
    rintro ps rows' block hget rfl rfl he k d hk
    rw [OrderedMap.get?_insert] at hk
    rw [Assoc.lookup_assign, Assoc.lookup_assign]
    split at hk
    · next hkk =>
        rw [if_pos hkk, if_pos hkk]
        exact ⟨a, block, rfl, rfl, Option.some.inj hk ▸ hget⟩
    · next hkk =>
        rw [if_neg hkk, if_neg hkk]
        exact hreads he k d hk
  by_cases hkey : key ∈ Assoc.keys (w.shapes.propertyList x.map.shape)
  · obtain ⟨b, hb⟩ := Assoc.exists_lookup_of_mem hkey
    obtain ⟨m', H', ps, block, n, heq, -, hup, hsw, hkept, hget⟩ :=
      PropertyMap.insertWithSlot_present hwf hvalid hstores.holds hb hcomplete ha
        { index := 0, attributes := .empty }
    refine ⟨true, m', H', by rw [PropertyMap.insert, heq, Option.map_some],
      inv.updated hx hup ?_ fun he => hread hget (hkept ?_) rfl he⟩
    · rw [hsw.keys_eq, Assoc.keys_assign_of_mem hkey, OrderedMap.keys_insert,
        if_pos (hstores.keys_eq ▸ hkey), hstores.keys_eq]
    · exact hok he x hx a ha b hb
  · obtain ⟨m', H', block, heq, hup, hget⟩ :=
      PropertyMap.insertWithSlot_absent hwf hvalid hstores.holds hkey hcomplete ha
        { index := 0, attributes := .empty }
    refine ⟨false, m', H', by rw [PropertyMap.insert, heq, Option.map_some],
      inv.updated hx hup ?_ fun he => hread hget ?_ ?_ he⟩
    · rw [OrderedMap.keys_insert, if_neg (hstores.keys_eq ▸ hkey), ← hstores.keys_eq]
      simp
    · rw [Assoc.assign_of_notMem hkey]
    · rw [Assoc.assign_of_notMem]
      rwa [PropertyMap.keys_of_blockWidths hstores.holds.widths_eq]

omit [Inhabited V] in
/-- Removing a property never fails and keeps the invariant. -/
theorem Inv.removed (inv : Inv exact w) (key : PropertyKey) (hx : w.objects[i]? = some x)
    (hok : exact → w.StepPreserves (.remove i key : MapLabel V)) :
    ∃ found map H', x.map.remove w.shapes key = some (found, map, H') ∧
      Inv exact ⟨H', w.objects.set i ⟨map, x.reference.erase key⟩⟩ := by
  obtain ⟨rows, hstores, hreads⟩ := inv.stores x (List.mem_of_getElem? hx)
  have hwf := inv.owned.wf
  have hvalid := inv.owned.valid x.map.shape
    (List.mem_map_of_mem (f := fun x => x.map.shape) (List.mem_of_getElem? hx))
  by_cases hkey : key ∈ Assoc.keys (w.shapes.propertyList x.map.shape)
  · obtain ⟨m', H', ps, heq, hup, hsw, hkept⟩ :=
      PropertyMap.remove_present hwf hvalid hstores.holds hkey
    refine ⟨true, m', H', heq, inv.updated hx hup ?_ fun he k d hk => ?_⟩
    · rw [hsw.keys_eq, Assoc.keys_remove, OrderedMap.keys_erase, hstores.keys_eq]
    · rw [OrderedMap.get?_erase] at hk
      split at hk
      · cases hk
      · next hkk =>
          rw [hkept (hok he x hx hkey), Assoc.lookup_remove, Assoc.lookup_remove, if_neg hkk,
            if_neg hkk]
          exact hreads he k d hk
  · have hnone : w.shapes.lookup x.map.shape key = none := by
      rw [Shapes.lookup_eq hwf, Assoc.lookup_eq_none_iff_notMem, keys_layout]
      exact hkey
    refine ⟨false, x.map, w.shapes, by rw [PropertyMap.remove, hnone], ?_⟩
    refine inv.updated hx ⟨.refl hwf hvalid, hstores.holds⟩ ?_ fun he k d hk => ?_
    · rw [OrderedMap.keys_erase, ← hstores.keys_eq, List.filter_eq_self.mpr]
      intro k hk
      simpa using hk.ne_of_notMem hkey
    · rw [OrderedMap.get?_erase] at hk
      split at hk
      · cases hk
      · exact hreads he k d hk

omit [Inhabited V] in
/-- No objects, no invariant to break. -/
theorem inv_initial : Inv exact (initial : MapWorld V) := by
  refine ⟨⟨⟨ShapeHeap.wf_initial, ?_⟩, ?_, ?_⟩, ⟨rfl, rfl⟩, ?_⟩
  · intro inner hinner
    cases hinner
  · intro shape hshape
    cases hshape
  · intro i j u hi
    cases hi
  · intro x hx
    cases hx

/-- Every step keeps the invariant. -/
theorem Inv.step (inv : Inv exact w) {l : MapLabel V} (hok : exact → w.StepPreserves l)
    (hstep : Step w l w') : Inv exact w' := by
  cases hstep with
  | newUnique hnew =>
      have hm := Shapes.newUnique_moves inv.owned.wf .empty (.shared ShapeHeap.rootShape) ‹_›
      rw [hnew] at hm
      exact inv.pushed hm fun u hu => nomatch hu
  | newShared hnew =>
      have hp := ShapeHeap.changePrototypeTransition_spec inv.owned.wf.shared inv.root.1 hnew
      rw [inv.root.2] at hp
      exact inv.pushed (Shapes.shared_moves (s := ShapeHeap.rootShape) inv.owned.wf hp)
        fun u hu => nomatch hu
  | insert hx hcomplete hinsert =>
      obtain ⟨found, map, H', heq, hinv⟩ := inv.inserted _ hx hcomplete hok
      obtain ⟨-, rfl, rfl⟩ : _ ∧ _ ∧ _ := by simpa [hinsert] using heq
      exact hinv
  | remove hx hremove =>
      obtain ⟨found, map, H', heq, hinv⟩ := inv.removed _ hx hok
      obtain ⟨-, rfl, rfl⟩ : _ ∧ _ ∧ _ := by simpa [hremove] using heq
      exact hinv
  | @setPrototype i x prototype map H' hx hset =>
      obtain ⟨rows, hstores, hreads⟩ := inv.stores x (List.mem_of_getElem? hx)
      have hvalid := inv.owned.valid x.map.shape
        (List.mem_map_of_mem (f := fun x => x.map.shape) (List.mem_of_getElem? hx))
      obtain ⟨shape, H'', hchange⟩ : ∃ shape H'', w.shapes.changePrototypeTransition
        x.map.shape prototype = (shape, H'') := ⟨_, _, rfl⟩
      have hm := Shapes.changePrototypeTransition_spec inv.owned.wf hvalid hchange
      rw [PropertyMap.setPrototype, hchange] at hset
      obtain ⟨rfl, rfl⟩ := Prod.mk.inj hset
      refine inv.updated hx ⟨hm, hstores.holds.storage_eq, ?_⟩ hstores.keys_eq hreads
      rw [hm.list_eq]
      exact hstores.holds.widths_eq
  | collect alive =>
      refine ⟨inv.owned.collect alive, inv.root, fun x hx => ?_⟩
      obtain ⟨rows, hstores, hreads⟩ := inv.stores x hx
      have hsame := Shapes.propertyList_withAlive w.shapes alive x.map.shape
      exact ⟨rows, hstores.congr hsame, fun he => (hreads he).congr hsame⟩

omit [Inhabited V] in
/-- Reading a property is reading the reference. -/
theorem Inv.get_eq (inv : Inv True w) (hx : x ∈ w.objects) (key : PropertyKey) :
    x.map.get w.shapes key = some (x.reference.get? key) := by
  obtain ⟨rows, hstores, hreads⟩ := inv.stores x hx
  cases hk : x.reference.get? key with
  | none =>
      refine PropertyMap.get_eq_none inv.owned.wf ?_
      rw [hstores.keys_eq]
      exact Assoc.lookup_eq_none_iff_notMem.mp hk
  | some d =>
      obtain ⟨a, block, ha, hblock, hget⟩ := hreads trivial key d hk
      obtain ⟨block', d', hblock', hd', heq⟩ := hstores.holds.get_eq inv.owned.wf ha
      obtain rfl := Option.some.inj (hblock.symm.trans hblock')
      rw [heq, Option.some.inj (hget.symm.trans hd')]

/-! ### Results -/

/-- **Slots tile the storage.** In every run, the slots of an object's keys, in key order,
cover its storage from the first cell to the last, and looking a key up finds its slot. -/
theorem storage_tiles (hw : (system V).Reachable w) : ∀ x ∈ w.objects,
    Tiles 0 (w.shapes.slots x.map.shape) x.map.storage.length ∧
      Assoc.keys (w.shapes.slots x.map.shape) = x.reference.keys ∧
      ∀ key, w.shapes.lookup x.map.shape key = (w.shapes.slots x.map.shape).lookup key := by
  have inv : Inv False w := hw.invariant (fun s hs => hs ▸ inv_initial)
    fun s l s' hinv _ hstep => hinv.step False.elim hstep
  intro x hx
  obtain ⟨rows, hstores, -⟩ := inv.stores x hx
  have hslots := Shapes.slots_eq inv.owned.wf x.map.shape
  refine ⟨?_, ?_, fun key => ?_⟩
  · have htiles := tiles_layoutFrom 0 (w.shapes.propertyList x.map.shape)
    rw [Nat.zero_add, ← PropertyMap.length_cells hstores.holds.widths_eq,
      ← hstores.holds.storage_eq] at htiles
    exact hslots ▸ htiles
  · rw [hslots, keys_layout, hstores.keys_eq]
  · rw [hslots, Shapes.lookup_eq inv.owned.wf]

/-- **Property maps are finite maps.** In every run whose removals and conversions keep the
other properties, the slots of every object tile its storage in key order, reading a key
gives exactly the descriptor inserted last and not removed since, and no insertion or
removal fails. -/
theorem storage_matches_reference (run : (system V).Run StepPreserves w) :
    ∀ x ∈ w.objects,
      Tiles 0 (w.shapes.slots x.map.shape) x.map.storage.length ∧
      Assoc.keys (w.shapes.slots x.map.shape) = x.reference.keys ∧
      (∀ key, x.map.get w.shapes key = some (x.reference.get? key)) ∧
      (∀ key property, property.IsComplete → (x.map.insert w.shapes key property).isSome) ∧
      ∀ key, (x.map.remove w.shapes key).isSome := by
  have inv : Inv True w := run.invariant (fun s hs => hs ▸ inv_initial)
    fun s l s' hinv hok hstep => hinv.step (fun _ => hok) hstep
  have inv' : Inv False w := run.invariant (fun s hs => hs ▸ inv_initial)
    fun s l s' hinv _ hstep => hinv.step False.elim hstep
  intro x hx
  obtain ⟨htiles, hkeys, -⟩ := storage_tiles run.reachable x hx
  obtain ⟨i, hi⟩ := List.mem_iff_getElem?.mp hx
  refine ⟨htiles, hkeys, fun key => ?_, fun key property hcomplete => ?_, fun key => ?_⟩
  · exact inv.get_eq hx key
  · obtain ⟨found, map, H', heq, -⟩ := inv'.inserted key hi hcomplete False.elim
    simp [heq]
  · obtain ⟨found, map, H', heq, -⟩ := inv'.removed key hi False.elim
    simp [heq]

/-! ### Particular runs -/

/-- Perform a step, if it is possible. -/
def exec (w : MapWorld V) : MapLabel V → Option (MapWorld V)
  | .newUnique prototype =>
      let (shape, H) := w.shapes.newUnique prototype .empty
      some ⟨H, w.objects ++ [⟨⟨shape, []⟩, .empty⟩]⟩
  | .newShared prototype =>
      let (shape, shared) :=
        w.shapes.shared.changePrototypeTransition ShapeHeap.rootShape prototype
      some ⟨{ w.shapes with shared }, w.objects ++ [⟨⟨.shared shape, []⟩, .empty⟩]⟩
  | .insert i key property =>
      if property.isComplete then
        w.objects[i]?.bind fun x => (x.map.insert w.shapes key property).map fun r =>
          ⟨r.2.2, w.objects.set i ⟨r.2.1, x.reference.insert key property⟩⟩
      else none
  | .remove i key =>
      w.objects[i]?.bind fun x => (x.map.remove w.shapes key).map fun r =>
        ⟨r.2.2, w.objects.set i ⟨r.2.1, x.reference.erase key⟩⟩
  | .setPrototype i prototype =>
      w.objects[i]?.map fun x =>
        let (map, H) := x.map.setPrototype w.shapes prototype
        ⟨H, w.objects.set i ⟨map, x.reference⟩⟩
  | .collect alive =>
      some ⟨{ w.shapes with shared := { w.shapes.shared with alive := alive } }, w.objects⟩

/-- Perform steps one after the other, as long as a condition on them holds. -/
def execAll (check : MapWorld V → MapLabel V → Bool) (w : MapWorld V) :
    List (MapLabel V) → Option (MapWorld V)
  | [] => some w
  | l :: ls => if check w l then (w.exec l).bind fun w => w.execAll check ls else none

/-- Performing a step is a step. -/
theorem step_exec {l : MapLabel V} (heq : w.exec l = some w') : Step w l w' := by
  cases l with
  | newUnique prototype => exact Option.some.inj heq ▸ .newUnique rfl
  | newShared prototype => exact Option.some.inj heq ▸ .newShared rfl
  | insert i key property =>
      rw [exec] at heq
      split at heq
      · next hcomplete =>
          obtain ⟨x, hx, hmap⟩ := Option.bind_eq_some_iff.mp heq
          obtain ⟨⟨found, map, H'⟩, hinsert, rfl⟩ := Option.map_eq_some_iff.mp hmap
          exact .insert hx (.of_isComplete hcomplete) hinsert
      · cases heq
  | remove i key =>
      obtain ⟨x, hx, hmap⟩ := Option.bind_eq_some_iff.mp heq
      obtain ⟨⟨found, map, H'⟩, hremove, rfl⟩ := Option.map_eq_some_iff.mp hmap
      exact .remove hx hremove
  | setPrototype i prototype =>
      obtain ⟨x, hx, rfl⟩ := Option.map_eq_some_iff.mp heq
      exact .setPrototype hx rfl
  | collect alive => exact Option.some.inj heq ▸ .collect alive

/-- Performing steps is a run under the condition. -/
theorem run_execAll {check : MapWorld V → MapLabel V → Bool}
    (hw : (system V).Run (fun w l => check w l) w) {ls : List (MapLabel V)}
    (heq : w.execAll check ls = some w') : (system V).Run (fun w l => check w l) w' := by
  induction ls generalizing w with
  | nil => exact Option.some.inj heq ▸ hw
  | cons l ls ih =>
      rw [execAll] at heq
      split at heq
      · next hok =>
          obtain ⟨w₁, hexec, hrest⟩ := Option.bind_eq_some_iff.mp heq
          exact ih (hw.next hok (step_exec hexec)) hrest
      · cases heq

instance (H : Shapes) : ∀ shape key, Decidable (H.Kept shape key)
  | .shared s, key => inferInstanceAs (Decidable (H.shared.Kept s key))
  | .unique _, _ => .isTrue trivial

instance (w : MapWorld V) : ∀ l, Decidable (w.StepPreserves l)
  | .insert i key property =>
      inferInstanceAs (Decidable (∀ x ∈ w.objects[i]?, ∀ a ∈ property.toSlotAttributes,
        ∀ b ∈ (w.shapes.propertyList x.map.shape).lookup key,
          b.widthMatch a ∨ w.shapes.Kept x.map.shape key))
  | .remove i key =>
      inferInstanceAs (Decidable (∀ x ∈ w.objects[i]?,
        key ∈ Assoc.keys (w.shapes.propertyList x.map.shape) → w.shapes.Kept x.map.shape key))
  | .newUnique _ => .isTrue trivial
  | .newShared _ => .isTrue trivial
  | .setPrototype _ _ => .isTrue trivial
  | .collect _ => .isTrue trivial

/-- A data property of a number, writable or not. -/
def number (n : ℕ) (writable : Bool) : PropertyDescriptor (Option ℕ) :=
  .ofData (some n) writable true true

/-- An accessor replaces a data property in front of another one, which is removed and
added again. -/
def keptSteps : List (MapLabel (Option ℕ)) :=
  [.newShared none,
    .insert 0 (.string "a") (number 1 true),
    .insert 0 (.string "b") (number 2 true),
    .insert 0 (.string "a") (.ofAccessor (some (some 3)) none true true),
    .remove 0 (.string "b"),
    .insert 0 (.string "b") (number 4 false)]

/-- The object after `keptSteps`. -/
def keptMaps : MapWorld (Option ℕ) :=
  (initial.execAll (fun w l => decide (w.StepPreserves l)) keptSteps).getD initial

/-- The object after `keptSteps` stores an accessor and a number in three cells. -/
theorem storage_matches_reference_keptMaps :
    keptMaps.objects.map (fun x => x.map.storage) = [[some 3, some 1, some 4]] ∧
      keptMaps.objects.Forall fun x =>
        x.map.get keptMaps.shapes (.string "b") = some (x.reference.get? (.string "b")) := by
  have heq : initial.execAll (fun w l => decide (w.StepPreserves l)) keptSteps =
      some keptMaps := rfl
  have run : (system (Option ℕ)).Run StepPreserves keptMaps :=
    (run_execAll (.start rfl) heq).mono fun w l => of_decide_eq_true
  refine ⟨by decide, List.forall_iff_forall_mem.mpr fun x hx => ?_⟩
  exact (storage_matches_reference run x hx).2.2.1 _

/-- A read-only property made so after the next one was added, and the removal of that
one. -/
def lossySteps : List (MapLabel (Option ℕ)) :=
  [.newShared none,
    .insert 0 (.string "a") (number 1 true),
    .insert 0 (.string "b") (number 2 true),
    .insert 0 (.string "a") (number 1 false),
    .remove 0 (.string "b")]

/-- Removing `b` changes the descriptor of `a`. -/
theorem not_forall_get_matches :
    ¬ ∀ w, (system (Option ℕ)).Reachable w → ∀ x ∈ w.objects, ∀ key,
      x.map.get w.shapes key = some (x.reference.get? key) := by
  intro hall
  have hrun : ∃ w, initial.execAll (fun _ _ => true) lossySteps = some w ∧
      ∃ x ∈ w.objects, ¬ x.map.get w.shapes (.string "a") =
        some (x.reference.get? (.string "a")) := by
    refine ⟨_, rfl, ?_⟩
    decide
  obtain ⟨w, heq, x, hx, hnot⟩ := hrun
  have run := run_execAll (w := initial) (.start rfl) heq
  exact hnot (hall w run.reachable x hx _)

end MapWorld

end BoaLigero
