import BoaLigero.Object.ShapeHeap
import BoaLigero.Object.Rollback

/-!
# Unique Shapes

Shapes that belong to one object (`object/shape/unique_shape.rs`). A unique shape owns its
property table and changes it in place when a property is added; every other operation
moves the table to a new shape, so that whoever remembered the old one by its address
misses. Moving a property up or down the storage renumbers the slots behind it.

## Main results

* `PropertyTableInner.Represents.remove`, `PropertyTableInner.Represents.changeAttributes` —
  removing a property and changing its attributes, of any width, as operations on the
  represented list. Unlike the shared shapes, unique shapes always do what they should.
-/

namespace BoaLigero

namespace PropertyTableInner

/-- The loop that updates all slot positions from an entry on. The slot before it is
`previousSlot`; the map entries get their new slots, and their new positions when
`reindex` is set. `none` where the source is unreachable. -/
def updateSlots (reindex : Bool) : ℕ → Option Slot → List (PropertyKey × Slot) →
    (PropertyKey → Option (ℕ × Slot)) →
    Option (List (PropertyKey × Slot) × (PropertyKey → Option (ℕ × Slot)))
  | _, _, [], map => some ([], map)
  | index, previousSlot, (key, slot) :: rest, map =>
      let slot := Slot.fromPrevious previousSlot slot.attributes
      match map key with
      | none => none
      | some (mapIndex, _) =>
          let mapIndex := if reindex then index else mapIndex
          (updateSlots reindex (index + 1) (some slot) rest
            (Function.update map key (some (mapIndex, slot)))).map
              fun r => ((key, slot) :: r.1, r.2)

/-- The table after removing a key (the table part of
`UniqueShape::remove_property_transition`): the outer `none` is unreachable in the source,
the inner one says that there is no such property. -/
def removeProperty (t : PropertyTableInner) (key : PropertyKey) :
    Option (Option PropertyTableInner) :=
  match t.map key with
  | none => some none
  | some (index, _) =>
      let map := Function.update t.map key none
      let keys := t.keys.eraseIdx index
      if index ≠ keys.length then
        let previousSlot := if index = 0 then none else keys[index - 1]?.map Prod.snd
        (updateSlots true index previousSlot (keys.drop index) map).map fun r =>
          some { keys := keys.take index ++ r.1, map := r.2 }
      else some (some { keys, map })

/-- The table and the storage action after changing attributes (the table part of
`UniqueShape::change_attributes_transition`). -/
def changeAttributes (t : PropertyTableInner) (key : TransitionKey) :
    Option (PropertyTableInner × ChangeTransitionAction) :=
  match t.map key.propertyKey with
  | none => none
  | some (index, slot) =>
      let slot' := { slot with attributes := key.attributes }
      let map := Function.update t.map key.propertyKey (some (index, slot'))
      let keys := modifyAttributes t.keys index key.attributes
      if slot.attributes.widthMatch key.attributes then
        some ({ map, keys }, .nothing)
      else
        let action := if key.attributes.isAccessorDescriptor then .insert else .remove
        (updateSlots false (index + 1) (some slot') (keys.drop (index + 1)) map).map fun r =>
          ({ keys := keys.take (index + 1) ++ r.1, map := r.2 }, action)

/-- Where the next slot starts. -/
def nextIndex : Option Slot → ℕ
  | none => 0
  | some slot => slot.index + slot.width

theorem fromPrevious_eq (previousSlot : Option Slot) (a : SlotAttributes) :
    Slot.fromPrevious previousSlot a = { index := nextIndex previousSlot, attributes := a } := by
  cases previousSlot <;> rfl

/-- The attributes of slots, with their keys. -/
def attributesOf (keys : List (PropertyKey × Slot)) : PropertyList :=
  keys.map fun e => (e.1, e.2.attributes)

/-- **The update loop** lays the remaining properties out behind the previous slot and
gives their map entries the new slots. -/
theorem updateSlots_spec (reindex : Bool) (n : ℕ) (previousSlot : Option Slot)
    (keys : List (PropertyKey × Slot)) (map : PropertyKey → Option (ℕ × Slot))
    (hnd : (Assoc.keys keys).Nodup)
    (hmap : ∀ i k slot, keys[i]? = some (k, slot) →
      ∃ j old, map k = some (j, old) ∧ (reindex = false → j = n + i)) :
    ∃ map', updateSlots reindex n previousSlot keys map =
        some (layoutFrom (nextIndex previousSlot) (attributesOf keys), map') ∧
      (∀ k, k ∉ Assoc.keys keys → map' k = map k) ∧
      ∀ i k slot, (layoutFrom (nextIndex previousSlot) (attributesOf keys))[i]? =
        some (k, slot) → map' k = some (n + i, slot) := by
  induction keys generalizing n previousSlot map with
  | nil => exact ⟨map, rfl, fun _ _ => rfl, by simp [attributesOf, layoutFrom]⟩
  | cons e keys ih =>
      obtain ⟨key, slot⟩ := e
      simp only [Assoc.keys_cons, List.nodup_cons] at hnd
      obtain ⟨j, old, hkey, hj⟩ := hmap 0 key slot rfl
      set slot' : Slot := { index := nextIndex previousSlot, attributes := slot.attributes }
      have hentry : (if reindex then n else j) = n := by
        cases reindex with
        | true => rfl
        | false => simpa using hj rfl
      obtain ⟨map', hrec, hout, hin⟩ := ih (n + 1) (some slot')
        (Function.update map key (some (n, slot'))) hnd.2 fun i k s hi => by
          have hne : k ≠ key := by
            rintro rfl
            exact hnd.1 (Assoc.mem_keys_of_mem (List.mem_of_getElem? hi))
          obtain ⟨j, old, hk, hj⟩ := hmap (i + 1) k s (by simpa using hi)
          refine ⟨j, old, by rw [Function.update_of_ne hne, hk], fun hr => ?_⟩
          rw [hj hr]
          omega
      refine ⟨map', ?_, fun k hk => ?_, fun i k s hi => ?_⟩
      · simp only [updateSlots, fromPrevious_eq, hkey, hentry]
        rw [hrec]
        rfl
      · rw [Assoc.keys_cons, List.mem_cons, not_or] at hk
        rw [hout k hk.2, Function.update_of_ne hk.1]
      · cases i with
        | zero =>
            obtain ⟨rfl, rfl⟩ : key = k ∧ slot' = s := by
              simpa [attributesOf, layoutFrom] using hi
            rw [hout key hnd.1, Function.update_self]
            rfl
        | succ i =>
            have hi' : (layoutFrom (nextIndex (some slot')) (attributesOf keys))[i]? =
                some (k, s) := by
              simpa [attributesOf, layoutFrom, nextIndex, Slot.width, slot'] using hi
            rw [hin i k s hi']
            congr 2
            omega

theorem attributesOf_layoutFrom (n : ℕ) (ps : PropertyList) :
    attributesOf (layoutFrom n ps) = ps := layoutFrom_map_attributes n ps

/-- The slot before a position of a layout. -/
theorem nextIndex_getLast? (ps : PropertyList) :
    nextIndex ((layout ps).getLast?.map Prod.snd) = totalWidth ps := by
  have h := fromPrevious_layout ps .empty
  rw [fromPrevious_eq] at h
  exact congrArg Slot.index h

namespace Represents

variable {t : PropertyTableInner} {ps qs : PropertyList} {key : PropertyKey}
  {a b : SlotAttributes}

/-- The map entry of a property inside the list. -/
theorem map_append_cons (h : t.Represents (ps ++ (key, a) :: qs)) :
    t.map key = some (ps.length, { index := totalWidth ps, attributes := a }) := by
  rw [h.map_eq, layout_append_cons, List.getElem?_append_right (by simp)]
  simp

/-- The map entry of a property behind another one. -/
theorem map_behind (h : t.Represents (ps ++ (key, a) :: qs)) {n i : ℕ} {k : PropertyKey}
    {slot : Slot} (hi : (layoutFrom n qs)[i]? = some (k, slot)) :
    ∃ old, t.map k = some (ps.length + 1 + i, old) := by
  have hlen : ∀ n, (layoutFrom n qs).length = qs.length := by
    intro n
    rw [← Assoc.length_keys, keys_layoutFrom, Assoc.length_keys]
  have hlt : i < qs.length := hlen n ▸ (List.getElem?_eq_some_iff.mp hi).1
  have hkey : ∀ n, (Assoc.keys (layoutFrom n qs))[i]? = some k ↔ qs[i]?.map Prod.fst = some k := by
    intro n
    rw [keys_layoutFrom, Assoc.keys, List.getElem?_map]
  have hk : (Assoc.keys (layoutFrom (totalWidth ps + a.width) qs))[i]? = some k := by
    rw [hkey, ← hkey n, Assoc.keys, List.getElem?_map, hi]
    rfl
  rw [Assoc.keys, List.getElem?_map, Option.map_eq_some_iff] at hk
  obtain ⟨⟨k', old⟩, hold, rfl⟩ := hk
  refine ⟨old, (h.map_eq _ _ _).mpr ?_⟩
  rw [layout_append_cons, List.getElem?_append_right (by simp; omega)]
  have hsub : ps.length + 1 + i - (layout ps).length = i + 1 := by
    rw [length_layout]
    omega
  rw [hsub, List.getElem?_cons_succ]
  exact hold

/-- The map entry of a property before another one. -/
theorem map_before (h : t.Represents (ps ++ (key, a) :: qs)) {i : ℕ} {k : PropertyKey}
    {slot : Slot} (hi : (layout ps)[i]? = some (k, slot)) : t.map k = some (i, slot) := by
  rw [h.map_eq, layout_append_cons, List.getElem?_append_left (List.getElem?_eq_some_iff.mp hi).1]
  exact hi

/-- A key in front of another one differs from it and from those behind it. -/
theorem ne_of_before (hnd : (Assoc.keys (ps ++ (key, a) :: qs)).Nodup) {i : ℕ}
    {k : PropertyKey} {slot : Slot} (hi : (layout ps)[i]? = some (k, slot)) :
    k ≠ key ∧ k ∉ Assoc.keys qs := by
  have hk := Assoc.mem_keys_of_mem (List.mem_of_getElem? hi)
  rw [keys_layout] at hk
  rw [Assoc.keys_append, Assoc.keys_cons] at hnd
  have hdis := (List.nodup_append.mp hnd).2.2 k hk
  exact ⟨hdis key (by simp), fun hpost => hdis k (by simp [hpost]) rfl⟩

/-- A key behind another one differs from it. -/
theorem ne_of_behind (hnd : (Assoc.keys (ps ++ (key, a) :: qs)).Nodup) {k : PropertyKey}
    (hk : k ∈ Assoc.keys qs) : k ≠ key := by
  rintro rfl
  rw [Assoc.keys_append, Assoc.keys_cons] at hnd
  exact (List.nodup_cons.mp (List.nodup_append.mp hnd).2.1).1 hk

/-- **Removing a property** from the table of a unique shape. -/
theorem removeProperty (h : t.Represents ps) (hkey : key ∈ Assoc.keys ps) :
    ∃ t', t.removeProperty key = some (some t') ∧ t'.Represents (Assoc.remove ps key) := by
  obtain ⟨a, ha⟩ := Assoc.exists_of_mem_keys hkey
  obtain ⟨pre, post, rfl⟩ := List.append_of_mem ha
  have hnd := h.nodup
  rw [Assoc.remove_append_cons hnd]
  have hnd' : (Assoc.keys (pre ++ post)).Nodup := by
    rw [Assoc.keys_append, Assoc.keys_cons] at hnd
    rw [Assoc.keys_append]
    exact hnd.sublist ((List.sublist_cons_self key _).append_left _)
  have hmap := h.map_append_cons
  have hkeys : t.keys.eraseIdx pre.length =
      layout pre ++ layoutFrom (totalWidth pre + a.width) post := by
    rw [h.keys_eq, layout_append_cons, List.eraseIdx_append_of_length_le (by simp)]
    simp
  have hout : ∀ k, k ∉ Assoc.keys (pre ++ post) → Function.update t.map key none k = none := by
    intro k hk
    by_cases hkk : k = key
    · rw [hkk, Function.update_self]
    · rw [Function.update_of_ne hkk, h.map_eq_none_iff]
      simp only [Assoc.keys_append, List.mem_append, not_or] at hk
      simp [hk.1, hk.2, hkk]
  have hbefore : ∀ {i : ℕ} {k : PropertyKey} {slot : Slot},
      (layout pre)[i]? = some (k, slot) → k ≠ key ∧ k ∉ Assoc.keys post :=
    ne_of_before hnd
  have hbehind : ∀ {k : PropertyKey}, k ∈ Assoc.keys post → k ≠ key := ne_of_behind hnd
  simp only [PropertyTableInner.removeProperty, hmap, hkeys]
  by_cases hlast : post = []
  · subst hlast
    refine ⟨⟨Function.update t.map key none, layout pre⟩, by simp [layoutFrom], ?_⟩
    refine .of_entries hnd' (by simp) (fun i k slot hi => ?_) hout
    rw [List.append_nil] at hi
    dsimp only
    rw [Function.update_of_ne (hbefore hi).1]
    exact h.map_before hi
  · have hlen : pre.length ≠ (layout pre ++ layoutFrom (totalWidth pre + a.width) post).length := by
      have hpos := List.length_pos_iff.mpr hlast
      rw [← Assoc.length_keys (layout pre ++ _), Assoc.keys_append, keys_layout, keys_layoutFrom,
        List.length_append, Assoc.length_keys, Assoc.length_keys]
      omega
    have hprevious : (if pre.length = 0 then none else
        (layout pre ++ layoutFrom (totalWidth pre + a.width) post)[pre.length - 1]?.map Prod.snd) =
        (layout pre).getLast?.map Prod.snd := by
      cases pre using List.reverseRecOn with
      | nil => rfl
      | append_singleton pre p =>
          rw [List.length_append, List.length_singleton, if_neg (by omega),
            List.getElem?_append_left (by simp), List.getLast?_eq_getElem?]
          simp
    obtain ⟨map', hloop, hrest, hin⟩ := updateSlots_spec true pre.length
      ((layout pre).getLast?.map Prod.snd) (layoutFrom (totalWidth pre + a.width) post)
      (Function.update t.map key none)
      (by simpa using (List.nodup_append.mp (by simpa using hnd')).2.1)
      (fun i k slot hi => by
        obtain ⟨old, hold⟩ := h.map_behind hi
        have hk := Assoc.mem_keys_of_mem (List.mem_of_getElem? hi)
        rw [keys_layoutFrom] at hk
        exact ⟨_, old, by rw [Function.update_of_ne (hbehind hk), hold], by simp⟩)
    rw [attributesOf_layoutFrom, nextIndex_getLast?] at hloop hin
    rw [keys_layoutFrom] at hrest
    refine ⟨⟨map', layout pre ++ layoutFrom (totalWidth pre) post⟩, ?_, ?_⟩
    · rw [if_pos hlen, hprevious, List.drop_left' (by simp), List.take_left' (by simp), hloop]
      rfl
    · refine .of_entries hnd' (by rw [layout_append]) (fun i k slot hi => ?_) fun k hk => ?_ <;>
        dsimp only
      · rw [layout_append, List.getElem?_append] at hi
        split at hi
        · rw [hrest k (hbefore hi).2, Function.update_of_ne (hbefore hi).1]
          exact h.map_before hi
        · next hi' =>
            rw [hin _ k slot hi]
            rw [length_layout] at hi' ⊢
            congr 2
            omega
      · rw [hrest k fun hpost => hk (by simp [hpost])]
        exact hout k hk

/-- **Changing the attributes of a property** in the table of a unique shape, whether the
width changes or not. -/
theorem changeAttributes (h : t.Represents ps) (hkey : ps.lookup key = some b) :
    ∃ t', t.changeAttributes { propertyKey := key, attributes := a } =
        some (t', if b.widthMatch a then .nothing
          else if a.isAccessorDescriptor then .insert else .remove) ∧
      t'.Represents (Assoc.assign ps key a) := by
  by_cases hw : b.widthMatch a
  · obtain ⟨t', hset, ht'⟩ := h.setAttributesAtIndex hkey hw
    refine ⟨t', ?_, ht'⟩
    have hmem := (Assoc.lookup_eq_some_iff_mem h.nodup).mp hkey
    obtain ⟨pre, post, rfl⟩ := List.append_of_mem hmem
    have hmap := h.map_append_cons
    simp only [PropertyTableInner.setAttributesAtIndex, hmap, Option.some.injEq] at hset
    simp only [PropertyTableInner.changeAttributes, hmap, hw, if_true, ← hset]
  · have hmem := (Assoc.lookup_eq_some_iff_mem h.nodup).mp hkey
    obtain ⟨pre, post, rfl⟩ := List.append_of_mem hmem
    have hnd := h.nodup
    have hmap := h.map_append_cons
    rw [Assoc.assign_append_cons hnd]
    have hnd' : (Assoc.keys (pre ++ (key, a) :: post)).Nodup := by simpa using hnd
    have hkeys : modifyAttributes t.keys pre.length a =
        (layout pre ++ [(key, { index := totalWidth pre, attributes := a })]) ++
          layoutFrom (totalWidth pre + b.width) post := by
      rw [modifyAttributes, h.keys_eq, layout_append_cons, List.modify_eq_set_getElem?]
      simp
    set slot' : Slot := { index := totalWidth pre, attributes := a } with hslot'
    obtain ⟨map', hloop, hrest, hin⟩ := updateSlots_spec false (pre.length + 1)
      (some slot') (layoutFrom (totalWidth pre + b.width) post)
      (Function.update t.map key (some (pre.length, slot')))
      (by simpa using (List.nodup_cons.mp (List.nodup_append.mp
        (by simpa using hnd : (Assoc.keys pre ++ key :: Assoc.keys post).Nodup)).2.1).2)
      (fun i k slot hi => by
        obtain ⟨old, hold⟩ := h.map_behind hi
        have hk := Assoc.mem_keys_of_mem (List.mem_of_getElem? hi)
        rw [keys_layoutFrom] at hk
        exact ⟨_, old, by rw [Function.update_of_ne (ne_of_behind hnd hk), hold], fun _ => rfl⟩)
    rw [attributesOf_layoutFrom] at hloop hin
    rw [keys_layoutFrom] at hrest
    have hlayout : layout (pre ++ (key, a) :: post) =
        (layout pre ++ [(key, slot')]) ++ layoutFrom (nextIndex (some slot')) post := by
      rw [layout_append_cons, List.append_assoc, List.singleton_append]
      rfl
    refine ⟨⟨map', layout (pre ++ (key, a) :: post)⟩, ?_, ?_⟩
    · simp only [PropertyTableInner.changeAttributes, hmap, hw, hkeys]
      rw [List.drop_left' (by simp), List.take_left' (by simp), ← hslot', hloop, hlayout]
      rfl
    · refine .of_entries hnd' rfl (fun i k slot hi => ?_) fun k hk => ?_ <;> dsimp only
      · rw [hlayout, List.append_assoc, List.getElem?_append] at hi
        split at hi
        · have hne := ne_of_before hnd hi
          rw [hrest k hne.2, Function.update_of_ne hne.1]
          exact h.map_before hi
        · next hi' =>
            rw [length_layout] at hi hi'
            cases hd : i - pre.length with
            | zero =>
                obtain ⟨rfl, rfl⟩ : key = k ∧ slot' = slot := by simpa [hd] using hi
                rw [hrest key fun hpost => ne_of_behind hnd hpost rfl, Function.update_self]
                congr 2
                omega
            | succ j =>
                rw [hd] at hi
                rw [hin j k slot (by simpa using hi)]
                congr 2
                omega
      · simp only [Assoc.keys_append, Assoc.keys_cons, List.mem_append, List.mem_cons,
          not_or] at hk
        rw [hrest k hk.2.2, Function.update_of_ne hk.2.1, h.map_eq_none_iff]
        simp [hk]

end Represents

end PropertyTableInner

end BoaLigero
