import BoaLigero.Builtins.Collection

/-!
# Keys and Markers

The hash maps behind `Map` and `Set` objects keep the order of insertion. Their keys are the
keys of the program and markers of deleted entries: a deletion that must not move the other
entries appends a new marker and swaps it into the place of the deleted entry.

An entry shows an item when its key is one of the program.

## Main results

* `Shows.map_assign` — giving a key a value puts its item.
* `Shows.map_swapRemove` — the swap with a marker empties the slot of a key.
-/

namespace BoaLigero.Builtins

open Tombstone

/-- A hash map that keeps the order of insertion. -/
abbrev IndexMap (K V : Type) := OrderedMap K V

/-- A hash set that keeps the order of insertion. -/
abbrev IndexSet (K : Type) := IndexMap K Unit

/-- A key, or the marker of a deleted entry; markers are numbered to stay distinct. -/
inductive MapKey (K : Type)
  | key (k : K)
  | empty (n : ℕ)
deriving DecidableEq

instance {K : Type} [DecidableEq K] : LawfulBEq (MapKey K) := inferInstance

/-- Markers are taken out when the last lock is released. -/
def MapKey.isKey {K : Type} : MapKey K → Bool
  | .key _ => true
  | .empty _ => false

/-- Entries show items: markers show none, keys an item of theirs. -/
structure Shows {K V W : Type} (item : MapKey K × W → Option (K × V)) : Prop where
  empty : ∀ n w, item (.empty n, w) = none
  key : ∀ k w e, item (.key k, w) = some e → e.1 = k

namespace Shows

variable {K V W : Type} {item : MapKey K × W → Option (K × V)}

/-- A key has an entry when it is among the items, if the entries of keys show items. -/
theorem key_mem_keys_iff (h : Shows item) {l : List (MapKey K × W)}
    (hfull : ∀ k w, (.key k, w) ∈ l → (item (.key k, w)).isSome) (k : K) :
    .key k ∈ Assoc.keys l ↔ k ∈ Assoc.keys (present (l.map item)) := by
  constructor
  · intro hmem
    obtain ⟨w, hw⟩ := Assoc.exists_of_mem_keys hmem
    obtain ⟨⟨k', v⟩, hitem⟩ := Option.isSome_iff_exists.mp (hfull k w hw)
    obtain rfl : k' = k := h.key k w _ hitem
    exact Assoc.mem_keys_of_mem (List.reduceOption_mem_iff.mpr (List.mem_map.mpr ⟨_, hw, hitem⟩))
  · intro hmem
    obtain ⟨v, hv⟩ := Assoc.exists_of_mem_keys hmem
    obtain ⟨⟨k', w⟩, hw, hitem⟩ := List.mem_map.mp (List.reduceOption_mem_iff.mp hv)
    cases k' with
    | empty n => rw [h.empty] at hitem; cases hitem
    | key k' =>
        obtain rfl : k = k' := h.key k' w _ hitem
        exact Assoc.mem_keys_of_mem hw

/-- The markers do not show in the items. -/
theorem present_retain (h : Shows item) (l : List (MapKey K × W)) :
    present ((l.filter fun e => e.1.isKey).map item) = present (l.map item) := by
  rw [present_map, present_map, List.filterMap_filter]
  refine List.filterMap_congr fun e _ => ?_
  obtain ⟨k, w⟩ := e
  cases k with
  | key k => rfl
  | empty n => exact (h.empty n w).symm

variable [DecidableEq K]

/-- **Giving a key a value puts its item.** -/
theorem map_assign (h : Shows item) {l : List (MapKey K × W)}
    (hfull : ∀ k w, (.key k, w) ∈ l → (item (.key k, w)).isSome) {k : K} {v : V} {w : W}
    (hitem : item (.key k, w) = some (k, v)) :
    (Assoc.assign l (.key k) w).map item = put (l.map item) k v := by
  have hmem := h.key_mem_keys_iff hfull k
  rw [put]
  by_cases hk : k ∈ Assoc.keys (present (l.map item))
  · rw [if_pos hk, Assoc.assign, if_pos (hmem.mpr hk), List.map_map, List.map_map]
    refine List.map_congr_left fun e he => ?_
    obtain ⟨k', w'⟩ := e
    cases k' with
    | empty n => simp [h.empty]
    | key k' =>
        obtain ⟨⟨k'', v'⟩, hitem'⟩ := Option.isSome_iff_exists.mp (hfull k' w' he)
        obtain rfl : k'' = k' := h.key k' w' _ hitem'
        by_cases heq : k'' = k
        · subst heq
          simp [hitem, hitem']
        · simp [heq, hitem']
  · rw [if_neg hk, Assoc.assign_of_notMem fun hk' => hk (hmem.mp hk'), List.map_append,
      List.map_singleton, hitem]

/-- Erasing a key keeps the items of the other entries. -/
theorem erase_map (h : Shows item) (l : List (MapKey K × W)) (k : K) :
    erase (l.map item) k = l.map fun e => if e.1 = .key k then none else item e := by
  rw [erase, List.map_map]
  refine List.map_congr_left fun e _ => ?_
  obtain ⟨k', w⟩ := e
  cases k' with
  | empty n => simp [h.empty]
  | key k' =>
      cases hitem : item (.key k', w) with
      | none => simp [hitem]
      | some e =>
          have he : e.1 = k' := h.key k' w e hitem
          by_cases heq : k' = k
          · subst heq
            simp [hitem, Option.filter, he]
          · simp [hitem, Option.filter, he, heq]

/-- **The swap with a new marker empties the slot of a key.** -/
theorem map_swapRemove (h : Shows item) {l : List (MapKey K × W)} {k : K} {n : ℕ} {w : W}
    (hkey : .key k ∈ Assoc.keys l) (hfresh : .empty n ∉ Assoc.keys l) :
    (Assoc.swapRemove (Assoc.assign l (.empty n) w) (.key k)).map item
      = erase (l.map item) k := by
  rw [Assoc.assign_of_notMem hfresh, Assoc.swapRemove_concat hkey (by simp), List.map_map,
    h.erase_map]
  refine List.map_congr_left fun e _ => ?_
  by_cases he : e.1 = .key k <;> simp [he, h.empty]

/-- A key without an entry has no slot. -/
theorem erase_of_notMem (h : Shows item) {l : List (MapKey K × W)} {k : K}
    (hkey : .key k ∉ Assoc.keys l) : erase (l.map item) k = l.map item := by
  rw [h.erase_map]
  refine List.map_congr_left fun e he => ?_
  have hne : e.1 ≠ .key k := fun heq => hkey (heq ▸ List.mem_map_of_mem (f := Prod.fst) he)
  rw [if_neg hne]

/-- Removing an entry removes its item. -/
theorem present_remove (h : Shows item) (l : List (MapKey K × W)) (k : K) :
    present ((Assoc.remove l (.key k)).map item) = Assoc.remove (present (l.map item)) k := by
  rw [← remaining_zero (l.map item), ← remaining_erase, remaining_zero, h.erase_map,
    present_map, present_map, Assoc.remove, List.filterMap_filter]
  refine List.filterMap_congr fun e _ => ?_
  by_cases he : e.1 = .key k <;> simp [he]

end Shows

end BoaLigero.Builtins
