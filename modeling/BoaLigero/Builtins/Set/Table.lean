import BoaLigero.Builtins.OrderedSet

/-!
# Tables of Elements

What the methods of `Set` objects read and change is a table: elements at positions, some of
the positions empty. `SetTable` is the table of the source, an `OrderedSet` whose counter of
empty entries is right; `EntryList` is the list of the language standard, in which a deletion
leaves an empty entry. The laws say what the two have in common. They differ in the positions:
an unlocked `SetTable` closes the gap of a deleted element.

A reader that stands at a position has the elements behind it to come. `SetOp.onQueue` says
what an operation does to these elements if the reader keeps its place.

## Main results

* `elements_perform` — operations change the elements of every table alike.
* `SetTable.keepsPlace_iff` — when a reader of the source's table keeps its place.
* `EntryList.behind_perform` — a reader of the standard's list always does.
-/

namespace BoaLigero.Builtins.SetObject

open Tombstone

/-- An operation on a set. -/
inductive SetOp (K : Type)
  | add (k : K)
  | delete (k : K)
  | clear
deriving DecidableEq

/-- A table of elements at positions. -/
class SetData (D : Type) (K : outParam Type) where
  new : D
  /-- The number of positions. -/
  fullLen : D → ℕ
  /-- The number of elements. -/
  len : D → ℕ
  getIndex : D → ℕ → Option K
  contains : D → K → Bool
  add : D → K → D
  delete : D → K → D
  clear : D → D
  /-- The positions, with the empty ones. -/
  slots : D → List (Option K)

/-- The elements, in order. -/
def elements {D K : Type} [SetData D K] (d : D) : List K := present (SetData.slots d)

/-- The elements from a position on. -/
def behind {D K : Type} [SetData D K] (d : D) (i : ℕ) : List K := remaining (SetData.slots d) i

namespace SetOp

variable {K : Type} [DecidableEq K]

/-- What an operation does to the elements. -/
def onElements (l : List K) : SetOp K → List K
  | add k => if k ∈ l then l else l ++ [k]
  | delete k => l.filter (· ≠ k)
  | clear => []

/-- What an operation does to the elements a reader has to come, among all elements. -/
def onQueue (l queue : List K) : SetOp K → List K
  | add k => if k ∈ l then queue else queue ++ [k]
  | delete k => queue.filter (· ≠ k)
  | clear => []

/-- What operations do to the elements a reader has to come. -/
def queueAfter : List K → List K → List (SetOp K) → List K
  | _, queue, [] => queue
  | l, queue, op :: ops => queueAfter (op.onElements l) (op.onQueue l queue) ops

variable {D : Type} [SetData D K]

/-- Perform an operation. -/
def apply (d : D) : SetOp K → D
  | add k => SetData.add d k
  | delete k => SetData.delete d k
  | clear => SetData.clear d

/-- Perform operations in order. -/
def perform (d : D) (ops : List (SetOp K)) : D := ops.foldl apply d

end SetOp

open SetOp

/-- The laws of tables. -/
class LawfulSetData (D : Type) (K : outParam Type) [DecidableEq K] extends SetData D K where
  fullLen_eq : ∀ d, fullLen d = (slots d).length
  len_eq : ∀ d, len d = (present (slots d)).length
  getIndex_eq : ∀ d i, getIndex d i = (slots d)[i]?.join
  contains_iff : ∀ d k, contains d k = true ↔ k ∈ present (slots d)
  slots_new : slots new = []
  slots_add : ∀ d k,
    slots (add d k) = if k ∈ present (slots d) then slots d else slots d ++ [some k]
  present_delete : ∀ d k, present (slots (delete d k)) = (present (slots d)).filter (· ≠ k)
  present_clear : ∀ d, present (slots (clear d)) = []

section Laws

variable {D K : Type} [DecidableEq K] [LawfulSetData D K]

/-- A new table has no elements. -/
theorem elements_new : elements (SetData.new : D) = [] := by
  rw [elements, LawfulSetData.slots_new, present, List.reduceOption_nil]

/-- An element that is added comes last, unless it is there. -/
theorem elements_add (d : D) (k : K) :
    elements (SetData.add d k) = if k ∈ elements d then elements d else elements d ++ [k] := by
  rw [elements, LawfulSetData.slots_add, elements]
  split
  · rfl
  · rw [present, List.reduceOption_append, List.reduceOption_singleton, Option.toList_some]

/-- A deleted element is gone, and the others keep their order. -/
theorem elements_delete (d : D) (k : K) :
    elements (SetData.delete d k) = (elements d).filter (· ≠ k) := LawfulSetData.present_delete d k

/-- After an addition there are the elements of before and the new one. -/
theorem mem_elements_add {d : D} {k x : K} :
    x ∈ elements (SetData.add d k) ↔ x ∈ elements d ∨ x = k := by
  rw [elements_add]
  split
  · next hk =>
    constructor
    · exact .inl
    · rintro (hx | rfl)
      · exact hx
      · exact hk
  · rw [List.mem_append, List.mem_singleton]

/-- After a deletion there are the other elements. -/
theorem mem_elements_delete {d : D} {k x : K} :
    x ∈ elements (SetData.delete d k) ↔ x ∈ elements d ∧ x ≠ k := by
  rw [elements_delete, List.mem_filter, decide_eq_true_iff]

/-- An operation changes the elements of every table in the same way. -/
theorem elements_apply (d : D) (op : SetOp K) :
    elements (apply d op) = op.onElements (elements d) := by
  cases op with
  | add k => exact elements_add d k
  | delete k => exact elements_delete d k
  | clear => exact LawfulSetData.present_clear d

/-- **Operations change the elements of every table alike.** -/
theorem elements_perform (d : D) (ops : List (SetOp K)) :
    elements (perform d ops) = ops.foldl onElements (elements d) := by
  induction ops generalizing d with
  | nil => rfl
  | cons op ops ih => rw [perform, List.foldl_cons, List.foldl_cons, ← elements_apply, ← ih]; rfl

/-- Everything is behind the beginning. -/
theorem behind_zero (d : D) : behind d 0 = elements d := remaining_zero _

/-- The size of a table is the number of its elements. -/
theorem len_eq_length (d : D) : SetData.len d = (elements d).length := LawfulSetData.len_eq d

/-- A table contains its elements. -/
theorem contains_eq (d : D) (k : K) : SetData.contains d k = decide (k ∈ elements d) := by
  rw [← Bool.coe_iff_coe, LawfulSetData.contains_iff, decide_eq_true_iff, elements]

/-- An element at a position is the first to come. -/
theorem behind_of_some {d : D} {i : ℕ} {k : K} (h : SetData.getIndex d i = some k) :
    behind d i = k :: behind d (i + 1) := by
  rw [LawfulSetData.getIndex_eq, Option.join_eq_some_iff] at h
  exact remaining_of_some h

/-- Nothing comes from an empty position, nor from one past the end. -/
theorem behind_of_none {d : D} {i : ℕ} (h : SetData.getIndex d i = none) :
    behind d i = behind d (i + 1) :=
  remaining_of_join (by rw [← LawfulSetData.getIndex_eq, h])

/-- Nothing is behind the end. -/
theorem behind_of_fullLen_le {d : D} {i : ℕ} (h : SetData.fullLen d ≤ i) : behind d i = [] :=
  remaining_of_length_le (by rwa [← LawfulSetData.fullLen_eq])

/-- An element sits at a position of the table. -/
theorem lt_fullLen_of_some {d : D} {i : ℕ} {k : K} (h : SetData.getIndex d i = some k) :
    i < SetData.fullLen d := by
  by_contra hle
  have hnil := behind_of_fullLen_le (Nat.le_of_not_lt hle)
  rw [behind_of_some h] at hnil
  cases hnil

/-- Adding an element lets a reader keep its place, up to the end of the table. -/
theorem behind_add {d : D} {i : ℕ} {k : K} (h : k ∈ elements d ∨ i ≤ SetData.fullLen d) :
    behind (SetData.add d k) i = onQueue (elements d) (behind d i) (.add k) := by
  rw [behind, LawfulSetData.slots_add, onQueue, elements]
  by_cases hk : k ∈ present (SetData.slots d)
  · rw [if_pos hk, if_pos hk, behind]
  · have hi := h.resolve_left hk
    rw [LawfulSetData.fullLen_eq] at hi
    rw [if_neg hk, if_neg hk, remaining_concat hi, behind]

end Laws

/-! ### The list of the language standard -/

/-- The list of entries of a set, in which a deletion leaves an empty entry. -/
structure EntryList (K : Type) where
  entries : List (Option K)
deriving DecidableEq

namespace EntryList

variable {K : Type} [DecidableEq K]

/-- The list of the standard obeys the laws: its elements are where they were put. -/
instance : LawfulSetData (EntryList K) K where
  new := ⟨[]⟩
  fullLen d := d.entries.length
  len d := (present d.entries).length
  getIndex d i := d.entries[i]?.join
  contains d k := k ∈ present d.entries
  add d k := if k ∈ present d.entries then d else ⟨d.entries ++ [some k]⟩
  delete d k := ⟨d.entries.map (Option.filter (· ≠ k))⟩
  clear d := ⟨d.entries.map fun _ => none⟩
  slots := entries
  fullLen_eq _ := rfl
  len_eq _ := rfl
  getIndex_eq _ _ := rfl
  contains_iff _ _ := decide_eq_true_iff
  slots_new := rfl
  slots_add _ _ := apply_ite entries _ _ _
  present_delete d k := by
    rw [← remaining_zero, remaining_mapFilter, remaining_zero]
  present_clear d := by rw [← remaining_zero, remaining_mapNone]

/-- A deletion filters what a reader has to come. -/
theorem behind_delete (d : EntryList K) (k : K) (i : ℕ) :
    behind (SetData.delete d k) i = (behind d i).filter (· ≠ k) :=
  remaining_mapFilter _ d.entries i

/-- Operations keep the positions. -/
theorem fullLen_le_apply (d : EntryList K) (op : SetOp K) :
    SetData.fullLen d ≤ SetData.fullLen (apply d op) := by
  cases op with
  | add k =>
      change d.entries.length ≤ (SetData.slots (SetData.add d k)).length
      rw [LawfulSetData.slots_add]
      split
      · exact Nat.le_refl _
      · rw [List.length_append]
        exact Nat.le_add_right _ _
  | delete k => exact Nat.le_of_eq (List.length_map _).symm
  | clear => exact Nat.le_of_eq (List.length_map _).symm

/-- An operation changes what is behind a position of the list as it changes the elements. -/
theorem behind_apply {d : EntryList K} {i : ℕ} (hi : i ≤ SetData.fullLen d) (op : SetOp K) :
    behind (apply d op) i = op.onQueue (elements d) (behind d i) := by
  cases op with
  | add k => exact behind_add (.inr hi)
  | delete k => exact behind_delete d k i
  | clear => exact remaining_mapNone d.entries i

/-- **A reader of the standard's list keeps its place.** -/
theorem behind_perform {d : EntryList K} {i : ℕ} (hi : i ≤ SetData.fullLen d)
    (ops : List (SetOp K)) :
    behind (perform d ops) i = queueAfter (elements d) (behind d i) ops := by
  induction ops generalizing d with
  | nil => rfl
  | cons op ops ih =>
      rw [queueAfter, ← behind_apply hi, ← elements_apply]
      exact ih (Nat.le_trans hi (fullLen_le_apply d op))

end EntryList

/-! ### The table of the source -/

/-- The table of a `Set` object; its counter of empty entries is right. -/
structure SetTable (K : Type) where
  table : OrderedSet K
  counted : table.emptyCount = table.slots.countP Option.isNone

namespace SetTable

variable {K : Type}

/-- The lock counter. -/
def locks (s : SetTable K) : UInt32 := s.table.locks

/-- The empty table. -/
def new : SetTable K := ⟨.new, rfl⟩

/-- The elements by position. -/
def slots (s : SetTable K) : List (Option K) := s.table.slots.map (Option.map Prod.fst)

/-- The present slots are the keys of the present entries. -/
theorem present_slots (s : SetTable K) :
    present s.slots = Assoc.keys (present s.table.slots) := List.reduceOption_map

/-- The elements by position, through the keys. -/
theorem slots_eq_keys (s : SetTable K) :
    s.slots = s.table.inner.keys.map fun | .key k => some k | .empty _ => none := by
  rw [slots, OrderedSet.slots, OrderedMap.keys, Assoc.keys, List.map_map, List.map_map]
  refine List.map_congr_left fun e _ => ?_
  obtain ⟨k, w⟩ := e
  cases k <;> rfl

/-- An element sits at one position. -/
theorem slot_unique {s : SetTable K} {k : K} {i j : ℕ} (hi : s.slots[i]? = some (some k))
    (hj : s.slots[j]? = some (some k)) : i = j := by
  have hkeys : ∀ {n : ℕ}, s.slots[n]? = some (some k) →
      s.table.inner.keys[n]? = some (MapKey.key k) := by
    intro n hn
    rw [slots_eq_keys, List.getElem?_map, Option.map_eq_some_iff] at hn
    obtain ⟨key, hkey, hvalue⟩ := hn
    cases key with
    | empty m => cases hvalue
    | key k' =>
        obtain rfl : k' = k := by simpa using hvalue
        exact hkey
  obtain ⟨hlt, -⟩ := List.getElem?_eq_some_iff.mp (hkeys hi)
  exact (List.getElem?_inj hlt s.table.inner.nodup).mp ((hkeys hi).trans (hkeys hj).symm)

/-- Removes all elements. -/
def clear (s : SetTable K) : SetTable K := ⟨s.table.clear, rfl⟩

/-- A table has the keys of its present slots. -/
theorem mem_keys_iff (t : OrderedSet K) (k : K) :
    .key k ∈ t.inner.keys ↔ k ∈ Assoc.keys (present t.slots) :=
  OrderedSet.shows_item.key_mem_keys_iff (fun _ _ _ => rfl) k

/-- The empty slots and the elements fill the table. -/
theorem countP_isNone_add_length (l : List (Option (K × Unit))) :
    l.countP Option.isNone + (present l).length = l.length := by
  rw [List.countP_eq_length_filter, Nat.add_comm,
    ← List.length_eq_reduceOption_length_add_filter_none]

/-- No element is in two slots. -/
theorem nodup_elements (t : OrderedSet K) : (Assoc.keys (present t.slots)).Nodup := by
  have hkeys : Assoc.keys (present t.slots)
      = t.inner.keys.filterMap fun | .key k => some k | .empty _ => none := by
    rw [OrderedSet.slots, present_map, OrderedMap.keys, Assoc.keys, Assoc.keys, List.filterMap_map,
      List.map_filterMap]
    refine List.filterMap_congr fun e _ => ?_
    obtain ⟨k, w⟩ := e
    cases k <;> rfl
  rw [hkeys]
  refine t.inner.nodup.filterMap fun a b c ha hb => ?_
  cases a with
  | empty n => cases ha
  | key a =>
      cases b with
      | empty n => cases hb
      | key b =>
          obtain rfl : a = c := by simpa using ha
          obtain rfl : b = a := by simpa using hb
          rfl

variable [DecidableEq K]

/-- Adding an element does not change the number of empty slots. -/
theorem countP_isNone_add (t : OrderedSet K) (k : K) :
    (t.add k).2.slots.countP Option.isNone = t.slots.countP Option.isNone := by
  rw [OrderedSet.slots_add, put]
  split
  · rw [List.countP_map]
    exact List.countP_congr fun slot _ => by cases slot <;> simp
  · rw [List.countP_append]
    rfl

/-- Insert a value. -/
def add (s : SetTable K) (value : K) : SetTable K :=
  ⟨(s.table.add value).2, by rw [countP_isNone_add, ← s.counted]; rfl⟩

/-- An unlocked deletion takes no empty slot out. -/
theorem countP_isNone_erase (t : OrderedSet K) (k : K) :
    ((t.inner.erase (.key k)).entries.map OrderedSet.item).countP Option.isNone
      = t.slots.countP Option.isNone := by
  rw [OrderedMap.entries_erase, Assoc.remove, OrderedSet.slots, List.countP_map, List.countP_map,
    List.countP_filter]
  refine List.countP_congr fun e _ => ?_
  obtain ⟨k', w⟩ := e
  cases k' <;> simp [OrderedSet.item]

/-- A locked deletion empties one slot. -/
theorem countP_isNone_eraseSlot {t : OrderedSet K} {k : K} (hk : k ∈ Assoc.keys (present t.slots)) :
    (erase t.slots k).countP Option.isNone = t.slots.countP Option.isNone + 1 := by
  have hbefore := countP_isNone_add_length t.slots
  have hafter := countP_isNone_add_length (erase t.slots k)
  rw [length_erase] at hafter
  have hpresent : (present (erase t.slots k)).length + 1 = (present t.slots).length := by
    rw [← remaining_zero (erase t.slots k), remaining_erase, remaining_zero, ← Assoc.length_keys,
      ← Assoc.length_keys (present t.slots), Assoc.keys_remove,
      ← List.length_erase_add_one hk, (nodup_elements t).erase_eq_filter]
    have htest : ∀ a, decide (a ≠ k) = (a != k) := fun a => by by_cases ha : a = k <;> simp [ha]
    simp only [htest]
  omega

/-- After a deletion the counter of empty slots is right. -/
theorem counted_delete (s : SetTable K) (k : K) :
    (s.table.delete k).2.emptyCount = (s.table.delete k).2.slots.countP Option.isNone := by
  by_cases hlock : s.table.locks = 0
  · rw [OrderedSet.delete, if_pos hlock]
    exact s.counted.trans (countP_isNone_erase s.table k).symm
  · rw [OrderedSet.slots_delete hlock, OrderedSet.delete, if_neg hlock]
    by_cases hk : MapKey.key k ∈ s.table.inner.keys
    · rw [if_pos hk, countP_isNone_eraseSlot ((mem_keys_iff s.table k).mp hk), ← s.counted]
    · rw [if_neg hk, OrderedSet.slots, OrderedSet.shows_item.erase_of_notMem hk]
      exact s.counted

/-- Delete a value. -/
def delete (s : SetTable K) (value : K) : SetTable K :=
  ⟨(s.table.delete value).2, counted_delete s value⟩

/-- The table of the source obeys the laws: an unlocked deletion closes the gap, a locked one does
not. -/
instance : LawfulSetData (SetTable K) K where
  new := new
  fullLen s := s.table.fullLen
  len s := s.table.len
  getIndex s i := (s.table.getIndex i).map Prod.fst
  contains s k := s.table.contains k
  add := add
  delete := delete
  clear := clear
  slots := slots
  fullLen_eq s := by rw [OrderedSet.fullLen_eq, slots, List.length_map]
  len_eq s := by
    have hfull := countP_isNone_add_length s.table.slots
    rw [← OrderedSet.fullLen_eq, ← s.counted] at hfull
    rw [present_slots, Assoc.length_keys, OrderedSet.len, ← OrderedSet.fullLen, ← hfull,
      Nat.add_sub_cancel_left]
  getIndex_eq s i := by
    rw [OrderedSet.getIndex_eq, entryAt, slots, List.getElem?_map]
    cases s.table.slots[i]? with
    | none => rfl
    | some slot => rfl
  contains_iff s k := by
    rw [present_slots, ← mem_keys_iff, OrderedSet.contains, decide_eq_true_iff]
  slots_new := rfl
  slots_add s k := by
    rw [present_slots, slots, add, OrderedSet.slots_add, put]
    split
    · rw [List.map_map, slots]
      refine List.map_congr_left fun slot _ => ?_
      cases slot with
      | none => rfl
      | some e => by_cases he : e.1 = k <;> simp [he]
    · rw [List.map_append, slots]
      rfl
  present_delete s k := by
    rw [present_slots, present_slots, delete, OrderedSet.present_delete, Assoc.keys_remove]
  present_clear _ := rfl

/-! ### Keeping the place -/

/-- No element occurs twice. -/
theorem nodup (s : SetTable K) : (elements s).Nodup := by
  change (present s.slots).Nodup
  rw [present_slots]
  exact nodup_elements s.table

/-- A deletion under a lock empties a slot. -/
theorem slots_delete_of_locked {s : SetTable K} (hlock : s.locks ≠ 0) (k : K) :
    (s.delete k).slots = s.slots.map (Option.filter (· ≠ k)) := by
  rw [slots, delete, OrderedSet.slots_delete hlock, erase, slots, List.map_map, List.map_map]
  refine List.map_congr_left fun slot _ => ?_
  cases slot with
  | none => rfl
  | some e => by_cases he : e.1 = k <;> simp [Option.filter, he]

/-- A deletion without a lock takes a slot out. -/
theorem slots_delete_of_unlocked {s : SetTable K} (hlock : s.locks = 0) (k : K) :
    (s.delete k).slots = s.slots.filter (· ≠ some k) := by
  have hkeys : (s.delete k).table.inner.keys
      = s.table.inner.keys.filter fun key => key ≠ .key k := by
    have htable : s.table.locks = 0 := hlock
    change (s.table.delete k).2.inner.keys = _
    rw [OrderedSet.delete, if_pos htable]
    exact s.table.inner.keys_erase (.key k)
  rw [slots_eq_keys, slots_eq_keys, hkeys, List.filter_map]
  refine congrArg _ (List.filter_congr fun key _ => ?_)
  cases key <;> simp

/-- **When a reader at a position keeps its place through an operation.** An added element must
not fall in front of the reader. An element that leaves without a lock must not leave a position
that the reader has passed, unless nothing stands at the position of the reader. -/
def KeepsPlace (s : SetTable K) (i : ℕ) : SetOp K → Prop
  | .add k => SetData.contains s k = true ∨ i ≤ SetData.fullLen s
  | .delete k => s.locks ≠ 0 ∨ (∀ j < i, SetData.getIndex s j ≠ some k) ∨
      SetData.getIndex s i = none
  | .clear => True

/-- Under a lock a deletion takes just its element from what is behind a position. -/
theorem behind_delete_of_locked {s : SetTable K} (hlock : s.locks ≠ 0) (k : K) (i : ℕ) :
    behind (SetData.delete s k) i = (behind s i).filter (· ≠ k) := by
  change remaining (s.delete k).slots i = (remaining s.slots i).filter (· ≠ k)
  rw [slots_delete_of_locked hlock, remaining_mapFilter]

/-- A deletion at or behind a position takes just its element from what is behind it. -/
theorem behind_delete_of_behind {s : SetTable K} {k : K} {i : ℕ}
    (h : ∀ j < i, SetData.getIndex s j ≠ some k) :
    behind (SetData.delete s k) i = (behind s i).filter (· ≠ k) := by
  by_cases hlock : s.locks = 0
  · change remaining (s.delete k).slots i = (remaining s.slots i).filter (· ≠ k)
    rw [slots_delete_of_unlocked hlock]
    refine remaining_takeOut fun j hj hslot => h j hj ?_
    rw [LawfulSetData.getIndex_eq]
    exact congrArg Option.join hslot
  · exact behind_delete_of_locked hlock k i

/-- An element that leaves a passed position lets the others move up. -/
theorem behind_delete_of_passed {s : SetTable K} {k : K} {i j : ℕ} (hlock : s.locks = 0)
    (hlt : j < i) (hj : SetData.getIndex s j = some k) :
    behind (SetData.delete s k) i = behind s (i + 1) := by
  rw [LawfulSetData.getIndex_eq, Option.join_eq_some_iff] at hj
  change remaining (s.delete k).slots i = remaining s.slots (i + 1)
  rw [slots_delete_of_unlocked hlock]
  exact remaining_takeOut_of_lt hj hlt fun n hn => slot_unique hn hj

/-- A passed element is not among those to come. -/
theorem notMem_behind_of_passed {s : SetTable K} {k : K} {i j : ℕ} (hlt : j < i)
    (hj : SetData.getIndex s j = some k) : k ∉ behind s i := by
  intro hmem
  rw [LawfulSetData.getIndex_eq, Option.join_eq_some_iff] at hj
  obtain ⟨n, hn⟩ := List.mem_iff_getElem?.mp (List.reduceOption_mem_iff.mp hmem)
  rw [List.getElem?_drop] at hn
  have heq : j = i + n := slot_unique hj hn
  omega

/-- **A reader keeps its place exactly when what is behind it changes as the operation says.** -/
theorem keepsPlace_iff (s : SetTable K) (i : ℕ) (op : SetOp K) :
    KeepsPlace s i op ↔ behind (apply s op) i = op.onQueue (elements s) (behind s i) := by
  cases op with
  | add k =>
      rw [KeepsPlace, LawfulSetData.contains_iff]
      constructor
      · exact behind_add
      · intro h
        by_contra hnot
        obtain ⟨hk, hi⟩ := not_or.mp hnot
        have hlong : SetData.fullLen (SetData.add s k) ≤ i := by
          rw [LawfulSetData.fullLen_eq, LawfulSetData.slots_add, if_neg hk, List.length_append,
            ← LawfulSetData.fullLen_eq, List.length_singleton]
          omega
        rw [apply, behind_of_fullLen_le hlong, onQueue, elements, if_neg hk] at h
        simp at h
  | delete k =>
      rw [KeepsPlace, apply, onQueue]
      by_cases hlock : s.locks = 0
      · by_cases hpassed : ∀ j < i, SetData.getIndex s j ≠ some k
        · exact ⟨fun _ => behind_delete_of_behind hpassed, fun _ => .inr (.inl hpassed)⟩
        · have hfound : ∃ j < i, SetData.getIndex s j = some k := by simpa using hpassed
          obtain ⟨j, hlt, hj⟩ := hfound
          have hqueue : (behind s i).filter (· ≠ k) = behind s i :=
            List.filter_eq_self.mpr fun a ha => decide_eq_true fun heq =>
              notMem_behind_of_passed hlt hj (heq ▸ ha)
          rw [behind_delete_of_passed hlock hlt hj, hqueue]
          constructor
          · intro h
            have hnone := (h.resolve_left (not_not_intro hlock)).resolve_left hpassed
            exact (behind_of_none hnone).symm
          · intro hsame
            refine .inr (.inr ?_)
            cases hi : SetData.getIndex s i with
            | none => rfl
            | some a =>
                rw [behind_of_some hi] at hsame
                exact absurd hsame.symm (List.cons_ne_self a _)
      · exact ⟨fun _ => behind_delete_of_locked hlock k i, fun _ => .inl hlock⟩
  | clear => exact ⟨fun _ => remaining_of_length_le (Nat.zero_le _), fun _ => trivial⟩

/-- A reader keeps its place through operations. -/
def KeepsPlaceAll (i : ℕ) : SetTable K → List (SetOp K) → Prop
  | _, [] => True
  | s, op :: ops => KeepsPlace s i op ∧ KeepsPlaceAll i (apply s op) ops

/-- If a reader keeps its place through operations, they change what is behind it as they do the
elements. -/
theorem behind_perform {s : SetTable K} {i : ℕ} {ops : List (SetOp K)}
    (h : KeepsPlaceAll i s ops) :
    behind (perform s ops) i = queueAfter (elements s) (behind s i) ops := by
  induction ops generalizing s with
  | nil => rfl
  | cons op ops ih =>
      rw [queueAfter, ← (keepsPlace_iff s i op).mp h.1, ← elements_apply]
      exact ih h.2

end SetTable

end BoaLigero.Builtins.SetObject
