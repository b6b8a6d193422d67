import BoaLigero.Builtins.OrderedMap

/-!
# The Ordered Set

The table behind `Set` objects: an insertion-ordered hash set of keys and markers, locked and
compacted as the table of a `Map` object is. An item is a key with the trivial value.

## Main results

* `OrderedSet.slots_delete` — a deletion under a lock empties the slot of its value.
* `OrderedSet.present_unlock` — the last unlock keeps the present entries.
-/

namespace BoaLigero.Builtins

open Tombstone

/-- The table of a `Set` object. -/
structure OrderedSet (K : Type) where
  inner : IndexSet (MapKey K)
  /-- The lock counter, a machine word. -/
  locks : UInt32
  emptyCount : ℕ
  /-- Markers are numbered below the count. -/
  markers : ∀ n, .empty n ∈ inner.keys → n < emptyCount

namespace OrderedSet

variable {K : Type}

/-- A new table. -/
def new : OrderedSet K := ⟨.empty, 0, 0, fun _ h => nomatch h⟩

/-- Return the number of elements, including empty ones. -/
def fullLen (s : OrderedSet K) : ℕ := s.inner.entries.length

/-- Return the number of elements. -/
def len (s : OrderedSet K) : ℕ := s.inner.entries.length - s.emptyCount

/-- The item of an entry, if it is not empty. -/
def item : MapKey K × Unit → Option (K × Unit)
  | (.key k, _) => some (k, ())
  | (.empty _, _) => none

/-- Get an item by index. -/
def getIndex (s : OrderedSet K) (index : ℕ) : Option (K × Unit) :=
  s.inner.entries[index]?.bind item

/-- Removes all elements. -/
def clear (s : OrderedSet K) : OrderedSet K := ⟨.empty, s.locks, 0, fun _ h => nomatch h⟩

/-- Increases the lock counter. -/
def lock (s : OrderedSet K) : OrderedSet K := { s with locks := s.locks + 1 }

/-- Decreases the lock counter and, if 0, removes all empty entries. -/
def unlock (s : OrderedSet K) : OrderedSet K :=
  if s.locks - 1 = 0 then
    { inner := s.inner.retain fun k _ => k.isKey
      locks := s.locks - 1
      emptyCount := 0
      markers := fun n h => by
        obtain ⟨e, he, hkey⟩ := List.mem_map.mp h
        obtain ⟨-, htest⟩ := List.mem_filter.mp he
        rw [hkey] at htest
        cases htest }
  else { s with locks := s.locks - 1 }

section Updates

variable [DecidableEq K]

/-- Checks if a value is present. -/
def contains (s : OrderedSet K) (value : K) : Bool := .key value ∈ s.inner.keys

/-- Insert a value; whether it was absent is returned. -/
def add (s : OrderedSet K) (value : K) : Bool × OrderedSet K :=
  (.key value ∉ s.inner.keys,
    { s with
      inner := s.inner.insert (.key value) ()
      markers := fun n h => s.markers n
        (((s.inner.mem_keys_insert _ _ ()).mp h).resolve_left (by simp)) })

/-- Delete a value; whether it was present is returned. -/
def delete (s : OrderedSet K) (value : K) : Bool × OrderedSet K :=
  if s.locks = 0 then
    (.key value ∈ s.inner.keys,
      { s with
        inner := s.inner.erase (.key value)
        markers := fun n h => s.markers n (Assoc.mem_keys_remove.mp h).1 })
  else if .key value ∈ s.inner.keys then
    let inner := s.inner.insert (.empty s.emptyCount) ()
    (.key value ∈ inner.keys,
      { s with
        inner := inner.swapErase (.key value)
        emptyCount := s.emptyCount + 1
        markers := fun n h => by
          obtain ⟨w, hmem⟩ := Assoc.exists_of_mem_keys h
          have hkeys := Assoc.mem_keys_of_mem (Assoc.mem_of_mem_swapRemove hmem)
          rcases (s.inner.mem_keys_insert _ _ ()).mp hkeys with heq | hold
          · cases heq
            exact Nat.lt_succ_self _
          · exact Nat.lt_succ_of_lt (s.markers n hold) })
  else (false, s)

end Updates

/-! ### The readers -/

/-- A round of `SetIterator::next`. -/
def iteratorNext (s : OrderedSet K) : ℕ → LoopStep (K × Unit) := nextRound s.fullLen s.getIndex

/-- A round of `Set::for_each`. -/
def forEach (s : OrderedSet K) : ℕ → LoopStep (K × Unit) := forEachRound s.fullLen s.getIndex

/-- A round of `Set::for_each_native`. -/
def forEachNative (s : OrderedSet K) : ℕ → LoopStep (K × Unit) :=
  forEachNativeRound s.fullLen s.getIndex

/-- One round of each kind of reader of a set. -/
def round : CursorKind → OrderedSet K → ℕ → LoopStep (K × Unit)
  | .iterator => iteratorNext
  | .forEach => forEach
  | .forEachNative => forEachNative

/-! ### Slots -/

/-- The items by position. -/
def slots (s : OrderedSet K) : List (Option (K × Unit)) := s.inner.entries.map item

/-- The full length counts the slots, removed entries included. -/
theorem fullLen_eq (s : OrderedSet K) : s.fullLen = s.slots.length := by
  rw [fullLen, slots, List.length_map]

/-- An element is found at its position if its slot was not emptied. -/
theorem getIndex_eq (s : OrderedSet K) (index : ℕ) : s.getIndex index = entryAt s.slots index := by
  rw [getIndex, entryAt, slots, List.getElem?_map]
  cases s.inner.entries[index]? <;> rfl

/-- Clearing empties the storage: no slot is kept. -/
theorem slots_clear (s : OrderedSet K) : s.clear.slots = [] := rfl

/-- An item of the index set shows its element and no value. -/
theorem shows_item : Shows (item : MapKey K × Unit → Option (K × Unit)) where
  empty _ _ := rfl
  key k _ e h := by simp [item] at h; rw [← h]

/-- Unlocking counts one reader less. -/
theorem locks_unlock (s : OrderedSet K) : s.unlock.locks = s.locks - 1 := by
  rw [unlock]
  split <;> rfl

/-- Unlocking moves nothing while other readers are there. -/
theorem slots_unlock {s : OrderedSet K} (hlock : s.locks ≠ 1) : s.unlock.slots = s.slots := by
  have hne : s.locks - 1 ≠ 0 := by
    intro h
    exact hlock (by rw [← UInt32.sub_add_cancel s.locks 1, h, UInt32.zero_add])
  rw [unlock, if_neg hne]
  rfl

/-- **The last unlock takes the empty slots out.** -/
theorem present_unlock (s : OrderedSet K) : present s.unlock.slots = present s.slots := by
  rw [unlock]
  split
  · exact shows_item.present_retain s.inner.entries
  · rfl

variable [DecidableEq K]

/-- **Adding a value puts its item** in the slot it has, or in a new slot. -/
theorem slots_add (s : OrderedSet K) (k : K) : (s.add k).2.slots = put s.slots k () :=
  shows_item.map_assign (fun _ _ _ => rfl) rfl

/-- **A deletion under a lock empties the slot of its value.** -/
theorem slots_delete {s : OrderedSet K} (hlock : s.locks ≠ 0) (k : K) :
    (s.delete k).2.slots = erase s.slots k := by
  rw [delete, if_neg hlock]
  split
  · next hkey =>
    have hfresh : MapKey.empty s.emptyCount ∉ s.inner.keys := fun h =>
      Nat.lt_irrefl _ (s.markers _ h)
    exact shows_item.map_swapRemove hkey hfresh
  · next hkey => exact (shows_item.erase_of_notMem hkey).symm

/-- A deletion removes the item. -/
theorem present_delete (s : OrderedSet K) (k : K) :
    present (s.delete k).2.slots = Assoc.remove (present s.slots) k := by
  by_cases hlock : s.locks = 0
  · rw [delete, if_pos hlock]
    exact shows_item.present_remove s.inner.entries k
  · rw [slots_delete hlock, ← remaining_zero, remaining_erase, remaining_zero]

/-- Deleting does not change how many readers there are. -/
theorem locks_delete (s : OrderedSet K) (k : K) : (s.delete k).2.locks = s.locks := by
  rw [delete]
  split
  · rfl
  · split <;> rfl

/-- The set is one of the two collections that the readers are verified for. -/
instance : LawfulLockedCollection (OrderedSet K) K Unit where
  insert s k _ := (s.add k).2
  remove s k := (s.delete k).2
  clear := clear
  lock := lock
  unlock := unlock
  locks := locks
  fullLen := fullLen
  getIndex := getIndex
  round := round
  slots := slots
  slots_insert := fun s k _ => slots_add s k
  slots_remove := fun _ k h => slots_delete h k
  present_remove := present_delete
  slots_clear := slots_clear
  slots_lock := fun _ => rfl
  slots_unlock := fun _ h => slots_unlock h
  present_unlock := present_unlock
  locks_insert := fun _ _ _ => rfl
  locks_remove := locks_delete
  locks_clear := fun _ => rfl
  locks_lock := fun _ => rfl
  locks_unlock := locks_unlock
  fullLen_eq := fullLen_eq
  getIndex_eq := getIndex_eq
  round_eq := fun kind _ => by cases kind <;> rfl

end OrderedSet

end BoaLigero.Builtins
