import BoaLigero.Builtins.MapKey

/-!
# The Ordered Map

The table behind `Map` objects: an insertion-ordered hash map whose keys are the keys of the
program and markers for entries that were deleted while the map was locked. A deletion under
a lock puts a marker in the place of the entry, and the last unlock takes the markers out.

## Main results

* `OrderedMap.slots_remove` — a deletion under a lock empties the slot of its key.
* `OrderedMap.present_unlock` — the last unlock keeps the present entries.
-/

namespace BoaLigero.Builtins

open Tombstone

/-- An entry is a key with a value or a marker without one; markers are numbered below the
count. -/
def IsEntry {K V : Type} (emptyCount : ℕ) : MapKey K × Option V → Prop
  | (.key _, some _) => True
  | (.empty n, none) => n < emptyCount
  | _ => False

/-- The table of a `Map` object. -/
structure OrderedMap (K V : Type) where
  map : IndexMap (MapKey K) (Option V)
  /-- The lock counter, a machine word. -/
  locks : UInt32
  emptyCount : ℕ
  /-- Every entry is one of the two kinds. -/
  entries : ∀ e ∈ map.entries, IsEntry emptyCount e

namespace OrderedMap

variable {K V : Type}

/-- A new table. -/
def new : OrderedMap K V := ⟨.empty, 0, 0, fun _ he => nomatch he⟩

/-- Return the number of entries, including empty ones. -/
def fullLen (m : OrderedMap K V) : ℕ := m.map.entries.length

/-- The item of an entry, if it is not empty. -/
def item : MapKey K × Option V → Option (K × V)
  | (.key k, some v) => some (k, v)
  | _ => none

/-- Get an item by index. -/
def getIndex (m : OrderedMap K V) (index : ℕ) : Option (K × V) :=
  m.map.entries[index]?.bind item

/-- Removes all entries and resets the counter of empty entries. -/
def clear (m : OrderedMap K V) : OrderedMap K V :=
  ⟨.empty, m.locks, 0, fun _ he => nomatch he⟩

/-- Increases the lock counter. -/
def lock (m : OrderedMap K V) : OrderedMap K V := { m with locks := m.locks + 1 }

/-- Decreases the lock counter and, if 0, removes all empty entries. -/
def unlock (m : OrderedMap K V) : OrderedMap K V :=
  if h : m.locks - 1 = 0 then
    { map := m.map.retain fun k _ => k.isKey
      locks := m.locks - 1
      emptyCount := 0
      entries := fun e he => by
        obtain ⟨hmem, hkey⟩ := List.mem_filter.mp he
        have hold := m.entries e hmem
        obtain ⟨k, v⟩ := e
        cases k <;> cases v <;> simp_all [IsEntry, MapKey.isKey] }
  else { m with locks := m.locks - 1 }

section Updates

variable [DecidableEq K]

/-- An assignment of an entry leaves entries only. -/
theorem entries_assign {m : OrderedMap K V} {k : MapKey K} {v : Option V} {n : ℕ}
    (hn : m.emptyCount ≤ n) (hnew : IsEntry n (k, v)) :
    ∀ e ∈ Assoc.assign m.map.entries k v, IsEntry n e := by
  intro e he
  rcases Assoc.mem_assign he with rfl | hmem
  · exact hnew
  · have hold := m.entries e hmem
    obtain ⟨k', v'⟩ := e
    cases k' <;> cases v' <;> simp only [IsEntry] at hold ⊢
    omega

/-- Insert an item; the value the key had is returned. -/
def insert (m : OrderedMap K V) (key : K) (value : V) : Option V × OrderedMap K V :=
  ((m.map.get? (.key key)).join,
    { m with
      map := m.map.insert (.key key) (some value)
      entries := entries_assign (Nat.le_refl _) trivial })

/-- Remove the item of a key; its value is returned. -/
def remove (m : OrderedMap K V) (key : K) : Option V × OrderedMap K V :=
  if m.locks = 0 then
    ((m.map.get? (.key key)).join,
      { m with
        map := m.map.erase (.key key)
        entries := fun e he => m.entries e (List.mem_of_mem_filter he) })
  else if .key key ∈ m.map.keys then
    let map := m.map.insert (.empty m.emptyCount) none
    ((map.get? (.key key)).join,
      { m with
        map := map.swapErase (.key key)
        emptyCount := m.emptyCount + 1
        entries := fun e he =>
          entries_assign (Nat.le_succ _) (Nat.lt_succ_self _) e (Assoc.mem_of_mem_swapRemove he) })
  else (none, m)

end Updates

/-! ### The readers -/

/-- A round of `MapIterator::next`. -/
def iteratorNext (m : OrderedMap K V) : ℕ → LoopStep (K × V) := nextRound m.fullLen m.getIndex

/-- A round of `Map::for_each`. -/
def forEach (m : OrderedMap K V) : ℕ → LoopStep (K × V) := forEachRound m.fullLen m.getIndex

/-- A round of `Map::for_each_native`. -/
def forEachNative (m : OrderedMap K V) : ℕ → LoopStep (K × V) :=
  forEachNativeRound m.fullLen m.getIndex

/-- A round of each kind of reader. -/
def round : CursorKind → OrderedMap K V → ℕ → LoopStep (K × V)
  | .iterator => iteratorNext
  | .forEach => forEach
  | .forEachNative => forEachNative

/-! ### Slots -/

/-- The items by position. -/
def slots (m : OrderedMap K V) : List (Option (K × V)) := m.map.entries.map item

/-- The full length counts the empty slots, too. -/
theorem fullLen_eq (m : OrderedMap K V) : m.fullLen = m.slots.length := by
  rw [fullLen, slots, List.length_map]

/-- What is read at an index is the entry of the slot, if it is not empty. -/
theorem getIndex_eq (m : OrderedMap K V) (index : ℕ) : m.getIndex index = entryAt m.slots index := by
  rw [getIndex, entryAt, slots, List.getElem?_map]
  cases m.map.entries[index]? <;> rfl

/-- A cleared map has no slots. -/
theorem slots_clear (m : OrderedMap K V) : m.clear.slots = [] := rfl

/-- What an entry shows is its key with its value, if the key is one of the program. -/
theorem shows_item : Shows (item : MapKey K × Option V → Option (K × V)) where
  empty _ _ := rfl
  key k v e h := by cases v <;> simp [item] at h; rw [← h]

/-- An entry with a key of the program shows something. -/
theorem isSome_item (m : OrderedMap K V) (k : K) (v : Option V)
    (h : (.key k, v) ∈ m.map.entries) : (item (.key k, v)).isSome := by
  have hentry := m.entries _ h
  cases v with
  | none => exact absurd hentry id
  | some v => rfl

variable [DecidableEq K]

/-- **Insertion puts the item** in the slot of its key, or in a new slot. -/
theorem slots_insert (m : OrderedMap K V) (k : K) (v : V) :
    (m.insert k v).2.slots = put m.slots k v :=
  shows_item.map_assign m.isSome_item rfl

/-- **A deletion under a lock empties the slot of its key.** -/
theorem slots_remove {m : OrderedMap K V} (hlock : m.locks ≠ 0) (k : K) :
    (m.remove k).2.slots = erase m.slots k := by
  rw [remove, if_neg hlock]
  split
  · next hkey =>
    have hfresh : MapKey.empty m.emptyCount ∉ Assoc.keys m.map.entries := by
      intro h
      obtain ⟨v, hmem⟩ := Assoc.exists_of_mem_keys h
      have hentry := m.entries _ hmem
      cases v with
      | none => exact Nat.lt_irrefl _ hentry
      | some v => exact hentry
    exact shows_item.map_swapRemove hkey hfresh
  · next hkey => exact (shows_item.erase_of_notMem hkey).symm

/-- A deletion removes the item. -/
theorem present_remove (m : OrderedMap K V) (k : K) :
    present (m.remove k).2.slots = Assoc.remove (present m.slots) k := by
  by_cases hlock : m.locks = 0
  · rw [remove, if_pos hlock]
    exact shows_item.present_remove m.map.entries k
  · rw [slots_remove hlock, ← remaining_zero, remaining_erase, remaining_zero]

/-- Removing a key does not lock or unlock a map. -/
theorem locks_remove (m : OrderedMap K V) (k : K) : (m.remove k).2.locks = m.locks := by
  rw [remove]
  split
  · rfl
  · split <;> rfl

omit [DecidableEq K] in

/-- Unlocking takes one from the lock counter. -/
theorem locks_unlock (m : OrderedMap K V) : m.unlock.locks = m.locks - 1 := by
  rw [unlock]
  split <;> rfl

omit [DecidableEq K] in

/-- Unless it is the last one, an unlock leaves the slots as they are. -/
theorem slots_unlock {m : OrderedMap K V} (hlock : m.locks ≠ 1) : m.unlock.slots = m.slots := by
  have hne : m.locks - 1 ≠ 0 := by
    intro h
    exact hlock (by rw [← UInt32.sub_add_cancel m.locks 1, h, UInt32.zero_add])
  rw [unlock, dif_neg hne]
  rfl

omit [DecidableEq K] in
/-- **The last unlock takes the empty slots out.** -/
theorem present_unlock (m : OrderedMap K V) : present m.unlock.slots = present m.slots := by
  rw [unlock]
  split
  · exact shows_item.present_retain m.map.entries
  · rfl

/-- A map obeys the laws of collections that are locked while they are read. -/
instance : LawfulLockedCollection (OrderedMap K V) K V where
  insert m k v := (m.insert k v).2
  remove m k := (m.remove k).2
  clear := clear
  lock := lock
  unlock := unlock
  locks := locks
  fullLen := fullLen
  getIndex := getIndex
  round := round
  slots := slots
  slots_insert := slots_insert
  slots_remove := fun _ k h => slots_remove h k
  present_remove := present_remove
  slots_clear := slots_clear
  slots_lock := fun _ => rfl
  slots_unlock := fun _ h => slots_unlock h
  present_unlock := present_unlock
  locks_insert := fun _ _ _ => rfl
  locks_remove := locks_remove
  locks_clear := fun _ => rfl
  locks_lock := fun _ => rfl
  locks_unlock := locks_unlock
  fullLen_eq := fullLen_eq
  getIndex_eq := getIndex_eq
  round_eq := fun kind _ => by cases kind <;> rfl

end OrderedMap

end BoaLigero.Builtins
