import BoaLigero.Util.SortedMap

/-!
# The Small Map

A map that is backed by an inline vector first, in the order of insertion, and by a heap map in
the order of the keys once an insertion finds the vector full. Entries are handles that hold
the map they borrow: an occupied one the position of its key, a vacant one the key to insert.

## Main results

* `OccupiedEntry.lists_write`, `VacantEntry.lists_insert` — what the handles do to a map.
* `lists_insert`, `lists_removeEntry`, `lists_extend` — the function an updated map lists.
* `eq_iff` — two maps are equal when they list the same function.
-/

namespace BoaLigero.SmallBTree

open Assoc

/-- A vector of bounded length that is stored inline. -/
structure ArrayVec (α : Type*) (cap : ℕ) where
  items : List α
  length_le : items.length ≤ cap

namespace ArrayVec

variable {α : Type*} {cap : ℕ}

def empty : ArrayVec α cap := ⟨[], Nat.zero_le _⟩

def push (a : ArrayVec α cap) (x : α) (h : a.items.length < cap) : ArrayVec α cap :=
  ⟨a.items ++ [x], by simpa using h⟩

def set (a : ArrayVec α cap) (i : ℕ) (x : α) : ArrayVec α cap :=
  ⟨a.items.set i x, by simpa using a.length_le⟩

def remove (a : ArrayVec α cap) (i : ℕ) : ArrayVec α cap :=
  ⟨a.items.eraseIdx i, (List.length_eraseIdx_le a.items i).trans a.length_le⟩

end ArrayVec

variable {K V : Type*} [LinearOrder K] {arraySize : ℕ}

/-- A map that is initially backed by an inline vec, but changes its backing to a heap map if
its number of elements exceeds the array size. -/
inductive SmallBTreeMap (K V : Type*) [LinearOrder K] (arraySize : ℕ)
  | inline (array : ArrayVec (K × V) arraySize)
  | heap (map : SortedMap K V)

/-- A view into an occupied entry. -/
inductive OccupiedEntry (K V : Type*) [LinearOrder K] (arraySize : ℕ)
  | inline (array : ArrayVec (K × V) arraySize) (index : Fin array.items.length)
  | heap (map : SortedMap K V) (key : K) (present : (map.get? key).isSome)

/-- A view into a vacant entry. -/
inductive VacantEntry (K V : Type*) [LinearOrder K] (arraySize : ℕ)
  | inline (array : ArrayVec (K × V) arraySize) (key : K)
  | heap (map : SortedMap K V) (key : K)

/-- A view into a single entry in a map. -/
inductive Entry (K V : Type*) [LinearOrder K] (arraySize : ℕ)
  | vacant (entry : VacantEntry K V arraySize)
  | occupied (entry : OccupiedEntry K V arraySize)

/-! ### The heap map's own entries -/

/-- Insert the value unless the key is there. -/
def heapOrInsert (map : SortedMap K V) (key : K) (value : V) : SortedMap K V :=
  match map.get? key with
  | some _ => map
  | none => map.insert key value

theorem present_heapOrInsert (map : SortedMap K V) (key : K) (value : V) :
    ((heapOrInsert map key value).get? key).isSome := by
  rw [heapOrInsert]
  cases h : map.get? key with
  | some v => rw [h]; rfl
  | none => rw [SortedMap.get?_insert, if_pos rfl]; rfl

theorem present_insert (map : SortedMap K V) (key : K) (value : V) :
    ((map.insert key value).get? key).isSome := by
  rw [SortedMap.get?_insert, if_pos rfl]; rfl

/-! ### Occupied entries -/

namespace OccupiedEntry

/-- The borrowed map. -/
def map : OccupiedEntry K V arraySize → SmallBTreeMap K V arraySize
  | inline array _ => .inline array
  | heap map _ _ => .heap map

/-- Gets the key in the entry. -/
def key : OccupiedEntry K V arraySize → K
  | inline array index => array.items[index].1
  | heap _ key _ => key

/-- Gets the value in the entry. -/
def get : OccupiedEntry K V arraySize → V
  | inline array index => array.items[index].2
  | heap map key present => (map.get? key).get present

/-- Write a value in place, through `get_mut` or `into_mut`. -/
def write (value : V) : OccupiedEntry K V arraySize → OccupiedEntry K V arraySize
  | inline array index =>
      .inline (array.set index (array.items[index].1, value))
        (index.cast (List.length_set ..).symm)
  | heap map key _ => .heap (map.insert key value) key (present_insert map key value)

/-- Sets the value of the entry, and returns the entry's old value. -/
def insert (entry : OccupiedEntry K V arraySize) (value : V) : V × OccupiedEntry K V arraySize :=
  (entry.get, entry.write value)

/-- Takes ownership of the key and value from the map. -/
def removeEntry : OccupiedEntry K V arraySize → (K × V) × SmallBTreeMap K V arraySize
  | inline array index => (array.items[index], .inline (array.remove index))
  | heap map key present => ((key, (map.get? key).get present), .heap (map.erase key))

/-- Takes the value of the entry out of the map, and returns it. -/
def remove (entry : OccupiedEntry K V arraySize) : V × SmallBTreeMap K V arraySize :=
  (entry.removeEntry.1.2, entry.removeEntry.2)

end OccupiedEntry

/-! ### Vacant entries -/

namespace VacantEntry

/-- The borrowed map. -/
def map : VacantEntry K V arraySize → SmallBTreeMap K V arraySize
  | inline array _ => .inline array
  | heap map _ => .heap map

def key : VacantEntry K V arraySize → K
  | inline _ key => key
  | heap _ key => key

/-- Sets the value of the entry with its key; the entry it becomes stands for the reference
that is returned. -/
def insert (value : V) : VacantEntry K V arraySize → OccupiedEntry K V arraySize
  | inline array key =>
      if h : array.items.length < arraySize then
        .inline (array.push (key, value) h) ⟨array.items.length, by simp [ArrayVec.push]⟩
      else
        -- Need to convert to a heap allocated map.
        .heap (heapOrInsert (.ofEntries array.items) key value) key (present_heapOrInsert ..)
  | heap map key => .heap (map.insert key value) key (present_insert map key value)

end VacantEntry

/-! ### Entries -/

namespace Entry

/-- The borrowed map. -/
def map : Entry K V arraySize → SmallBTreeMap K V arraySize
  | vacant entry => entry.map
  | occupied entry => entry.map

def key : Entry K V arraySize → K
  | vacant entry => entry.key
  | occupied entry => entry.key

/-- Ensures a value is in the entry by inserting, if empty, the result of the default function
at the key. -/
def orInsertWithKey (default : K → V) : Entry K V arraySize → OccupiedEntry K V arraySize
  | occupied entry => entry
  | vacant entry => entry.insert (default entry.key)

/-- Ensures a value is in the entry by inserting the default if empty. -/
def orInsert (default : V) (entry : Entry K V arraySize) : OccupiedEntry K V arraySize :=
  entry.orInsertWithKey fun _ => default

/-- Ensures a value is in the entry by inserting the default value of the type if empty. -/
def orDefault [Inhabited V] (entry : Entry K V arraySize) : OccupiedEntry K V arraySize :=
  entry.orInsert default

/-- Provides in-place mutable access to an occupied entry before any potential inserts. -/
def andModify (f : V → V) : Entry K V arraySize → Entry K V arraySize
  | occupied entry => .occupied (entry.write (f entry.get))
  | vacant entry => .vacant entry

end Entry

/-! ### Maps -/

namespace SmallBTreeMap

/-- Makes a new, empty map. -/
def new : SmallBTreeMap K V arraySize := .inline .empty

/-- Clears the map, removing all elements; the backing stays. -/
def clear : SmallBTreeMap K V arraySize → SmallBTreeMap K V arraySize
  | inline _ => .inline .empty
  | heap _ => .heap .empty

/-- The entries in the order of iteration. -/
def iter : SmallBTreeMap K V arraySize → List (K × V)
  | inline array => array.items
  | heap map => map.entries

/-- The number of elements in the map. -/
def len (m : SmallBTreeMap K V arraySize) : ℕ := m.iter.length

def isEmpty (m : SmallBTreeMap K V arraySize) : Bool := m.len = 0

/-- Returns the value corresponding to the key. -/
def get (key : K) : SmallBTreeMap K V arraySize → Option V
  | inline array => (array.items.find? fun e => e.1 = key).map Prod.snd
  | heap map => map.get? key

def containsKey (key : K) (m : SmallBTreeMap K V arraySize) : Bool := (m.get key).isSome

/-- Gets the given key's corresponding entry in the map for in-place manipulation. -/
def entry (key : K) : SmallBTreeMap K V arraySize → Entry K V arraySize
  | inline array =>
      match array.items.findFinIdx? fun e => e.1 = key with
      | none => .vacant (.inline array key)
      | some index => .occupied (.inline array index)
  | heap map =>
      if h : (map.get? key).isSome then .occupied (.heap map key h) else .vacant (.heap map key)

/-- Inserts a key-value pair into the map, returning the old value. -/
def insert (m : SmallBTreeMap K V arraySize) (key : K) (value : V) :
    Option V × SmallBTreeMap K V arraySize :=
  match m.entry key with
  | .occupied entry => (some (entry.insert value).1, (entry.insert value).2.map)
  | .vacant entry => (none, (entry.insert value).map)

/-- Removes a key from the map, returning the stored key and value. -/
def removeEntry (key : K) :
    SmallBTreeMap K V arraySize → Option (K × V) × SmallBTreeMap K V arraySize
  | inline array =>
      match array.items.findFinIdx? fun e => e.1 = key with
      | none => (none, .inline array)
      | some index => (some array.items[index], .inline (array.remove index))
  | heap map => ((map.get? key).map fun v => (key, v), .heap (map.erase key))

/-- Removes a key from the map, returning its value. -/
def remove (m : SmallBTreeMap K V arraySize) (key : K) :
    Option V × SmallBTreeMap K V arraySize :=
  ((m.removeEntry key).1.map Prod.snd, (m.removeEntry key).2)

/-- Retains only the elements specified by the test, which may change their values and knows
the elements it was asked about before. -/
def retain (test : List (K × V) → K → V → Option V) :
    SmallBTreeMap K V arraySize → SmallBTreeMap K V arraySize
  | inline array =>
      .inline ⟨retainWith test [] array.items, by
        have h := (keys_retainWith_sublist test [] array.items).length_le
        rw [length_keys, length_keys] at h
        exact h.trans array.length_le⟩
  | heap map => .heap (map.retain test)

/-- Insert the items of an iterator one after the other. -/
def extend (m : SmallBTreeMap K V arraySize) (items : List (K × V)) :
    SmallBTreeMap K V arraySize :=
  items.foldl (fun m e => (m.insert e.1 e.2).2) m

/-- Moves all elements from the other map into this one, leaving the other one empty. -/
def append {otherSize : ℕ} (m : SmallBTreeMap K V arraySize)
    (other : SmallBTreeMap K V otherSize) :
    SmallBTreeMap K V arraySize × SmallBTreeMap K V otherSize :=
  if other.isEmpty then (m, other)
  else
    (m.extend other.iter,
      match other with
      | inline _ => .inline .empty
      | heap _ => .heap .empty)

/-- The test for equality, of maps of any two array sizes. -/
def eq [DecidableEq V] {lhsSize rhsSize : ℕ} (lhs : SmallBTreeMap K V lhsSize)
    (rhs : SmallBTreeMap K V rhsSize) : Bool :=
  match lhs, rhs with
  | heap lhs, heap rhs => lhs.entries = rhs.entries
  | lhs, rhs =>
      if lhs.len ≠ rhs.len then false
      else lhs.iter.all fun e => (rhs.get e.1).any fun v => e.2 = v

/-- What a map feeds to a hasher: its length, then its elements. -/
inductive HashWrite (K V : Type*)
  | usize (n : ℕ)
  | element (e : K × V)
  deriving DecidableEq

/-- The input of a map to a hasher. -/
def hash (m : SmallBTreeMap K V arraySize) : List (HashWrite K V) :=
  .usize m.len :: m.iter.map .element

end SmallBTreeMap

/-! ### What the handles do -/

namespace OccupiedEntry

variable {e : OccupiedEntry K V arraySize} {f : K → Option V}

/-- The entry of a key shows the value of the key. -/
theorem eq_some_get (h : Lists e.map.iter f) : f e.key = some e.get := by
  cases e with
  | inline array index => rw [← h.mem_iff]; exact List.getElem_mem index.isLt
  | heap map key present => rw [← h.lookup]; exact (Option.some_get present).symm

theorem key_write (e : OccupiedEntry K V arraySize) (v : V) : (e.write v).key = e.key := by
  cases e with
  | inline array index => simp [write, key, ArrayVec.set]
  | heap map key present => rfl

theorem get_write (e : OccupiedEntry K V arraySize) (v : V) : (e.write v).get = v := by
  cases e with
  | inline array index => simp [write, get, ArrayVec.set]
  | heap map key present => simp [write, get, SortedMap.get?_insert]

/-- **A write through an entry updates its key.** -/
theorem lists_write (h : Lists e.map.iter f) (v : V) :
    Lists (e.write v).map.iter (Function.update f e.key (some v)) := by
  cases e with
  | inline array index =>
      have hset := set_eq_assign h.nodup (i := index) rfl v
      have hiter : ((inline array index).write v).map.iter = assign array.items _ v := hset
      rw [hiter]
      exact h.assign _ v
  | heap map key present => exact SortedMap.lists_insert h key v

/-- **Removing an entry removes its key.** -/
theorem lists_removeEntry (h : Lists e.map.iter f) :
    Lists e.removeEntry.2.iter (Function.update f e.key none) := by
  cases e with
  | inline array index =>
      have herase := eraseIdx_eq_remove h.nodup (i := index) rfl
      have hiter : (inline array index).removeEntry.2.iter = Assoc.remove array.items _ := herase
      rw [hiter]
      exact h.remove _
  | heap map key present => exact h.remove key

theorem fst_removeEntry (e : OccupiedEntry K V arraySize) : e.removeEntry.1 = (e.key, e.get) := by
  cases e <;> rfl

end OccupiedEntry

namespace VacantEntry

variable {e : VacantEntry K V arraySize} {f : K → Option V}

/-- **An insertion into a vacant entry adds its key**, on either side of the switch to the heap;
the reference it returns is to the entry of the key. -/
theorem lists_insert (h : Lists e.map.iter f) (hvacant : f e.key = none) (v : V) :
    Lists (e.insert v).map.iter (Function.update f e.key (some v)) ∧
      (e.insert v).key = e.key ∧ (e.insert v).get = v := by
  cases e with
  | inline array key =>
      have hnot : key ∉ keys array.items := by
        rw [← lookup_eq_none_iff_notMem]
        exact (h.lookup key).trans hvacant
      rw [insert]
      split
      · next hlt =>
        refine ⟨?_, ?_, ?_⟩
        · have hassign := h.assign key v
          rw [show (inline array key).map.iter = array.items from rfl,
            Assoc.assign_of_notMem hnot] at hassign
          exact hassign
        · simp [OccupiedEntry.key, ArrayVec.push, VacantEntry.key]
        · simp [OccupiedEntry.get, ArrayVec.push]
      · have hlists : Lists (SortedMap.ofEntries array.items).entries f :=
          ⟨SortedMap.nodup _, fun k => (SortedMap.get?_ofEntries h.nodup k).trans (h.lookup k)⟩
        have hnone : (SortedMap.ofEntries array.items).get? key = none :=
          (hlists.lookup key).trans hvacant
        have hheap : heapOrInsert (SortedMap.ofEntries array.items) key v
            = (SortedMap.ofEntries array.items).insert key v := by
          rw [heapOrInsert, hnone]
        refine ⟨?_, rfl, ?_⟩
        · have hins := SortedMap.lists_insert hlists key v
          rw [← hheap] at hins
          exact hins
        · simp [OccupiedEntry.get, hheap, SortedMap.get?_insert]
  | heap map key =>
      exact ⟨SortedMap.lists_insert h key v, rfl,
        by simp [insert, OccupiedEntry.get, SortedMap.get?_insert]⟩

end VacantEntry

/-! ### What the operations do -/

namespace SmallBTreeMap

variable {m : SmallBTreeMap K V arraySize} {f : K → Option V}

theorem get_eq_lookup (m : SmallBTreeMap K V arraySize) (k : K) : m.get k = m.iter.lookup k := by
  cases m with
  | inline array => exact find?_eq_lookup array.items k
  | heap map => rfl

theorem get_of_lists (h : Lists m.iter f) (k : K) : m.get k = f k :=
  (m.get_eq_lookup k).trans (h.lookup k)

theorem lists_new : Lists (new : SmallBTreeMap K V arraySize).iter fun _ => none := lists_nil

theorem lists_clear (m : SmallBTreeMap K V arraySize) : Lists m.clear.iter fun _ => none := by
  cases m <;> exact lists_nil

theorem lookup_of_findFinIdx? {l : List (K × V)} {k : K}
    (h : (l.findFinIdx? fun e => e.1 = k) = none) : l.lookup k = none := by
  rw [lookup_eq_none_iff_notMem]
  intro hk
  obtain ⟨v, hv⟩ := exists_of_mem_keys hk
  simpa using List.findFinIdx?_eq_none_iff.mp h (k, v) hv

/-- **The entry of a key borrows the map**; it is vacant when the key has no value. -/
theorem entry_cases (m : SmallBTreeMap K V arraySize) (k : K) :
    (∃ e, m.entry k = .occupied e ∧ e.map = m ∧ e.key = k) ∨
      ∃ e, m.entry k = .vacant e ∧ e.map = m ∧ e.key = k ∧ m.iter.lookup k = none := by
  cases m with
  | inline array =>
      rw [entry]
      cases h : array.items.findFinIdx? fun e => e.1 = k with
      | none => exact .inr ⟨_, rfl, rfl, rfl, lookup_of_findFinIdx? h⟩
      | some index =>
          have hkey := (List.findFinIdx?_eq_some_iff.mp h).1
          exact .inl ⟨_, rfl, rfl, of_decide_eq_true hkey⟩
  | heap map =>
      rw [entry]
      split
      · exact .inl ⟨_, rfl, rfl, rfl⟩
      · next h => exact .inr ⟨_, rfl, rfl, rfl, Option.not_isSome_iff_eq_none.mp h⟩

/-- **Insertion updates the key** and returns the value it had. -/
theorem lists_insert (h : Lists m.iter f) (k : K) (v : V) :
    (m.insert k v).1 = f k ∧ Lists (m.insert k v).2.iter (Function.update f k (some v)) := by
  rcases m.entry_cases k with ⟨e, hentry, rfl, rfl⟩ | ⟨e, hentry, rfl, rfl, hnone⟩
  · rw [insert, hentry]
    exact ⟨(e.eq_some_get h).symm, e.lists_write h v⟩
  · rw [insert, hentry]
    have hvacant : f e.key = none := (h.lookup _).symm.trans hnone
    exact ⟨hvacant.symm, (e.lists_insert h hvacant v).1⟩

/-- **Removal removes the key** and returns the entry it had. -/
theorem lists_removeEntry (h : Lists m.iter f) (k : K) :
    (m.removeEntry k).1 = (f k).map (fun v => (k, v)) ∧
      Lists (m.removeEntry k).2.iter (Function.update f k none) := by
  cases m with
  | inline array =>
      rw [removeEntry]
      cases hidx : array.items.findFinIdx? fun e => e.1 = k with
      | none =>
          have hnone : f k = none := (h.lookup k).symm.trans (lookup_of_findFinIdx? hidx)
          refine ⟨by rw [hnone]; rfl, ?_⟩
          rw [← hnone, Function.update_eq_self]
          exact h
      | some index =>
          have hkey := of_decide_eq_true (List.findFinIdx?_eq_some_iff.mp hidx).1
          have hvalue : f k = some array.items[index].2 :=
            (h.lookup k).symm.trans (lookup_of_position h.nodup hkey)
          refine ⟨by rw [hvalue, ← hkey]; rfl, ?_⟩
          exact hkey ▸ OccupiedEntry.lists_removeEntry (e := .inline array index) h
  | heap map => exact ⟨by rw [← h.lookup]; rfl, h.remove k⟩

/-- A test keeps what it keeps in the order of iteration. -/
theorem iter_retain (m : SmallBTreeMap K V arraySize)
    (test : List (K × V) → K → V → Option V) :
    (m.retain test).iter = retainWith test [] m.iter := by
  cases m <;> rfl

/-- **Extension assigns the items** one after the other. -/
theorem lists_extend (h : Lists m.iter f) (items : List (K × V)) :
    Lists (m.extend items).iter
      (items.foldl (fun (f : K → Option V) e => Function.update f e.1 (some e.2)) f) := by
  induction items generalizing m f with
  | nil => exact h
  | cons e items ih => exact ih (lists_insert h e.1 e.2).2

/-- Assigning the entries of a map overrides with what they list. -/
theorem foldl_update_of_lists {l : List (K × V)} {g : K → Option V} (h : Lists l g)
    (f : K → Option V) :
    l.foldl (fun (f : K → Option V) e => Function.update f e.1 (some e.2)) f =
      fun k => (g k).or (f k) := by
  funext k
  rw [← h.lookup]
  have hnd := h.nodup
  clear h
  induction l generalizing f with
  | nil => rfl
  | cons e l ih =>
      obtain ⟨k', v⟩ := e
      rw [keys_cons, List.nodup_cons] at hnd
      rw [List.foldl_cons, ih _ hnd.2, List.lookup_cons, Function.update_apply]
      by_cases hk : k = k'
      · subst hk
        rw [lookup_eq_none_iff_notMem.mpr hnd.1, beq_self_eq_true, if_pos rfl]
        rfl
      · rw [beq_false_of_ne hk, if_neg hk]

/-- **Two maps are equal when they list the same function**, whatever their backings. -/
theorem eq_iff [DecidableEq V] {lhsSize rhsSize : ℕ} {lhs : SmallBTreeMap K V lhsSize}
    {rhs : SmallBTreeMap K V rhsSize} {f g : K → Option V} (hl : Lists lhs.iter f)
    (hr : Lists rhs.iter g) : lhs.eq rhs = true ↔ f = g := by
  have hscan : (if lhs.len ≠ rhs.len then false
      else lhs.iter.all fun e => (rhs.get e.1).any fun v => e.2 = v) = true ↔ f = g := by
    constructor
    · intro h
      split at h
      · cases h
      · next hlen =>
        refine hl.of_subset hr (fun e he => ?_) (not_not.mp hlen)
        have hany := List.all_eq_true.mp h e he
        rw [get_eq_lookup, Option.any_eq_true] at hany
        obtain ⟨v, hv, heq⟩ := hany
        rw [← lookup_eq_some_iff_mem hr.nodup, hv, of_decide_eq_true heq]
    · rintro rfl
      have hperm := hl.perm hr
      have hlen : lhs.len = rhs.len := hperm.length_eq
      rw [if_neg (not_not.mpr hlen), List.all_eq_true]
      intro e he
      rw [get_of_lists hr, hl.mem_iff.mp he, Option.any_some, decide_eq_true rfl]
  cases lhs with
  | inline => exact hscan
  | heap map =>
      cases rhs with
      | inline => exact hscan
      | heap other =>
          rw [eq, decide_eq_true_iff]
          constructor
          · intro heq
            have heq : map = other := SortedMap.ext heq
            subst heq
            exact hl.unique hr
          · rintro rfl
            rw [SortedMap.eq_of_lists hl hr]

end SmallBTreeMap

end BoaLigero.SmallBTree
