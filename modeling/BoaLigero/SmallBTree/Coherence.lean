import BoaLigero.SmallBTree.Map

/-!
# Small Maps against a Partial Function

What a small map is for: it stands for a partial function from keys to values. Any number of
maps of any array sizes go through one sequence of operations, each beside the function obtained
by performing the same operations on plain functions. A test that is given to `retain` may
depend on what it was asked before; the function then allows every order of the questions.

Whatever the backings, the maps agree with their functions and are equal when these are. Their
input to a hasher agrees when the orders of iteration do, and those differ between an inline
vector and anything else unless its keys were inserted in the order that the other one shows.

## Main results

* `Entry.lists_use` — what a caller does with an entry is done to the value of its key.
* `perform_refines` — an operation on the maps is the operation on the functions.
* `maps_coherent_iff` — every sequence of operations agrees with the functions, and equal maps
  feed equal input to a hasher exactly when they show their entries in the same order.
-/

namespace BoaLigero.SmallBTree

open Assoc

variable {K V : Type*} [LinearOrder K] {arraySize : ℕ}

/-! ### Uses of an entry -/

/-- What a caller does with an occupied entry. -/
inductive OccupiedUse (V : Type*)
  | drop
  | modify (f : V → V) (next : OccupiedUse V)
  | insert (value : V) (next : OccupiedUse V)
  | remove

/-- What a caller does with an entry; a value that is inserted can be written again through the
reference that the insertion returns. -/
inductive EntryUse (K V : Type*)
  | andModify (f : V → V) (next : EntryUse K V)
  | orInsertWithKey (default : K → V) (write : V → V)
  | split (onOccupied : OccupiedUse V) (onVacant : Option (V × (V → V)))

/-- Use an occupied entry; the values that were returned come with the map. -/
def OccupiedEntry.use (e : OccupiedEntry K V arraySize) :
    OccupiedUse V → List V × SmallBTreeMap K V arraySize
  | .drop => ([], e.map)
  | .modify f next => (e.write (f e.get)).use next
  | .insert value next =>
      let (old, e) := e.insert value
      let (values, m) := e.use next
      (old :: values, m)
  | .remove => ([e.remove.1], e.remove.2)

/-- Use an entry. -/
def Entry.use (e : Entry K V arraySize) :
    EntryUse K V → List V × SmallBTreeMap K V arraySize
  | .andModify f next => (e.andModify f).use next
  | .orInsertWithKey default write =>
      let value := e.orInsertWithKey default
      ([value.get], (value.write (write value.get)).map)
  | .split onOccupied onVacant =>
      match e with
      | .occupied e => e.use onOccupied
      | .vacant e =>
          match onVacant with
          | none => ([], e.map)
          | some (value, write) =>
              let value := e.insert value
              ([value.get], (value.write (write value.get)).map)

/-- A use of an occupied entry, on the value. -/
def OccupiedUse.onValue (v : V) : OccupiedUse V → List V × Option V
  | .drop => ([], some v)
  | .modify f next => next.onValue (f v)
  | .insert w next => (v :: (next.onValue w).1, (next.onValue w).2)
  | .remove => ([v], none)

/-- A use of an entry, on the value that the key has or has not. -/
def EntryUse.onValue (key : K) (o : Option V) : EntryUse K V → List V × Option V
  | .andModify f next => next.onValue key (o.map f)
  | .orInsertWithKey default write => ([o.getD (default key)], some (write (o.getD (default key))))
  | .split onOccupied onVacant =>
      match o with
      | some v => onOccupied.onValue v
      | none =>
          match onVacant with
          | none => ([], none)
          | some (w, write) => ([w], some (write w))

/-- **A use of an occupied entry is done to the value of its key.** -/
theorem OccupiedEntry.lists_use {e : OccupiedEntry K V arraySize} {f : K → Option V}
    (h : Lists e.map.iter f) (use : OccupiedUse V) :
    (e.use use).1 = (use.onValue e.get).1 ∧
      Lists (e.use use).2.iter (Function.update f e.key (use.onValue e.get).2) := by
  induction use generalizing e f with
  | drop =>
      refine ⟨rfl, ?_⟩
      rw [OccupiedUse.onValue, ← e.eq_some_get h, Function.update_eq_self]
      exact h
  | modify g next ih =>
      have hnext := ih (e.lists_write h (g e.get))
      rw [get_write, key_write, Function.update_idem] at hnext
      exact hnext
  | insert v next ih =>
      have hnext := ih (e.lists_write h v)
      rw [get_write, key_write, Function.update_idem] at hnext
      exact ⟨congrArg _ hnext.1, hnext.2⟩
  | remove =>
      refine ⟨?_, e.lists_removeEntry h⟩
      rw [OccupiedEntry.use, OccupiedEntry.remove, fst_removeEntry]
      rfl

/-- Writing through the reference that an insertion into a vacant entry returns. -/
theorem VacantEntry.lists_insert_write {e : VacantEntry K V arraySize} {f : K → Option V}
    (h : Lists e.map.iter f) (hvacant : f e.key = none) (v : V) (write : V → V) :
    (e.insert v).get = v ∧ Lists ((e.insert v).write (write (e.insert v).get)).map.iter
      (Function.update f e.key (some (write v))) := by
  obtain ⟨hlists, hkey, hget⟩ := e.lists_insert h hvacant v
  refine ⟨hget, ?_⟩
  have hwrite := (e.insert v).lists_write hlists (write (e.insert v).get)
  rw [hkey, Function.update_idem] at hwrite
  rwa [hget] at hwrite ⊢

/-- An occupied entry has a value for its key, a vacant one has none. -/
def Entry.Shows (e : Entry K V arraySize) (o : Option V) : Prop :=
  match e with
  | .occupied e => o = some e.get
  | .vacant _ => o = none

/-- **What a caller does with an entry is done to the value of its key.** -/
theorem Entry.lists_use {e : Entry K V arraySize} {f : K → Option V}
    (h : Lists e.map.iter f) (hshows : e.Shows (f e.key)) (use : EntryUse K V) :
    (e.use use).1 = (use.onValue e.key (f e.key)).1 ∧
      Lists (e.use use).2.iter (Function.update f e.key (use.onValue e.key (f e.key)).2) := by
  induction use generalizing e f with
  | andModify g next ih =>
      cases e with
      | vacant e =>
          have hvacant : f e.key = none := hshows
          have hnext := ih (e := .vacant e) h hshows
          rw [Entry.key, hvacant] at hnext ⊢
          exact hnext
      | occupied e =>
          have hget : f e.key = some e.get := hshows
          have hnext := ih (e := .occupied (e.write (g e.get))) (e.lists_write h (g e.get)) (by
            rw [Entry.Shows, Entry.key, e.key_write, e.get_write, Function.update_self])
          rw [Entry.key, e.key_write, Function.update_self, Function.update_idem] at hnext
          rw [Entry.key, hget]
          exact hnext
  | orInsertWithKey default write =>
      cases e with
      | vacant e =>
          have hvacant : f e.key = none := hshows
          obtain ⟨hget, hlists⟩ := e.lists_insert_write h hvacant (default e.key) write
          rw [Entry.key, hvacant]
          exact ⟨congrArg (fun v => [v]) hget, hlists⟩
      | occupied e =>
          have hget : f e.key = some e.get := hshows
          rw [Entry.key, hget]
          exact ⟨rfl, e.lists_write h (write e.get)⟩
  | split onOccupied onVacant =>
      cases e with
      | vacant e =>
          have hvacant : f e.key = none := hshows
          rw [Entry.key, hvacant]
          cases onVacant with
          | none =>
              refine ⟨rfl, ?_⟩
              rw [EntryUse.onValue, ← hvacant, Function.update_eq_self]
              exact h
          | some insertion =>
              obtain ⟨v, write⟩ := insertion
              obtain ⟨hget, hlists⟩ := e.lists_insert_write h hvacant v write
              exact ⟨congrArg (fun v => [v]) hget, hlists⟩
      | occupied e =>
          have hget : f e.key = some e.get := hshows
          rw [Entry.key, hget]
          exact e.lists_use h onOccupied

theorem SmallBTreeMap.lists_entry_use {m : SmallBTreeMap K V arraySize} {f : K → Option V}
    (h : Lists m.iter f) (k : K) (use : EntryUse K V) :
    ((m.entry k).use use).1 = (use.onValue k (f k)).1 ∧
      Lists ((m.entry k).use use).2.iter (Function.update f k (use.onValue k (f k)).2) := by
  rcases m.entry_cases k with ⟨e, hentry, rfl, rfl⟩ | ⟨e, hentry, rfl, rfl, hnone⟩
  · rw [hentry]
    exact Entry.lists_use (e := .occupied e) h (e.eq_some_get h) use
  · rw [hentry]
    exact Entry.lists_use (e := .vacant e) h ((h.lookup _).symm.trans hnone) use

/-! ### Sequences of operations -/

/-- The operations on the maps of a family. -/
inductive MapOp (ι K V : Type*)
  | insert (i : ι) (key : K) (value : V)
  | remove (i : ι) (key : K)
  | removeEntry (i : ι) (key : K)
  | entry (i : ι) (key : K) (use : EntryUse K V)
  | retain (i : ι) (test : List (K × V) → K → V → Option V)
  | clear (i : ι)
  | append (i j : ι) (hne : i ≠ j)
  | extend (i : ι) (items : List (K × V))

/-- What an operation returns. -/
inductive MapReply (K V : Type*)
  | unit
  | value (old : Option V)
  | entry (old : Option (K × V))
  | values (read : List V)
  deriving DecidableEq

/-- A family of maps, each of its own array size. -/
abbrev Maps {ι : Type*} (K V : Type*) [LinearOrder K] (size : ι → ℕ) :=
  ∀ i, SmallBTreeMap K V (size i)

/-- A family of new maps. -/
def Maps.new {ι : Type*} (size : ι → ℕ) : Maps K V size := fun _ => SmallBTreeMap.new

/-- A family of partial functions. -/
abbrev Functions (ι K V : Type*) := ι → K → Option V

variable {ι : Type*} [DecidableEq ι] {size : ι → ℕ}

open Function (update)

/-- Perform an operation on the maps. -/
def Maps.perform (ms : Maps K V size) : MapOp ι K V → MapReply K V × Maps K V size
  | .insert i key value =>
      let (old, m) := (ms i).insert key value
      (.value old, update ms i m)
  | .remove i key =>
      let (old, m) := (ms i).remove key
      (.value old, update ms i m)
  | .removeEntry i key =>
      let (old, m) := (ms i).removeEntry key
      (.entry old, update ms i m)
  | .entry i key use =>
      let (read, m) := ((ms i).entry key).use use
      (.values read, update ms i m)
  | .retain i test => (.unit, update ms i ((ms i).retain test))
  | .clear i => (.unit, update ms i (ms i).clear)
  | .append i j _ =>
      let (m, other) := (ms i).append (ms j)
      (.unit, update (update ms i m) j other)
  | .extend i items => (.unit, update ms i ((ms i).extend items))

/-- Perform operations one after the other; their replies come with the maps. -/
def Maps.performAll (ms : Maps K V size) :
    List (MapOp ι K V) → List (MapReply K V) × Maps K V size
  | [] => ([], ms)
  | op :: ops =>
      let (reply, ms) := ms.perform op
      let (replies, ms) := ms.performAll ops
      (reply :: replies, ms)

/-- An operation on the functions, with what it returns. -/
def Functions.Performs (fs : Functions ι K V) :
    MapOp ι K V → MapReply K V → Functions ι K V → Prop
  | .insert i key value, reply, fs' =>
      reply = .value (fs i key) ∧ fs' = update fs i (update (fs i) key (some value))
  | .remove i key, reply, fs' =>
      reply = .value (fs i key) ∧ fs' = update fs i (update (fs i) key none)
  | .removeEntry i key, reply, fs' =>
      reply = .entry ((fs i key).map fun v => (key, v)) ∧
        fs' = update fs i (update (fs i) key none)
  | .entry i key use, reply, fs' =>
      reply = .values (use.onValue key (fs i key)).1 ∧
        fs' = update fs i (update (fs i) key (use.onValue key (fs i key)).2)
  | .retain i test, reply, fs' =>
      -- The questions may come in any order of the entries.
      reply = .unit ∧ ∃ l f, Lists l (fs i) ∧ Lists (retainWith test [] l) f ∧ fs' = update fs i f
  | .clear i, reply, fs' => reply = .unit ∧ fs' = update fs i fun _ => none
  | .append i j _, reply, fs' =>
      reply = .unit ∧
        fs' = update (update fs i fun k => (fs j k).or (fs i k)) j fun _ => none
  | .extend i items, reply, fs' =>
      reply = .unit ∧ fs' = update fs i
        (items.foldl (fun (f : K → Option V) e => update f e.1 (some e.2)) (fs i))

/-- Operations on the functions, one after the other. -/
def Functions.PerformsAll (fs : Functions ι K V) :
    List (MapOp ι K V) → List (MapReply K V) → Functions ι K V → Prop
  | [], replies, fs' => replies = [] ∧ fs' = fs
  | op :: ops, replies, fs' => ∃ reply rest fs₁,
      replies = reply :: rest ∧ fs.Performs op reply fs₁ ∧ Functions.PerformsAll fs₁ ops rest fs'

/-- The maps list the functions. -/
def Maps.Represents (ms : Maps K V size) (fs : Functions ι K V) : Prop :=
  ∀ i, Lists (ms i).iter (fs i)

theorem Maps.Represents.update {ms : Maps K V size} {fs : Functions ι K V}
    (h : ms.Represents fs) (i : ι) {m : SmallBTreeMap K V (size i)} {f : K → Option V}
    (hm : Lists m.iter f) : Maps.Represents (Function.update ms i m) (Function.update fs i f) := by
  intro j
  by_cases hj : j = i
  · subst hj
    rw [Function.update_self, Function.update_self]
    exact hm
  · rw [Function.update_of_ne hj, Function.update_of_ne hj]
    exact h j

/-- **Appending overrides with the entries of the other map**, which is left empty. -/
theorem SmallBTreeMap.lists_append {otherSize : ℕ} {m : SmallBTreeMap K V arraySize}
    {other : SmallBTreeMap K V otherSize} {f g : K → Option V} (hm : Lists m.iter f)
    (hother : Lists other.iter g) :
    Lists (m.append other).1.iter (fun k => (g k).or (f k)) ∧
      Lists (m.append other).2.iter fun _ => none := by
  rw [append.eq_def]
  split
  · next hempty =>
    have hnil : other.iter = [] := List.eq_nil_of_length_eq_zero (of_decide_eq_true hempty)
    have hnone : g = fun _ => none := hother.unique (hnil ▸ lists_nil)
    subst hnone
    exact ⟨hm, hother⟩
  · refine ⟨?_, ?_⟩
    · rw [← foldl_update_of_lists hother]
      exact lists_extend hm other.iter
    · cases other <;> exact lists_nil

/-- **An operation on the maps is the operation on the functions.** -/
theorem perform_refines {ms : Maps K V size} {fs : Functions ι K V} (h : ms.Represents fs)
    (op : MapOp ι K V) :
    ∃ fs', fs.Performs op (ms.perform op).1 fs' ∧ (ms.perform op).2.Represents fs' := by
  cases op with
  | insert i key value =>
      obtain ⟨hold, hlists⟩ := SmallBTreeMap.lists_insert (h i) key value
      exact ⟨_, ⟨congrArg _ hold, rfl⟩, h.update i hlists⟩
  | remove i key =>
      obtain ⟨hold, hlists⟩ := SmallBTreeMap.lists_removeEntry (h i) key
      have hvalue : ((ms i).remove key).1 = fs i key := by
        rw [SmallBTreeMap.remove, hold, Option.map_map]
        exact Option.map_id'
      exact ⟨_, ⟨congrArg MapReply.value hvalue, rfl⟩, h.update i hlists⟩
  | removeEntry i key =>
      obtain ⟨hold, hlists⟩ := SmallBTreeMap.lists_removeEntry (h i) key
      exact ⟨_, ⟨congrArg _ hold, rfl⟩, h.update i hlists⟩
  | entry i key use =>
      obtain ⟨hread, hlists⟩ := SmallBTreeMap.lists_entry_use (h i) key use
      exact ⟨_, ⟨congrArg _ hread, rfl⟩, h.update i hlists⟩
  | retain i test =>
      have hnd := (keys_retainWith_sublist test [] (ms i).iter).nodup (h i).nodup
      refine ⟨_, ⟨rfl, _, _, h i, lists_self hnd, rfl⟩, h.update i ?_⟩
      rw [SmallBTreeMap.iter_retain]
      exact lists_self hnd
  | clear i => exact ⟨_, ⟨rfl, rfl⟩, h.update i (ms i).lists_clear⟩
  | append i j hne =>
      obtain ⟨hlists, hempty⟩ := SmallBTreeMap.lists_append (h i) (h j)
      exact ⟨_, ⟨rfl, rfl⟩, (h.update i hlists).update j hempty⟩
  | extend i items => exact ⟨_, ⟨rfl, rfl⟩, h.update i (SmallBTreeMap.lists_extend (h i) items)⟩

/-- Operations on the maps are the operations on the functions. -/
theorem performAll_refines {ms : Maps K V size} {fs : Functions ι K V} (h : ms.Represents fs)
    (ops : List (MapOp ι K V)) :
    ∃ fs', fs.PerformsAll ops (ms.performAll ops).1 fs' ∧
      (ms.performAll ops).2.Represents fs' := by
  induction ops generalizing ms fs with
  | nil => exact ⟨fs, ⟨rfl, rfl⟩, h⟩
  | cons op ops ih =>
      obtain ⟨fs₁, hstep, h₁⟩ := perform_refines h op
      obtain ⟨fs', hrest, h'⟩ := ih h₁
      exact ⟨fs', ⟨_, _, fs₁, rfl, hstep, hrest⟩, h'⟩

/-! ### Agreement and hashing -/

/-- A map agrees with a function. -/
structure Agrees (m : SmallBTreeMap K V arraySize) (f : K → Option V) : Prop where
  get : ∀ k, m.get k = f k
  containsKey : ∀ k, m.containsKey k = (f k).isSome
  len : m.len = {k | (f k).isSome}.ncard
  /-- The iteration shows each key once, -/
  nodup : (keys m.iter).Nodup
  /-- and the entries of the function. -/
  mem_iter : ∀ k v, (k, v) ∈ m.iter ↔ f k = some v

theorem agrees_of_lists {m : SmallBTreeMap K V arraySize} {f : K → Option V}
    (h : Lists m.iter f) : Agrees m f where
  get := SmallBTreeMap.get_of_lists h
  containsKey k := by rw [SmallBTreeMap.containsKey, SmallBTreeMap.get_of_lists h]
  len := h.ncard_eq.symm
  nodup := h.nodup
  mem_iter _ _ := h.mem_iff

/-- The backings show the same keys in the same order: heap maps do when they hold the same
keys, and an inline vector shows what a heap map shows when its keys are in order. -/
def SameOrder {lhsSize rhsSize : ℕ} (lhs : SmallBTreeMap K V lhsSize)
    (rhs : SmallBTreeMap K V rhsSize) : Prop :=
  match lhs, rhs with
  | .heap _, .heap _ => True
  | .heap _, .inline array => (keys array.items).Pairwise (· < ·)
  | .inline array, .heap _ => (keys array.items).Pairwise (· < ·)
  | .inline lhs, .inline rhs => keys lhs.items = keys rhs.items

/-- The input to a hasher shows the order of iteration. -/
theorem hash_eq_iff {lhsSize rhsSize : ℕ} {lhs : SmallBTreeMap K V lhsSize}
    {rhs : SmallBTreeMap K V rhsSize} : lhs.hash = rhs.hash ↔ lhs.iter = rhs.iter := by
  have hinj : Function.Injective (SmallBTreeMap.HashWrite.element : K × V → _) := by
    intro e e' h
    cases h
    rfl
  constructor
  · intro h
    exact List.map_injective_iff.mpr hinj (List.cons.inj h).2
  · intro h
    rw [SmallBTreeMap.hash, SmallBTreeMap.hash, SmallBTreeMap.len, SmallBTreeMap.len, h]

/-- **Equal maps feed a hasher the same input exactly when they show the same order.** -/
theorem hash_eq_iff_sameOrder {lhsSize rhsSize : ℕ} {lhs : SmallBTreeMap K V lhsSize}
    {rhs : SmallBTreeMap K V rhsSize} {f : K → Option V} (hl : Lists lhs.iter f)
    (hr : Lists rhs.iter f) : lhs.hash = rhs.hash ↔ SameOrder lhs rhs := by
  have hkeys : lhs.iter = rhs.iter ↔ keys lhs.iter = keys rhs.iter := by
    constructor
    · exact congrArg keys
    · intro h
      exact eq_of_keys_of_lookup hl.nodup h fun k _ => (hl.lookup k).trans (hr.lookup k).symm
  have hsame : ∀ k, k ∈ keys lhs.iter ↔ k ∈ keys rhs.iter := fun k => by
    rw [hl.mem_keys_iff, hr.mem_keys_iff]
  rw [hash_eq_iff, hkeys]
  cases lhs with
  | inline array =>
      cases rhs with
      | inline other => exact Iff.rfl
      | heap map =>
          constructor
          · intro h
            have hsorted := map.sorted
            rwa [show keys map.entries = keys array.items from h.symm] at hsorted
          · intro hsorted
            exact hsorted.eq_of_mem_iff map.sorted fun k => hsame k
  | heap map =>
      cases rhs with
      | inline array =>
          constructor
          · intro h
            have hsorted := map.sorted
            rwa [show keys map.entries = keys array.items from h] at hsorted
          · intro hsorted
            exact map.sorted.eq_of_mem_iff hsorted fun k => hsame k
      | heap other =>
          constructor
          · exact fun _ => trivial
          · exact fun _ => map.sorted.eq_of_mem_iff other.sorted fun k => hsame k

/-- **Small maps are coherent finite maps.** Every sequence of operations on new maps of any
array sizes returns what the operations on partial functions return and leaves maps that agree
with the functions; two of them are equal exactly when their functions are, and equal ones feed
a hasher the same input exactly when their backings show the entries in the same order. -/
theorem maps_coherent_iff [DecidableEq V] (size : ι → ℕ) (ops : List (MapOp ι K V)) :
    ∃ fs, Functions.PerformsAll (fun _ _ => none) ops
        ((Maps.new size).performAll ops).1 fs ∧
      let ms := ((Maps.new size).performAll ops).2
      (∀ i, Agrees (ms i) (fs i)) ∧
        (∀ i j, (ms i).eq (ms j) = true ↔ fs i = fs j) ∧
        ∀ i j, (ms i).eq (ms j) = true →
          ((ms i).hash = (ms j).hash ↔ SameOrder (ms i) (ms j)) := by
  have hnew : (Maps.new size : Maps K V size).Represents fun _ _ => none :=
    fun _ => SmallBTreeMap.lists_new
  obtain ⟨fs, hperforms, hrep⟩ := performAll_refines hnew ops
  refine ⟨fs, hperforms, fun i => agrees_of_lists (hrep i), fun i j =>
    SmallBTreeMap.eq_iff (hrep i) (hrep j), fun i j heq => ?_⟩
  have hfs := (SmallBTreeMap.eq_iff (hrep i) (hrep j)).mp heq
  exact hash_eq_iff_sameOrder (hrep i) (hfs ▸ hrep j)

/-- Two maps with the same two entries, inserted in both orders. -/
def twoOrders : Maps ℕ ℕ fun _ : Bool => 2 :=
  ((Maps.new _).performAll
    [.insert false 1 0, .insert false 2 0, .insert true 2 0, .insert true 1 0]).2

/-- Maps with the same entries are equal and feed different input to a hasher. -/
theorem hash_of_twoOrders :
    (twoOrders false).eq (twoOrders true) = true ∧
      (twoOrders false).hash ≠ (twoOrders true).hash := by
  decide

end BoaLigero.SmallBTree
