import BoaLigero.Gc.ReferenceCounts
import BoaLigero.Util.Run
import Mathlib.Data.List.Count
import Mathlib.Data.List.Perm.Subperm

/-!
# Programs with a Garbage Collected Heap

What a program does with the collected heap (`gc/pointers`, the `Allocator` of `gc/lib.rs`): it
allocates boxes, ephemerons and weak maps, clones and drops handles, follows weak pointers, and
moves handles between values and what is outside of the heap: its stack, memory that is not
traced, and cells that are borrowed for writing. An allocation may run a collection before the
new box belongs to the heap.

A program owns handles: those outside are a list, and a handle can be dropped or moved into a
value only if it is there. What a program can get at is what can be reached from there
(`Reachable`). This, and the freshness of new addresses is what `Allows` asks of a step; the
language and its memory allocator guarantee both.

**Finalizers.** Values have no finalizers of their own that touch handles. The second mark phase
does not count handles again, so that a handle which a finalizer cloned and keeps outside of the
heap does not make its box a root, and the box is freed under it. What one collection does under
finalizers that do not resurrect is in `BoaLigero.Gc.Collect`.

A step fails if an assertion of the collector does, if there are too many handles to one box, or
if a weak map is changed while it is borrowed. Every allocation and every box that is dropped is
logged, and of an ephemeron for which box it was made: for which address, and for how many boxes
had been allocated there.
-/

namespace BoaLigero

variable {B E W : Type}

/-- A new header (`GcHeader::new`). -/
def GcHeader.new : GcHeader := ⟨1, 0⟩

/-- A handle is cloned, unless there are too many. -/
def GcHeader.incRefCount (h : GcHeader) : Option GcHeader :=
  let count := h.refCount + 1
  if count = 0 ∨ nonRootsMax < count then none else some { h with refCount := count }

/-- Why a step of a program fails. -/
inductive GcPanic where
  | assertion
  | tooManyReferences
  | alreadyBorrowed
  deriving DecidableEq

/-- A program: the collector with its heap and the threshold for collections, the handles
outside of the heap, and what is logged. -/
structure Mutator (B E W : Type) where
  gc : BoaGc B E W
  threshold : ℕ
  roots : List (Handle B E)
  allocated : List B
  freed : List B
  target : E → Option (B × ℕ)

/-- How much of the threshold may be in use after a collection, in percent. -/
def usedSpacePercentage : ℕ := 70

namespace Mutator

variable [DecidableEq B] [DecidableEq E]

/-- What a program can get at. -/
def Reachable (m : Mutator B E W) : Handle B E → Prop :=
  Liveness.Live (m.gc.graph fun x => x ∈ m.roots)

/-! ### Allocation -/

/-- Run a collection (`Collector::collect`). Finalizing a value drops its handles and does nothing
else. -/
def collect (m : Mutator B E W) : Except GcPanic (Mutator B E W) :=
  match m.gc.collect (.idle B E W) with
  | none => .error .assertion
  | some gc => .ok { m with gc, freed := m.freed ++ gc.dropped }

/-- Run a collection if more is allocated than the threshold, and raise the threshold if most of
it is still in use. -/
def manageState (m : Mutator B E W) : Except GcPanic (Mutator B E W) :=
  if m.threshold < m.gc.bytesAllocated then do
    let m ← m.collect
    if m.threshold / 100 * usedSpacePercentage < m.gc.bytesAllocated then
      return { m with threshold := m.gc.bytesAllocated / usedSpacePercentage * 100 }
    else return m
  else return m

/-- Run a collection if anything is allocated (`force_collect`). -/
def forceCollect (m : Mutator B E W) : Except GcPanic (Mutator B E W) :=
  if 0 < m.gc.bytesAllocated then m.collect else return m

/-- A new box at an address, for a value whose handles were outside. -/
def pushBox (m : Mutator B E W) (node : B) (size : ℕ) (value : GcValue B E) : Mutator B E W :=
  { m with
    gc := { m.gc with
      box := Function.update m.gc.box node ⟨.new, value, size⟩
      strongs := m.gc.strongs ++ [node]
      bytesAllocated := m.gc.bytesAllocated + size }
    roots := .gc node :: m.roots.diff value.visited
    allocated := m.allocated ++ [node] }

/-- A new ephemeron at an address, for a value whose handles were outside. -/
def pushEphemeron (m : Mutator B E W) (eph : E) (size : ℕ)
    (data : Option (B × List (Handle B E))) : Mutator B E W :=
  { m with
    gc := { m.gc with
      ephemeron := Function.update m.gc.ephemeron eph ⟨.new, data, size⟩
      weaks := m.gc.weaks ++ [eph]
      bytesAllocated := m.gc.bytesAllocated + size }
    roots := .ephemeron eph :: m.roots.diff ((data.map Prod.snd).getD [])
    target := Function.update m.target eph
      (data.map fun (key, _) => (key, m.allocated.count key)) }

/-- Allocate a box (`Gc::new`, `alloc_gc`). -/
def gcNew (m : Mutator B E W) (node : B) (size : ℕ) (value : List (Handle B E)) :
    Except GcPanic (Mutator B E W) := do
  let m ← m.manageState
  return m.pushBox node size (.handles value)

/-- Allocate an ephemeron (`Ephemeron::new`, `WeakGc::new`, `alloc_ephemeron`). -/
def ephemeronNew (m : Mutator B E W) (eph : E) (size : ℕ) (key : B)
    (value : List (Handle B E)) : Except GcPanic (Mutator B E W) := do
  let m ← m.manageState
  return m.pushEphemeron eph size (some (key, value))

/-- Allocate an ephemeron for a box that does not exist yet (`Gc::new_cyclic`). -/
def ephemeronEmpty (m : Mutator B E W) (eph : E) (size : ℕ) :
    Except GcPanic (Mutator B E W) := do
  let m ← m.manageState
  return m.pushEphemeron eph size none

/-- The box that an ephemeron was allocated for exists (`EphemeronBox::set`). -/
def set (m : Mutator B E W) (eph : E) (key : B) : Mutator B E W :=
  { m with
    gc := m.gc.setData eph (some (key, []))
    target := Function.update m.target eph (some (key, m.allocated.count key)) }

/-! ### Handles -/

/-- Clone a handle. -/
def clone (m : Mutator B E W) (x : Handle B E) : Except GcPanic (Mutator B E W) :=
  match (m.gc.header x).incRefCount with
  | none => .error .tooManyReferences
  | some header => .ok { m with gc := m.gc.mapHeader x fun _ => header, roots := x :: m.roots }

/-- Drop a handle that is outside of the heap. -/
def drop (m : Mutator B E W) (x : Handle B E) : Mutator B E W :=
  { m with gc := m.gc.decRefCount x, roots := m.roots.erase x }

/-- A handle to the key of an ephemeron, if it has one (`Ephemeron::key`, `WeakGc::upgrade`). -/
def upgrade (m : Mutator B E W) (eph : E) : Except GcPanic (Mutator B E W) :=
  match m.gc.key eph with
  | none => return m
  | some key => m.clone (.gc key)

/-- Move handles between the value of a box and what is outside, so that the value holds
`handles` after it. -/
def write (m : Mutator B E W) (node : B) (handles : List (Handle B E)) : Mutator B E W :=
  { m with
    gc := m.gc.setValue node (.handles handles)
    roots := (m.roots ++ m.gc.content (.gc node)).diff handles }

/-- Move handles between the value of an ephemeron and what is outside. -/
def writeEphemeron (m : Mutator B E W) (eph : E) (handles : List (Handle B E)) :
    Mutator B E W :=
  { m with
    gc := m.gc.setData eph ((m.gc.key eph).map fun key => (key, handles))
    roots := (m.roots ++ m.gc.content (.ephemeron eph)).diff handles }

/-! ### Weak maps -/

/-- The collector gets to know a weak map by an ephemeron of its box. -/
def pushWeakMap [DecidableEq W] (m : Mutator B E W) (map : W) (eph : E) : Mutator B E W :=
  let weakMap := Function.update m.gc.weakMap map eph
  { m with
    gc := { m.gc with weakMaps := m.gc.weakMaps ++ [map], weakMap }
    roots := m.roots.erase (.ephemeron eph) }

/-- Allocate a weak map (`WeakMap::new`, `alloc_weak_map`). -/
def weakMapNew [DecidableEq W] (m : Mutator B E W) (node : B) (size : ℕ) (eph : E)
    (ephSize : ℕ) (map : W) : Except GcPanic (Mutator B E W) := do
  let m ← m.manageState
  let m := m.pushBox node size (.weakMap .unused [])
  let m ← m.ephemeronNew eph ephSize node []
  return m.pushWeakMap map eph

/-- Borrow the table of a weak map for reading. -/
def borrow (m : Mutator B E W) (node : B) : Except GcPanic (Mutator B E W) :=
  match (m.gc.box node).value with
  | .weakMap .writing _ => .error .alreadyBorrowed
  | .weakMap _ table => .ok { m with gc := m.gc.setValue node (.weakMap .reading table) }
  | .handles _ => .ok m

/-- Give back the last of the borrows for reading. -/
def release (m : Mutator B E W) (node : B) : Mutator B E W :=
  match (m.gc.box node).value with
  | .weakMap .reading table => { m with gc := m.gc.setValue node (.weakMap .unused table) }
  | _ => m

/-- The entry of a table for a key (`RawWeakMap::get`). -/
def entry (m : Mutator B E W) (table : List E) (key : B) : Option E :=
  table.find? fun eph => m.gc.key eph = some key

/-- A weak map while its table is borrowed for writing: the entries are outside of the heap. -/
def openTable (m : Mutator B E W) (node : B) (table kept : List E) : Mutator B E W :=
  { m with
    gc := m.gc.setValue node (.weakMap .writing kept)
    roots := m.roots ++ table.map .ephemeron }

/-- A weak map when its table is given back: the entries are in the heap again. -/
def closeTable (m : Mutator B E W) (node : B) (table : List E) : Mutator B E W :=
  { m with
    gc := m.gc.setValue node (.weakMap .unused table)
    roots := m.roots.diff (table.map .ephemeron) }

/-- Put a key with a value into a weak map (`WeakMap::insert`). The new ephemeron is allocated
while the table is borrowed, and an old entry for the key is dropped in the end. -/
def insert (m : Mutator B E W) (node : B) (key : B) (eph : E) (size : ℕ)
    (value : List (Handle B E)) : Except GcPanic (Mutator B E W) :=
  match (m.gc.box node).value with
  | .weakMap .unused table => do
      let old := (m.entry table key).toList
      let kept := table.diff old
      let m ← (m.openTable node table kept).ephemeronNew eph size key value
      let m := m.closeTable node (kept ++ [eph])
      return old.foldl (fun m eph => m.drop (.ephemeron eph)) m
  | _ => .error .alreadyBorrowed

/-- Remove a key from a weak map (`WeakMap::remove`). -/
def remove (m : Mutator B E W) (node : B) (key : B) : Except GcPanic (Mutator B E W) :=
  match (m.gc.box node).value with
  | .weakMap .unused table =>
      let old := (m.entry table key).toList
      let kept := table.diff old
      let m := (m.openTable node table kept).closeTable node kept
      .ok (old.foldl (fun m eph => m.drop (.ephemeron eph)) m)
  | _ => .error .alreadyBorrowed

end Mutator

/-! ### Steps -/

/-- A step of a program. -/
inductive MutatorAction (B E W : Type) where
  | gcNew (node : B) (size : ℕ) (value : List (Handle B E))
  | ephemeronNew (eph : E) (size : ℕ) (key : B) (value : List (Handle B E))
  | ephemeronEmpty (eph : E) (size : ℕ)
  | set (eph : E) (key : B)
  | clone (x : Handle B E)
  | drop (x : Handle B E)
  | upgrade (eph : E)
  | write (node : B) (handles : List (Handle B E))
  | writeEphemeron (eph : E) (handles : List (Handle B E))
  | weakMapNew (node : B) (size : ℕ) (eph : E) (ephSize : ℕ) (map : W)
  | borrow (node : B)
  | release (node : B)
  | insert (node : B) (key : B) (eph : E) (size : ℕ) (value : List (Handle B E))
  | remove (node : B) (key : B)
  | forceCollect

namespace Mutator

variable [DecidableEq B] [DecidableEq E]

/-- **A step of a program.** -/
def perform [DecidableEq W] (m : Mutator B E W) :
    MutatorAction B E W → Except GcPanic (Mutator B E W)
  | .gcNew node size value => m.gcNew node size value
  | .ephemeronNew eph size key value => m.ephemeronNew eph size key value
  | .ephemeronEmpty eph size => m.ephemeronEmpty eph size
  | .set eph key => .ok (m.set eph key)
  | .clone x => m.clone x
  | .drop x => .ok (m.drop x)
  | .upgrade eph => m.upgrade eph
  | .write node handles => .ok (m.write node handles)
  | .writeEphemeron eph handles => .ok (m.writeEphemeron eph handles)
  | .weakMapNew node size eph ephSize map => m.weakMapNew node size eph ephSize map
  | .borrow node => m.borrow node
  | .release node => .ok (m.release node)
  | .insert node key eph size value => m.insert node key eph size value
  | .remove node key => m.remove node key
  | .forceCollect => m.forceCollect

/-- The address of a new box is not in use after the collection that its allocation may run. -/
def FreshBox (m : Mutator B E W) (node : B) : Prop :=
  ∀ m', m.manageState = .ok m' → node ∉ m'.gc.strongs

/-- The address of a new ephemeron is not in use either. -/
def FreshEphemeron (m : Mutator B E W) (eph : E) : Prop :=
  ∀ m', m.manageState = .ok m' → eph ∉ m'.gc.weaks

/-- **What a program may do**: it gets at values through handles that it can reach, gives away
only handles that it owns, and its memory allocator hands out addresses that are not in use. -/
def Allows (m : Mutator B E W) : MutatorAction B E W → Prop
  | .gcNew node _ value => m.FreshBox node ∧ value.Subperm m.roots
  | .ephemeronNew eph _ key value =>
      m.FreshEphemeron eph ∧ m.Reachable (.gc key) ∧ value.Subperm m.roots
  | .ephemeronEmpty eph _ => m.FreshEphemeron eph
  | .set eph key => .ephemeron eph ∈ m.roots ∧ m.target eph = none ∧ .gc key ∈ m.roots
  | .clone x => m.Reachable x
  | .drop x => x ∈ m.roots
  | .upgrade eph => m.Reachable (.ephemeron eph)
  | .write node handles => m.Reachable (.gc node) ∧
      (∃ old, (m.gc.box node).value = .handles old) ∧
      handles.Subperm (m.roots ++ m.gc.content (.gc node))
  | .writeEphemeron eph handles => m.Reachable (.ephemeron eph) ∧
      (∃ key, m.gc.key eph = some key ∧ m.Reachable (.gc key)) ∧
      handles.Subperm (m.roots ++ m.gc.content (.ephemeron eph))
  | .weakMapNew node size eph _ map => m.FreshBox node ∧ map ∉ m.gc.weakMaps ∧
      ∀ m', m.manageState = .ok m' →
        (m'.pushBox node size (.weakMap .unused [])).FreshEphemeron eph
  | .borrow node => m.Reachable (.gc node)
  | .release node => m.Reachable (.gc node)
  | .insert node key eph _ value => m.Reachable (.gc node) ∧ m.Reachable (.gc key) ∧
      value.Subperm m.roots ∧ ∀ table, (m.gc.box node).value = .weakMap .unused table →
        (m.openTable node table (table.diff (m.entry table key).toList)).FreshEphemeron eph
  | .remove node key => m.Reachable (.gc node) ∧ m.Reachable (.gc key)
  | .forceCollect => True

end Mutator

end BoaLigero
