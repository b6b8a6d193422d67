import BoaLigero.Gc.Header
import Mathlib.Data.List.Basic
import Mathlib.Logic.Function.Basic

/-!
# The Garbage Collector

The collector (`gc/lib.rs`) with its heap: boxes, ephemerons, and the weak maps it has to
clear. Of a value the collector sees the handles in it, which it goes through three times, to
count those in the heap (`trace_non_roots`), to mark what they lead to (`trace`) and to drop
them (`run_finalizer`). The handles of a value are those that these three visit, which leaves
out what is in a cell that is borrowed for writing. The value of a weak map is a cell with a
table of ephemerons.

The functions act on the whole heap. Recursion over the queue and over the pending ephemerons
is given fuel; nothing is a failed assertion, or the end of the fuel. Which boxes a collection has
finalized and dropped is logged. Finalizers are code of the values, and may do anything to the
heap.

**Upgrades.** For each weak map the collector upgrades a weak pointer, and drops the handle as soon
as it has looked at the box. The handle is left out: the counts are the same before and after. So
is the panic of its increment, which only strikes while a program holds as many handles to one weak
map as `nonRootsMax`, the largest count that cloning a handle allows.
-/

namespace BoaLigero

/-- A handle to a box (`Gc`) or an ephemeron. -/
inductive Handle (B E : Type) where
  | gc (b : B)
  | ephemeron (e : E)
  deriving DecidableEq

/-- How a cell is borrowed (`BorrowState`). -/
inductive BorrowState where
  | unused
  | reading
  | writing
  deriving DecidableEq

/-- The value of a box: some handles, or the table of a weak map. -/
inductive GcValue (B E : Type) where
  | handles (handles : List (Handle B E))
  | weakMap (borrow : BorrowState) (table : List E)

/-- A box (`GcBox`). -/
structure GcBox (B E : Type) where
  header : GcHeader
  value : GcValue B E
  size : ℕ

/-- An ephemeron (`EphemeronBox`): a key and the handles of a value, if the key is alive. -/
structure EphemeronBox (B E : Type) where
  header : GcHeader
  data : Option (B × List (Handle B E))
  size : ℕ

/-- The collector with the heap (`BoaGc`). A weak map is known by an ephemeron of its box. -/
structure BoaGc (B E W : Type) where
  collections : ℕ
  bytesAllocated : ℕ
  strongs : List B
  weaks : List E
  weakMaps : List W
  box : B → GcBox B E
  ephemeron : E → EphemeronBox B E
  weakMap : W → E
  finalized : List B
  dropped : List B

/-- The finalizers of the values in boxes, and of those that were taken out of an ephemeron, of
which the handles are left that are still in the value. -/
structure Finalizer (B E W : Type) where
  box : B → BoaGc B E W → BoaGc B E W
  value : E → List (Handle B E) → BoaGc B E W → BoaGc B E W × List (Handle B E)

/-- What is not reachable (`Unreachables`). -/
structure Unreachables (B E : Type) where
  strong : List B
  weak : List E

variable {B E W : Type}

/-- The handles that are visited in a value. -/
def GcValue.visited : GcValue B E → List (Handle B E)
  | handles hs => hs
  | weakMap .writing _ => []
  | weakMap _ table => table.map .ephemeron

/-- The handles in the value of an ephemeron. -/
def EphemeronBox.visited (eph : EphemeronBox B E) : List (Handle B E) :=
  match eph.data with
  | some (_, value) => value
  | none => []

namespace BoaGc

variable [DecidableEq B] [DecidableEq E]

/-- The header of what a handle leads to. -/
def header (gc : BoaGc B E W) : Handle B E → GcHeader
  | .gc b => (gc.box b).header
  | .ephemeron e => (gc.ephemeron e).header

/-- Write the header of what a handle leads to. -/
def mapHeader (gc : BoaGc B E W) (x : Handle B E) (f : GcHeader → GcHeader) : BoaGc B E W :=
  match x with
  | .gc b =>
      let node := gc.box b
      { gc with box := Function.update gc.box b { node with header := f node.header } }
  | .ephemeron e =>
      let eph := gc.ephemeron e
      { gc with ephemeron := Function.update gc.ephemeron e { eph with header := f eph.header } }

/-- A handle is counted as one in the heap (`trace_non_roots` of a handle). -/
def incNonRootCount (gc : BoaGc B E W) (x : Handle B E) : BoaGc B E W :=
  gc.mapHeader x .incNonRootCount

/-- A handle is dropped (`finalize` of a handle). -/
def decRefCount (gc : BoaGc B E W) (x : Handle B E) : BoaGc B E W := gc.mapHeader x .decRefCount

/-- Whether what a handle leads to is marked. -/
def isMarked (gc : BoaGc B E W) (x : Handle B E) : Bool := (gc.header x).isMarked

/-- Whether there are handles outside the heap. -/
def isRooted (gc : BoaGc B E W) (x : Handle B E) : Bool := (gc.header x).isRooted

/-- Count the handles that are in the heap. -/
def traceNonRoots (gc : BoaGc B E W) : BoaGc B E W :=
  let gc := gc.strongs.foldl
    (fun gc node => (gc.box node).value.visited.foldl incNonRootCount gc) gc
  gc.weaks.foldl (fun gc eph => (gc.ephemeron eph).visited.foldl incNonRootCount gc) gc

end BoaGc

/-- The collector in a mark phase, with the queue of the tracer (`Tracer`). -/
structure Tracing (B E W : Type) where
  gc : BoaGc B E W
  queue : List B

namespace Tracing

variable [DecidableEq B] [DecidableEq E]

/-- A handle is traced: a box is queued, an ephemeron marked. -/
def traceHandle (t : Tracing B E W) : Handle B E → Tracing B E W
  | .gc b => { t with queue := t.queue ++ [b] }
  | .ephemeron e => { t with gc := t.gc.mapHeader (.ephemeron e) .mark }

/-- The handles of a value are traced. -/
def trace (t : Tracing B E W) (handles : List (Handle B E)) : Tracing B E W :=
  handles.foldl traceHandle t

/-- Mark the boxes of the queue and trace what is in them (`trace_until_empty`). -/
def traceUntilEmpty : ℕ → Tracing B E W → Option (Tracing B E W)
  | 0, _ => none
  | fuel + 1, t =>
      match t.queue with
      | [] => some t
      | node :: queue =>
          if t.gc.isMarked (.gc node) then traceUntilEmpty fuel { t with queue }
          else
            let gc := t.gc.mapHeader (.gc node) .mark
            traceUntilEmpty fuel (trace { gc, queue } (gc.box node).value.visited)

/-- More than the boxes that are queued, and all that may be. -/
def fuel (t : Tracing B E W) : ℕ :=
  t.queue.length + (t.gc.strongs.map fun b => (t.gc.box b).value.visited.length).sum + 1

/-- Trace until the queue is empty. -/
def drain (t : Tracing B E W) : Option (Tracing B E W) := traceUntilEmpty t.fuel t

/-- Trace the value of an ephemeron, if it is marked and its key is (`trace` of an
`EphemeronBox`). -/
def traceEphemeron (t : Tracing B E W) (eph : E) : Tracing B E W × Bool :=
  if t.gc.isMarked (.ephemeron eph) then
    match (t.gc.ephemeron eph).data with
    | none => (t, true)
    | some (key, value) =>
        if t.gc.isMarked (.gc key) then (t.trace value, true) else (t, false)
  else (t, false)

/-- The preliminary mark phase: trace from the rooted boxes, and list those that are not
marked so far. -/
def markStrongs : List B → Tracing B E W → Option (Tracing B E W × List B)
  | [], t => some (t, [])
  | node :: nodes, t =>
      if t.gc.isRooted (.gc node) then do
        let t ← drain { t with queue := t.queue ++ [node] }
        markStrongs nodes t
      else do
        let marked := t.gc.isMarked (.gc node)
        let (t, dead) ← markStrongs nodes t
        some (t, if marked then dead else node :: dead)

/-- Mark the rooted ephemerons, trace those whose keys are marked and list the others. -/
def markWeaks : List E → Tracing B E W → Option (Tracing B E W × List E)
  | [], t => some (t, [])
  | eph :: ephs, t => do
      let t :=
        if t.gc.isRooted (.ephemeron eph) then
          { t with gc := t.gc.mapHeader (.ephemeron eph) .mark }
        else t
      let (t, traced) := t.traceEphemeron eph
      let t ← t.drain
      let (t, pending) ← markWeaks ephs t
      some (t, if traced then pending else eph :: pending)

/-- Trace the weak pointers of the live weak maps. The source upgrades the pointer to ask whether
the map is alive; the handle of `upgrade` is gone before the next step. -/
def traceWeakMaps : List W → Tracing B E W → Option (Tracing B E W)
  | [], t => some t
  | w :: ws, t => do
      let eph := t.gc.weakMap w
      let t := if (t.gc.ephemeron eph).data.isSome then t.traceHandle (.ephemeron eph) else t
      let t ← t.drain
      traceWeakMaps ws t

/-- Go through the pending ephemerons and keep those that cannot be traced. -/
def retainPending : List E → Tracing B E W → Option (Tracing B E W × List E)
  | [], t => some (t, [])
  | eph :: ephs, t => do
      let (t, traced) := t.traceEphemeron eph
      let t ← t.drain
      let (t, pending) ← retainPending ephs t
      some (t, if traced then pending else eph :: pending)

/-- Go through the pending ephemerons until none can be traced. -/
def markPending : ℕ → List E → Tracing B E W → Option (Tracing B E W × List E)
  | 0, _, _ => none
  | fuel + 1, pending, t => do
      let (t, pending') ← retainPending pending t
      if pending.length = pending'.length then some (t, pending')
      else markPending fuel pending' t

/-- Mark what is reachable, and list what is not (`mark_heap`). -/
def markHeap (t : Tracing B E W) : Option (Tracing B E W × Unreachables B E) := do
  let (t, strongDead) ← markStrongs t.gc.strongs t
  if t.gc.weaks.isEmpty then
    some (t, { strong := strongDead.filter fun node => !t.gc.isMarked (.gc node), weak := [] })
  else do
    let (t, pending) ← markWeaks t.gc.weaks t
    let t ← traceWeakMaps t.gc.weakMaps t
    let (t, pending) ← markPending (pending.length + 1) pending t
    some (t, { strong := strongDead.filter fun node => !t.gc.isMarked (.gc node), weak := pending })

end Tracing

namespace BoaGc

variable [DecidableEq B] [DecidableEq E]

/-- Finalize a value (`run_finalizer`): its own finalizer runs, and its handles are dropped. -/
def runFinalizer (finalizer : Finalizer B E W) (gc : BoaGc B E W) (node : B) : BoaGc B E W :=
  let gc := finalizer.box node gc
  let gc := { gc with finalized := gc.finalized ++ [node] }
  (gc.box node).value.visited.foldl decRefCount gc

/-- Take the key and the value out of an ephemeron, and drop the value. -/
def finalizeAndClear (finalizer : Finalizer B E W) (gc : BoaGc B E W) (eph : E) : BoaGc B E W :=
  match (gc.ephemeron eph).data with
  | none => gc
  | some (_, value) =>
      let node := { gc.ephemeron eph with data := none }
      let (gc, value) :=
        finalizer.value eph value { gc with ephemeron := Function.update gc.ephemeron eph node }
      value.foldl decRefCount gc

/-- Finalize what is not reachable. -/
def finalize (finalizer : Finalizer B E W) (gc : BoaGc B E W)
    (unreachables : Unreachables B E) : BoaGc B E W :=
  unreachables.weak.foldl (finalizeAndClear finalizer)
    (unreachables.strong.foldl (runFinalizer finalizer) gc)

/-- The header after the sweep. -/
def sweepHeader (h : GcHeader) : GcHeader := h.unmark.resetNonRootCount

/-- Drop the boxes that are not marked, and clear the marks of the others. -/
def sweepStrongs (gc : BoaGc B E W) : List B → BoaGc B E W × List B
  | [] => (gc, [])
  | node :: nodes =>
      if gc.isMarked (.gc node) then
        let (gc, kept) := sweepStrongs (gc.mapHeader (.gc node) sweepHeader) nodes
        (gc, node :: kept)
      else
        sweepStrongs
          { gc with
            bytesAllocated := gc.bytesAllocated - (gc.box node).size
            dropped := gc.dropped ++ [node] } nodes

/-- Drop the ephemerons that are not marked, and clear the marks of the others. -/
def sweepWeaks (gc : BoaGc B E W) : List E → BoaGc B E W × List E
  | [] => (gc, [])
  | eph :: ephs =>
      if gc.isMarked (.ephemeron eph) then
        let (gc, kept) := sweepWeaks (gc.mapHeader (.ephemeron eph) sweepHeader) ephs
        (gc, eph :: kept)
      else
        sweepWeaks { gc with bytesAllocated := gc.bytesAllocated - (gc.ephemeron eph).size } ephs

/-- Drop what is not marked (`sweep`). -/
def sweep (gc : BoaGc B E W) : BoaGc B E W :=
  let (gc, strongs) := gc.sweepStrongs gc.strongs
  let gc := { gc with strongs }
  let (gc, weaks) := gc.sweepWeaks gc.weaks
  { gc with weaks }

/-- Whether an ephemeron has a value. -/
def hasValue (gc : BoaGc B E W) (eph : E) : Bool := (gc.ephemeron eph).data.isSome

/-- The key of an ephemeron (`upgrade` of a weak pointer), if it has one. -/
def key (gc : BoaGc B E W) (eph : E) : Option B := (gc.ephemeron eph).data.map Prod.fst

/-- Remove the ephemerons without a value from a weak map, if it is not borrowed
(`clear_dead_entries`). -/
def clearDeadEntries (gc : BoaGc B E W) (w : W) : BoaGc B E W :=
  match gc.key (gc.weakMap w) with
  | none => gc
  | some map =>
      match (gc.box map).value with
      | .weakMap .unused table =>
          let value := .weakMap .unused (table.filter gc.hasValue)
          ((table.filter fun eph => !gc.hasValue eph).map .ephemeron).foldl decRefCount
            { gc with box := Function.update gc.box map { gc.box map with value } }
      | _ => gc

/-- Clear the weak maps that are alive, and drop the others. The source upgrades the pointer to each
of them twice, to ask whether it is alive and to get at its table. -/
def clearWeakMaps (gc : BoaGc B E W) : List W → BoaGc B E W × List W
  | [] => (gc, [])
  | w :: ws =>
      if (gc.key (gc.weakMap w)).isSome then
        let (gc, kept) := clearWeakMaps (gc.clearDeadEntries w) ws
        (gc, w :: kept)
      else clearWeakMaps (gc.decRefCount (.ephemeron (gc.weakMap w))) ws

/-- If anything is not reachable, finalize it and mark again. -/
def finalizeAndMark (finalizer : Finalizer B E W) (gc : BoaGc B E W)
    (unreachables : Unreachables B E) : Option (BoaGc B E W) :=
  if !unreachables.strong.isEmpty || !unreachables.weak.isEmpty then do
    let (t, _) ← Tracing.markHeap { gc := finalize finalizer gc unreachables, queue := [] }
    some t.gc
  else some gc

/-- Run a collection on the full heap (`Collector::collect`). -/
def collect (finalizer : Finalizer B E W) (gc : BoaGc B E W) : Option (BoaGc B E W) := do
  let gc := traceNonRoots
    { gc with collections := gc.collections + 1, finalized := [], dropped := [] }
  let (t, unreachables) ← Tracing.markHeap { gc, queue := [] }
  if t.queue.isEmpty then
    let gc ← finalizeAndMark finalizer t.gc unreachables
    let gc := gc.sweep
    let (gc, weakMaps) := gc.clearWeakMaps gc.weakMaps
    some { gc with weakMaps }
  else none

end BoaGc

end BoaLigero
