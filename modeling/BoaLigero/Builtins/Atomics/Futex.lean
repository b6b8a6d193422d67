import Mathlib.Logic.Function.Basic
import Mathlib.Data.List.Basic
import BoaLigero.Util.Run

/-!
# Wait Lists

`Atomics.wait`, `Atomics.waitAsync` and `Atomics.notify` (`builtins/atomics/futex.rs`): waiters
are nodes of intrusive lists, one list for each address that somebody waits on. All agents
share the lists and enter a critical section to use them; a step is what one agent does
between entering and leaving it.

A waiter is known by the order in which waiters were made. Whether a node is linked is a field
of the node, as it is in the source, and says nothing by itself about the lists. An operation
on a node that is not valid, not in its list, or freed twice gives `none`. The mutex is never
poisoned.

## Main definitions

* `FutexWaiters.notifyMany`, `FutexWaiters.removeWaiter` — the two ways out of a list.
* `FutexWaiters.exec` — the steps of the agents.
-/

namespace BoaLigero

/-- `AtomicsWaitResult`. -/
inductive AtomicsWaitResult where
  | notEqual
  | timedOut
  | ok
  deriving DecidableEq, Repr

/-- What took a waiter out of its list. -/
inductive WaiterRemoval where
  | notified
  | timedOut
  deriving DecidableEq, Repr

/-- What a waiter is to report. -/
def WaiterRemoval.result : WaiterRemoval → AtomicsWaitResult
  | notified => .ok
  | timedOut => .timedOut

/-- `FutexWaiter`, with the state of the call that waits for it. -/
structure FutexWaiter where
  addr : ℕ
  /-- Whether it was made by `wait_async`. -/
  isAsync : Bool
  /-- `link.is_linked()`. -/
  linked : Bool
  /-- How often its condition variable was notified. -/
  signals : ℕ
  /-- Whether `async_data` was not taken yet. -/
  asyncData : Bool
  /-- What was sent to the receiver of an asynchronous waiter. -/
  message : Option AtomicsWaitResult
  /-- The strong references to an asynchronous waiter, other than those of a running step. -/
  references : ℕ
  /-- Whether the call was given a timeout. -/
  hasTimeout : Bool
  /-- Whether the timeout job of an asynchronous waiter is still to run. -/
  timeoutJob : Bool
  /-- Whether `wait` has not returned, or the promise of `wait_async` is not settled. -/
  waiting : Bool
  /-- What was returned, or what the promise was resolved with. -/
  reports : List AtomicsWaitResult
  /-- What took it out of a list, for the record. -/
  removals : List WaiterRemoval
  /-- How often the reference that an asynchronous waiter holds on itself was released, for the
  record. -/
  releases : ℕ
  deriving DecidableEq, Repr

namespace FutexWaiter

/-- `FutexWaiter::new_sync`, already linked. -/
def newSync (addr : ℕ) (hasTimeout : Bool) : FutexWaiter where
  addr
  isAsync := false
  linked := true
  signals := 0
  asyncData := false
  message := none
  references := 0
  hasTimeout
  timeoutJob := false
  waiting := true
  reports := []
  removals := []
  releases := 0

/-- `FutexWaiter::new_async`, already linked; the reference is the list's. -/
def newAsync (addr : ℕ) (hasTimeout : Bool) : FutexWaiter where
  addr
  isAsync := true
  linked := true
  signals := 0
  asyncData := true
  message := none
  references := 1
  hasTimeout
  timeoutJob := hasTimeout
  waiting := true
  reports := []
  removals := []
  releases := 0

/-- What `notify_many` and `remove_waiter` do once the node is out of its list: an asynchronous
waiter is sent its result, and its reference to itself is released. -/
def unlink (w : FutexWaiter) (removal : WaiterRemoval) : Option FutexWaiter :=
  let w := { w with linked := false, removals := w.removals ++ [removal] }
  if w.asyncData then
    if w.references = 0 then none
    else some { w with
      asyncData := false
      references := w.references - 1
      releases := w.releases + 1
      message := some removal.result }
  else some w

/-- `notify_one` on the condition variable. -/
def signal (w : FutexWaiter) : FutexWaiter := { w with signals := w.signals + 1 }

/-- The call returns, or its promise is resolved. -/
def report (w : FutexWaiter) (result : AtomicsWaitResult) : FutexWaiter :=
  { w with waiting := false, reports := w.reports ++ [result] }

/-- Its timeout job has run, or was cancelled. -/
def withoutJob (w : FutexWaiter) : FutexWaiter := { w with timeoutJob := false }

end FutexWaiter

/-- `FutexWaiters`, with all waiters ever made and the shared memory. -/
structure FutexWaiters where
  waiters : ℕ → Option (List ℕ)
  nodes : List FutexWaiter
  memory : ℕ → ℕ

namespace FutexWaiters

/-- Nobody waits. -/
def initial (memory : ℕ → ℕ) : FutexWaiters where
  waiters := fun _ => none
  nodes := []
  memory

variable (s : FutexWaiters)

/-- The waiters that are listed for an address. -/
def listed (addr : ℕ) : List ℕ := (s.waiters addr).getD []

/-- Put a list in the map. -/
def setList (addr : ℕ) (list : Option (List ℕ)) : FutexWaiters :=
  { s with waiters := Function.update s.waiters addr list }

/-- Change a node. -/
def setNode (id : ℕ) (w : FutexWaiter) : FutexWaiters :=
  { s with nodes := s.nodes.set id w }

/-- Drop a list that is empty. -/
def removeIfEmpty (addr : ℕ) : FutexWaiters :=
  if s.waiters addr = some [] then s.setList addr none else s

/-- `FutexWaiters::add_waiter` and `FutexWaiters::add_async_waiter`. -/
def addWaiter (w : FutexWaiter) : FutexWaiters :=
  { s with
    waiters := Function.update s.waiters w.addr (some (s.listed w.addr ++ [s.nodes.length]))
    nodes := s.nodes ++ [w] }

/-- The loop of `notify_many`, with the number of waiters that may still be notified. -/
def notifyLoop (addr maxCount : ℕ) : FutexWaiters → ℕ → Option (ℕ × FutexWaiters)
  | s, 0 => some (maxCount, s.removeIfEmpty addr)
  | s, remaining + 1 =>
      match s.waiters addr with
      | some (id :: rest) =>
          (s.nodes[id]?).bind fun w => (w.signal.unlink .notified).bind fun w =>
            notifyLoop addr maxCount ((s.setList addr (some rest)).setNode id w) remaining
      | _ => some (maxCount - (remaining + 1), s.setList addr none)

/-- `FutexWaiters::notify_many`. -/
def notifyMany (addr maxCount : ℕ) : Option (ℕ × FutexWaiters) :=
  match s.waiters addr with
  | none => some (0, s)
  | some _ => notifyLoop addr maxCount s maxCount

/-- `FutexWaiters::remove_waiter`. -/
def removeWaiter (id : ℕ) : Option FutexWaiters :=
  (s.nodes[id]?).bind fun w =>
    (s.waiters w.addr).bind fun list =>
      if w.linked ∧ id ∈ list then
        (w.unlink .timedOut).map fun w' =>
          ((s.setList w.addr (some (list.erase id))).setNode id w').removeIfEmpty w.addr
      else none

/-- A node reports its result. -/
def reportNode (id : ℕ) (result : AtomicsWaitResult) : Option FutexWaiters :=
  (s.nodes[id]?).map fun w => s.setNode id (w.report result)

/-- A turn of the loop of `wait`; `expired` is what the clock says. The agent goes to sleep
again where neither of the two ways out is open. -/
def waitTurn (id : ℕ) (expired : Bool) : Option FutexWaiters :=
  (s.nodes[id]?).bind fun w =>
    if !w.linked then s.reportNode id .ok
    else if w.hasTimeout && expired then
      (s.removeWaiter id).bind fun s => s.reportNode id .timedOut
    else some s

/-- `wait`: a result that is there at once, or the waiter. -/
def wait (addr check : ℕ) (hasTimeout expired : Bool) :
    Option (Option AtomicsWaitResult × FutexWaiters) :=
  if check ≠ s.memory addr then some (some .notEqual, s)
  else ((s.addWaiter (.newSync addr hasTimeout)).waitTurn s.nodes.length expired).map (none, ·)

/-- `wait_async`, without the promise: a result that is there at once, or the waiter. -/
def waitAsync (addr check : ℕ) (timeout : Option ℕ) :
    Option (Option AtomicsWaitResult × FutexWaiters) :=
  if check ≠ s.memory addr then some (some .notEqual, s)
  else if timeout = some 0 then some (some .timedOut, s)
  else some (none, s.addWaiter (.newAsync addr timeout.isSome))

/-- The timeout job of `wait_async`. -/
def runTimeoutJob (id : ℕ) : Option FutexWaiters :=
  (s.nodes[id]?).bind fun w =>
    -- The weak reference can only be upgraded while the waiter is there.
    if w.references ≠ 0 ∧ w.linked then (s.setNode id w.withoutJob).removeWaiter id
    else some (s.setNode id w.withoutJob)

/-- The job that waits for the result of `wait_async`, once it was sent. -/
def receive (id : ℕ) (result : AtomicsWaitResult) : Option FutexWaiters :=
  (s.nodes[id]?).map fun w => s.setNode id (w.report result).withoutJob

/-- What agents do. -/
inductive Label where
  | wait (addr check : ℕ) (hasTimeout expired : Bool)
  | waitAsync (addr check : ℕ) (timeout : Option ℕ)
  | notify (addr count : ℕ)
  /-- A sleeping agent wakes up, for whatever reason. -/
  | wake (id : ℕ) (expired : Bool)
  | timeoutJob (id : ℕ)
  | receive (id : ℕ) (result : AtomicsWaitResult)
  | store (addr value : ℕ)
  deriving DecidableEq, Repr

/-- When an agent can do it. -/
def Enabled : Label → Prop
  | .wake id _ => ∃ w ∈ s.nodes[id]?, w.isAsync = false ∧ w.waiting = true
  | .timeoutJob id => ∃ w ∈ s.nodes[id]?, w.timeoutJob = true
  | .receive id result => ∃ w ∈ s.nodes[id]?, w.isAsync = true ∧ w.waiting = true ∧
      w.message = some result
  | _ => True

/-- The steps of the agents. -/
def exec : Label → Option FutexWaiters
  | .wait addr check hasTimeout expired => (s.wait addr check hasTimeout expired).map Prod.snd
  | .waitAsync addr check timeout => (s.waitAsync addr check timeout).map Prod.snd
  | .notify addr count => (s.notifyMany addr count).map Prod.snd
  | .wake id expired => s.waitTurn id expired
  | .timeoutJob id => s.runTimeoutJob id
  | .receive id result => s.receive id result
  | .store addr value => some { s with memory := Function.update s.memory addr value }

/-- All interleavings. -/
def system : TransitionSystem FutexWaiters Label where
  init s := ∃ memory, s = initial memory
  step s l s' := s.Enabled l ∧ s.exec l = some s'

end FutexWaiters

end BoaLigero
