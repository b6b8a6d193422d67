import BoaLigero.Object.InternalMethods
import Mathlib.Logic.Function.Basic

/-!
# Promises

All promises of a program with the jobs they enqueue. A promise is settled through a pair of
resolving functions that share a cell: the first call takes the promise out of the cell, the
others find nothing. A promise that is resolved with an object first reads its `then`, and if it
can be called, a job calls it with a new pair. The code of a program runs in between: when a
`then` is read, in handlers, in executors and thenables, and it may call what it likes at any
time, so a run is any sequence of actions with a stack of what waits for a call to return.

A failed assertion is no result. The reactions that are registered, the jobs that are enqueued,
the promises that are settled and the calls of the rejection tracker are the events of an action,
in the order in which they happen.

The host hooks (the rejection tracker and the callback that wraps a handler) are taken to return
without touching promises: what they do besides is no part of a step. The combinators that call
`then` of other promises are in `Promise.Combinator`.

## Main definitions

* `PromiseSystem.perform` — one action, with its events.
* `PromiseSystem.Allows` — what the code that runs in between is trusted with.
-/

namespace BoaLigero

/-- The current state of a promise. -/
inductive PromiseState (P : Type)
  | pending
  | fulfilled (value : JsValue P)
  | rejected (reason : JsValue P)
deriving DecidableEq

/-- A function object: one of a pair of resolving functions, by their cell, or another one. -/
inductive JsFunction
  | resolve (cell : ℕ)
  | reject (cell : ℕ)
  | other (addr : ℕ)
deriving DecidableEq

/-- A promise with its resolving functions. -/
structure PromiseCapability where
  promise : ℕ
  resolve : JsFunction
  reject : JsFunction
deriving DecidableEq

/-- The type of a reaction. -/
inductive ReactionType
  | fulfill
  | reject
deriving DecidableEq

/-- A reaction: what is called with the result of a promise, and the promise it resolves. -/
structure ReactionRecord where
  promiseCapability : Option PromiseCapability
  reactionType : ReactionType
  handler : Option ℕ
deriving DecidableEq

/-- A pair of reactions that one call of `then` registers. -/
abbrev Reactions := ReactionRecord × ReactionRecord

/-- The internal representation of a promise. -/
structure Promise (P : Type) where
  state : PromiseState P
  fulfillReactions : List ReactionRecord
  rejectReactions : List ReactionRecord
  handled : Bool

/-- A new, pending promise. -/
def Promise.new (P : Type) : Promise P := ⟨.pending, [], [], false⟩

/-- The operation type of the rejection tracker. -/
inductive OperationType
  | reject
  | handle
deriving DecidableEq

/-- A promise job. -/
inductive PromiseJob (P : Type)
  | reaction (reaction : ReactionRecord) (argument : JsValue P)
  | resolveThenable (promiseToResolve : ℕ) (thenable : JsValue P) (thenAction : ℕ)
deriving DecidableEq

/-- What waits for code of the program to return. -/
inductive PromiseFrame (P : Type)
  /-- A resolve function that reads the `then` of the resolution. -/
  | getThen (promise : ℕ) (resolution : JsValue P)
  /-- A reaction job that called its handler. -/
  | handler (promiseCapability : Option PromiseCapability)
  /-- A constructor or a job that passed the resolving functions of a cell. -/
  | resolvers (cell : ℕ)

/-- What happens, in its order. -/
inductive PromiseEvent (P : Type)
  /-- A call of `then` registers reactions for a promise. -/
  | registered (promise : ℕ) (reactions : Reactions)
  /-- A reaction of a promise is enqueued. -/
  | reactionJob (promise : ℕ) (job : PromiseJob P)
  /-- A thenable that a promise is resolved with is enqueued. -/
  | thenableJob (promise : ℕ) (job : PromiseJob P)
  /-- The state of a promise is set. -/
  | settled (promise : ℕ) (state : PromiseState P)
  /-- The host is told that a rejected promise has no handler, or that it got one. -/
  | rejectionTracker (promise : ℕ) (operation : OperationType)

/-- All promises by their addresses, the cells of resolving functions, the queue of jobs and the
stack of what waits. -/
structure PromiseSystem (P : Type) where
  promises : ℕ → Option (Promise P)
  cells : List (Option ℕ)
  jobs : List (PromiseJob P)
  frames : List (PromiseFrame P)

/-- A call that a reaction, a promise or the host makes: its value, its exception, or an error
that cannot be caught. -/
abbrev PromiseCompletion (P : Type) := Option (Except (JsValue P) (JsValue P))

/-- What promises need to know of objects. -/
structure PromiseObjects (P : Type) where
  isCallable : ℕ → Bool
  selfResolutionError : ℕ → JsValue P

namespace PromiseSystem

variable {P : Type} (objects : PromiseObjects P)

/-- No promises. -/
def empty : PromiseSystem P := ⟨fun _ => none, [], [], []⟩

/-- Changes a promise. -/
def setPromise (self : PromiseSystem P) (addr : ℕ) (promise : Promise P) : PromiseSystem P :=
  { self with promises := Function.update self.promises addr (some promise) }

/-- The outcome of a step. -/
abbrev Outcome (P : Type) := PromiseSystem P × List (PromiseEvent P)

/-- Enqueues a job for each reaction (`TriggerPromiseReactions`). -/
def triggerPromiseReactions (self : PromiseSystem P) (addr : ℕ) (reactions : List ReactionRecord)
    (argument : JsValue P) : Outcome P :=
  let jobs := reactions.map fun reaction => PromiseJob.reaction reaction argument
  ({ self with jobs := self.jobs ++ jobs }, jobs.map (.reactionJob addr))

/-- `FulfillPromise`. -/
def fulfillPromise (self : PromiseSystem P) (addr : ℕ) (value : JsValue P) :
    Option (Outcome P) := do
  let promise ← self.promises addr
  match promise.state with
  | .pending =>
      let reactions := promise.fulfillReactions
      let promise := { promise with fulfillReactions := [], rejectReactions := [] }
      let (self, events) := self.triggerPromiseReactions addr reactions value
      return (self.setPromise addr { promise with state := .fulfilled value },
        events ++ [.settled addr (.fulfilled value)])
  | _ => none

/-- `RejectPromise`. -/
def rejectPromise (self : PromiseSystem P) (addr : ℕ) (reason : JsValue P) :
    Option (Outcome P) := do
  let promise ← self.promises addr
  match promise.state with
  | .pending =>
      let reactions := promise.rejectReactions
      let promise := { promise with fulfillReactions := [], rejectReactions := [] }
      let (self, events) := self.triggerPromiseReactions addr reactions reason
      let self := self.setPromise addr { promise with state := .rejected reason }
      let tracked :=
        if promise.handled then [] else [PromiseEvent.rejectionTracker addr .reject]
      return (self, events ++ .settled addr (.rejected reason) :: tracked)
  | _ => none

/-- `CreateResolvingFunctions`: a new cell. -/
def createResolvingFunctions (self : PromiseSystem P) (addr : ℕ) : ℕ × PromiseSystem P :=
  (self.cells.length, { self with cells := self.cells ++ [some addr] })

/-- Takes the promise out of a cell. -/
def take (self : PromiseSystem P) (cell : ℕ) : Option ℕ × PromiseSystem P :=
  ((self.cells[cell]?).join, { self with cells := self.cells.set cell none })

/-- A call of a resolve function, up to reading the `then` of the resolution. -/
def callResolve (self : PromiseSystem P) (cell : ℕ) (resolution : JsValue P) : Option (Outcome P) :=
  match self.take cell with
  | (none, self) => some (self, [])
  | (some addr, self) =>
      match resolution with
      | .object resolved =>
          if resolved = addr then self.rejectPromise addr (objects.selfResolutionError addr)
          else some ({ self with frames := .getThen addr resolution :: self.frames }, [])
      | _ => self.fulfillPromise addr resolution

/-- A call of a resolve function, once the `then` was read. -/
def resolveThen (self : PromiseSystem P) (addr : ℕ) (resolution : JsValue P)
    (result : Except (JsValue P) (JsValue P)) : Option (Outcome P) :=
  match result with
  | .error reason => self.rejectPromise addr reason
  | .ok (.object thenAction) =>
      if objects.isCallable thenAction then
        let job := PromiseJob.resolveThenable addr resolution thenAction
        some ({ self with jobs := self.jobs ++ [job] }, [.thenableJob addr job])
      else self.fulfillPromise addr resolution
  | .ok _ => self.fulfillPromise addr resolution

/-- A call of a reject function. -/
def callReject (self : PromiseSystem P) (cell : ℕ) (reason : JsValue P) : Option (Outcome P) :=
  match self.take cell with
  | (none, self) => some (self, [])
  | (some addr, self) => self.rejectPromise addr reason

/-- A call of a function by a reaction. What another function does are actions of their own. -/
def call (self : PromiseSystem P) (f : JsFunction) (value : JsValue P) : Option (Outcome P) :=
  match f with
  | .resolve cell => self.callResolve objects cell value
  | .reject cell => self.callReject cell value
  | .other _ => some (self, [])

/-- `PerformPromiseThen`. -/
def performPromiseThen (self : PromiseSystem P) (addr : ℕ) (onFulfilled onRejected : Option ℕ)
    (resultCapability : Option PromiseCapability) : Option (Outcome P) := do
  let fulfillReaction : ReactionRecord := ⟨resultCapability, .fulfill, onFulfilled⟩
  let rejectReaction : ReactionRecord := ⟨resultCapability, .reject, onRejected⟩
  let registered := PromiseEvent.registered addr (fulfillReaction, rejectReaction)
  let promise ← self.promises addr
  match promise.state with
  | .pending =>
      let promise :=
        { promise with
          fulfillReactions := promise.fulfillReactions ++ [fulfillReaction]
          rejectReactions := promise.rejectReactions ++ [rejectReaction] }
      return (self.setPromise addr { promise with handled := true }, [registered])
  | .fulfilled value =>
      let job := PromiseJob.reaction fulfillReaction value
      let self := { self with jobs := self.jobs ++ [job] }
      return (self.setPromise addr { promise with handled := true },
        [registered, .reactionJob addr job])
  | .rejected reason =>
      let tracked :=
        if promise.handled then [] else [PromiseEvent.rejectionTracker addr .handle]
      let job := PromiseJob.reaction rejectReaction reason
      let self := { self with jobs := self.jobs ++ [job] }
      return (self.setPromise addr { promise with handled := true },
        registered :: tracked ++ [.reactionJob addr job])

/-- The end of a reaction job, when the result of its handler is known. -/
def finishReaction (self : PromiseSystem P) (promiseCapability : Option PromiseCapability)
    (handlerResult : Except (JsValue P) (JsValue P)) : Option (Outcome P) :=
  match promiseCapability, handlerResult with
  | none, .ok _ => some (self, [])
  | none, .error _ => none
  | some capability, .error value => self.call objects capability.reject value
  | some capability, .ok value => self.call objects capability.resolve value

/-- Runs a job up to its call of a handler or a thenable. -/
def runJob (self : PromiseSystem P) : PromiseJob P → Option (Outcome P)
  | .reaction reaction argument =>
      match reaction.handler, reaction.reactionType with
      | none, .fulfill =>
          self.finishReaction objects reaction.promiseCapability (.ok argument)
      | none, .reject =>
          self.finishReaction objects reaction.promiseCapability (.error argument)
      | some _, _ =>
          some ({ self with frames := .handler reaction.promiseCapability :: self.frames }, [])
  | .resolveThenable promiseToResolve _ _ =>
      let (cell, self) := self.createResolvingFunctions promiseToResolve
      some ({ self with frames := .resolvers cell :: self.frames }, [])

/-- What waits goes on with what a call returned. -/
def resume (self : PromiseSystem P) :
    PromiseFrame P → Except (JsValue P) (JsValue P) → Option (Outcome P)
  | .getThen addr resolution, result => self.resolveThen objects addr resolution result
  | .handler capability, result => self.finishReaction objects capability result
  | .resolvers cell, .error value => self.callReject cell value
  | .resolvers _, .ok _ => some (self, [])

end PromiseSystem

/-- An action of the program, of the host or of the executor of jobs. -/
inductive PromiseAction (P : Type)
  /-- A new promise with its resolving functions. -/
  | newPending (addr : ℕ)
  /-- A new promise whose resolving functions are passed to an executor. -/
  | construct (addr : ℕ)
  | callResolve (cell : ℕ) (resolution : JsValue P)
  | callReject (cell : ℕ) (reason : JsValue P)
  | performThen (addr : ℕ) (onFulfilled onRejected : Option ℕ)
      (resultCapability : Option PromiseCapability)
  /-- The first job of the queue is run. -/
  | runJob
  /-- The executor gives up the jobs that are left. -/
  | clearJobs
  /-- What was called last returns. -/
  | return (completion : PromiseCompletion P)

namespace PromiseSystem

variable {P : Type} (objects : PromiseObjects P)

/-- Performs an action; no result is a failed assertion. -/
def perform (self : PromiseSystem P) : PromiseAction P → Option (Outcome P)
  | .newPending addr =>
      some (((self.setPromise addr (.new P)).createResolvingFunctions addr).2, [])
  | .construct addr =>
      let (cell, self) := (self.setPromise addr (.new P)).createResolvingFunctions addr
      some ({ self with frames := .resolvers cell :: self.frames }, [])
  | .callResolve cell resolution => self.callResolve objects cell resolution
  | .callReject cell reason => self.callReject cell reason
  | .performThen addr onFulfilled onRejected resultCapability =>
      self.performPromiseThen addr onFulfilled onRejected resultCapability
  | .runJob =>
      match self.jobs with
      | [] => some (self, [])
      | job :: jobs => { self with jobs }.runJob objects job
  | .clearJobs => some ({ self with jobs := [] }, [])
  | .return completion =>
      match self.frames, completion with
      | [], _ => some (self, [])
      | _ :: frames, none => some ({ self with frames }, [])
      | frame :: frames, some result => { self with frames }.resume objects frame result

/-- What an action needs: a new promise has a new address, and `then` is performed on a promise.
A reaction that resolves no promise handles rejections, and its handlers do not throw: only the
engine registers such (for `await`, async generators, modules and dynamic imports), with closures
of its own. Code of the program is not restricted, it reaches `then` with a capability only. -/
def Allows (self : PromiseSystem P) : PromiseAction P → Prop
  | .newPending addr | .construct addr => self.promises addr = none
  | .performThen addr _ onRejected resultCapability =>
      self.promises addr ≠ none ∧ (resultCapability = none → onRejected ≠ none)
  | .return (some (.error _)) => ∀ frames, self.frames ≠ .handler none :: frames
  | _ => True

/-- Performs actions one after the other. -/
def performAll (self : PromiseSystem P) : List (PromiseAction P) → Option (Outcome P)
  | [] => some (self, [])
  | action :: actions => do
      let (self, events) ← self.perform objects action
      let (self, rest) ← self.performAll actions
      return (self, events ++ rest)

/-- What a sequence of actions needs. -/
def AllowsAll (self : PromiseSystem P) : List (PromiseAction P) → Prop
  | [] => True
  | action :: actions =>
      self.Allows action ∧
        ∀ self' events, self.perform objects action = some (self', events) →
          self'.AllowsAll actions

end PromiseSystem

end BoaLigero
