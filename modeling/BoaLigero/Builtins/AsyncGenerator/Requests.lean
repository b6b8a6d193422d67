import Mathlib.Data.Nat.Notation

/-!
# Asynchronous Generators

An asynchronous generator (`builtins/async_generator`) with its queue of requests, and the
operations of the virtual machine by which its body yields, awaits and ends. A request is answered
through the capability it came with. To answer is to call a function, and to await a returned value
begins with a call as well; while these calls last, and while the body runs, the code of the program
may do anything, and ask the generator again. So a run is any sequence of actions, with the frames
of what waits for a call to return.

The stops of the body are numbered: a context that was taken at a stop can go on there. A failed
assertion is no result, and so is a context that does not hold the body.

## Errors of calls

A call that answers a request may fail: with an exception (as at the limit of the recursion depth)
or with an error that cannot be caught. The request is gone then, and was not answered. The error
goes to the body if the call was made by a `yield` or at a `return` within the code that handles
exceptions; otherwise it leaves the operation and gets to its caller:

* `AsyncGeneratorResume` asserts that the body does not end with an error,
* a closure of `Await` takes no notice of it,
* `return` throws it to the program,
* in a job, an exception fails an assertion of the reaction of a promise.

A generator that is completed answers `next` and `throw` at once. What these calls do besides are
actions of their own, and if such a call fails, the error is thrown to the program and the generator
stays as it is; the requests that are logged as answered at once are those whose call returned.

## The log

Requests, answers, what the body was resumed with, and where, are logged, what it yielded and how
it ended, and what became of the returned values that were awaited. Nothing reads the log.

## Main definitions

* `AsyncGenerator.perform` — one action.
* `AsyncGenerator.asserts` — the calls whose error fails an assertion.
-/

namespace BoaLigero

/-- The result of an evaluation. -/
inductive CompletionRecord (V : Type)
  | normal (value : V)
  | return (value : V)
  | throw (error : V)
deriving DecidableEq

/-- The state of an asynchronous generator. -/
inductive AsyncGeneratorState
  | suspendedStart
  | suspendedYield
  | executing
  | drainingQueue
  | completed
deriving DecidableEq

/-- A request, with the capability of its promise. -/
structure AsyncGeneratorRequest (V C : Type) where
  completion : CompletionRecord V
  capability : C
deriving DecidableEq

/-- How a request is answered: its promise is rejected, or resolved with an iterator result. -/
inductive StepResult (V : Type)
  | reject (reason : V)
  | resolve (value : V) (done : Bool)
deriving DecidableEq

/-- A context holds the body where it stopped, or what is left when the body went on. -/
inductive GeneratorContext
  | stopped (stop : ℕ)
  | leftover
deriving DecidableEq

/-- Who completed a step, and goes on when the answer is given. -/
inductive AfterStep
  | yield
  | close
  | drainQueue
  | awaitReturn
deriving DecidableEq

/-- Who resumed the body. -/
inductive Resumer
  /-- `AsyncGeneratorResume`, for a request. -/
  | request
  /-- A closure of `Await`. -/
  | await
deriving DecidableEq

/-- What waits for a call to return. -/
inductive AsyncGeneratorFrame (V : Type)
  /-- Whoever resumed the body, while it runs. -/
  | body (resumer : Resumer)
  /-- Whoever resumed the body, when it has come to its end. -/
  | closing (resumer : Resumer)
  /-- The call of `return` that awaits its value. -/
  | returnCall
  /-- The job that the promise of a returned value was settled with. -/
  | job
  /-- The call that answers a request. -/
  | completeStep (after : AfterStep)
  /-- The call that makes a promise of a returned value. -/
  | promiseResolve (value : V)
deriving DecidableEq

/-- How a call fails. -/
inductive CallFailure
  /-- With an exception, and whether it was made where the code of the body handles exceptions. -/
  | throw (covered : Bool)
  /-- With an error that cannot be caught. -/
  | uncatchable
deriving DecidableEq

/-- What becomes of the call that makes a promise of a returned value. -/
inductive PromiseResolved (V : Type)
  | promise
  | threw (error : V)
  /-- The call fails with an error that cannot be caught. -/
  | uncatchable
deriving DecidableEq

/-- An asynchronous generator, with the promises that are awaited for it and the log. -/
structure AsyncGenerator (V C : Type) where
  state : AsyncGeneratorState
  context : Option GeneratorContext
  queue : List (AsyncGeneratorRequest V C)
  frames : List (AsyncGeneratorFrame V)
  /-- The stops at which the body awaits a promise. -/
  bodyAwaits : List ℕ
  /-- The returned values that are awaited. -/
  returnAwaits : List V
  /-- How often the body has stopped, before its beginning included. -/
  stops : ℕ
  requests : List (AsyncGeneratorRequest V C)
  answers : List (AsyncGeneratorRequest V C × StepResult V)
  delivered : List (CompletionRecord V)
  resumed : List ℕ
  yielded : List V
  /-- How the body ended, if it came to its end. -/
  ended : Option (StepResult V)
  /-- Whether the body has come to its end, or was returned from or thrown into before it began. -/
  closed : Bool
  /-- The returned values that were awaited, with what became of them. -/
  awaited : List (V × Except V V)

namespace AsyncGenerator

variable {V C : Type}

/-- A new generator stops before its body. -/
def new (V C : Type) : AsyncGenerator V C where
  state := .suspendedStart
  context := some (.stopped 0)
  queue := []
  frames := []
  bodyAwaits := []
  returnAwaits := []
  stops := 1
  requests := []
  answers := []
  delivered := []
  resumed := []
  yielded := []
  ended := none
  closed := false
  awaited := []

/-! ### The operations of the specification -/

/-- `AsyncGeneratorEnqueue`. -/
def enqueue (self : AsyncGenerator V C) (request : AsyncGeneratorRequest V C) :
    AsyncGenerator V C :=
  { self with queue := self.queue ++ [request], requests := self.requests ++ [request] }

/-- `AsyncGeneratorCompleteStep`, up to the call that answers the request. -/
def completeStep (self : AsyncGenerator V C) (result : StepResult V) (after : AfterStep) :
    Option (AsyncGenerator V C) :=
  match self.queue with
  | [] => none
  | next :: queue =>
      some
        { self with
          queue
          answers := self.answers ++ [(next, result)]
          frames := .completeStep after :: self.frames }

/-- `AsyncGeneratorResume`, up to the run of the body. -/
def resume (self : AsyncGenerator V C) (completion : CompletionRecord V) :
    Option (AsyncGenerator V C) :=
  match self.state, self.context with
  | .suspendedStart, some (.stopped stop) | .suspendedYield, some (.stopped stop) =>
      some
        { self with
          context := none
          state := .executing
          frames := .body .request :: self.frames
          delivered := self.delivered ++ [completion]
          resumed := self.resumed ++ [stop] }
  | _, _ => none

/-- `AsyncGeneratorAwaitReturn`, up to the call that makes a promise of the value. -/
def awaitReturn (self : AsyncGenerator V C) (value : V) : Option (AsyncGenerator V C) :=
  if self.state = .drainingQueue then
    some { self with frames := .promiseResolve value :: self.frames }
  else none

/-- An operation returns to whoever called it. -/
def finish (self : AsyncGenerator V C) : AsyncGenerator V C :=
  match self.frames with
  | .closing _ :: frames => { self with frames, context := some .leftover }
  | .returnCall :: frames | .job :: frames => { self with frames }
  | _ => self

/-- The queue is empty. -/
def complete (self : AsyncGenerator V C) : AsyncGenerator V C :=
  finish { self with state := .completed, context := none }

variable (undefined : V)

/-- A round of the loop of `AsyncGeneratorDrainQueue`, for the first request. -/
def drainNext (self : AsyncGenerator V C) (completion : CompletionRecord V) :
    Option (AsyncGenerator V C) :=
  match completion with
  | .return value => self.awaitReturn value
  | .normal _ => self.completeStep (.resolve undefined true) .drainQueue
  | .throw error => self.completeStep (.reject error) .drainQueue

/-- `AsyncGeneratorDrainQueue`, up to its first call. -/
def drainQueue (self : AsyncGenerator V C) : Option (AsyncGenerator V C) :=
  if self.state = .drainingQueue then
    match self.queue with
    | [] => some self.complete
    | next :: _ => self.drainNext undefined next.completion
  else none

/-! ### Requests -/

/-- A request is answered at once. -/
def answer (self : AsyncGenerator V C) (request : AsyncGeneratorRequest V C)
    (result : StepResult V) : AsyncGenerator V C :=
  { self with
    requests := self.requests ++ [request]
    answers := self.answers ++ [(request, result)] }

/-- `AsyncGenerator.prototype.next` (`inner_next`). -/
def next (self : AsyncGenerator V C) (value : V) (capability : C) :
    Option (AsyncGenerator V C) :=
  let request := ⟨.normal value, capability⟩
  match self.state with
  | .completed => some (self.answer request (.resolve undefined true))
  | .suspendedStart | .suspendedYield => (self.enqueue request).resume request.completion
  | _ => some (self.enqueue request)

/-- `AsyncGenerator.prototype.return` (`inner_return`). -/
def «return» (self : AsyncGenerator V C) (value : V) (capability : C) :
    Option (AsyncGenerator V C) :=
  let request := ⟨.return value, capability⟩
  let generator := self.enqueue request
  match self.state with
  | .suspendedStart | .completed =>
      awaitReturn
        { generator with
          state := .drainingQueue
          frames := .returnCall :: self.frames
          closed := true } value
  | .suspendedYield => generator.resume request.completion
  | _ => some generator

/-- `AsyncGenerator.prototype.throw` (`inner_throw`). -/
def throw (self : AsyncGenerator V C) (error : V) (capability : C) :
    Option (AsyncGenerator V C) :=
  let request := ⟨.throw error, capability⟩
  match self.state with
  | .suspendedStart =>
      some (answer { self with state := .completed, context := none, closed := true } request
        (.reject error))
  | .completed => some (self.answer request (.reject error))
  | .suspendedYield => (self.enqueue request).resume request.completion
  | _ => some (self.enqueue request)

/-! ### The body -/

/-- Whether the body runs, and may act. -/
def bodyRuns (self : AsyncGenerator V C) : Bool :=
  match self.frames with
  | .body _ :: _ => true
  | _ => false

/-- The body yields a value (`AsyncGeneratorYield`), up to the answer. -/
def yield (self : AsyncGenerator V C) (value : V) : Option (AsyncGenerator V C) :=
  completeStep { self with yielded := self.yielded ++ [value] } (.resolve value false) .yield

/-- The body stops, and gives back control. -/
def suspend (self : AsyncGenerator V C) (context : GeneratorContext) : AsyncGenerator V C :=
  { self with frames := self.frames.tail, context := some context, stops := self.stops + 1 }

/-- The body awaits a promise (`Await`). -/
def await (self : AsyncGenerator V C) : AsyncGenerator V C :=
  suspend { self with bodyAwaits := self.bodyAwaits ++ [self.stops] } .leftover

/-- The body goes on after a promise that it awaited. -/
def bodyAwaited (self : AsyncGenerator V C) (stop : ℕ) : AsyncGenerator V C :=
  { self with
    bodyAwaits := self.bodyAwaits.erase stop
    frames := .body .await :: self.frames
    resumed := self.resumed ++ [stop] }

/-- The end of `AsyncGeneratorYield`: the body goes on with the next request, or stops. -/
def afterYield (self : AsyncGenerator V C) : AsyncGenerator V C :=
  match self.queue with
  | next :: _ => { self with delivered := self.delivered ++ [next.completion] }
  | [] => suspend { self with state := .suspendedYield } (.stopped self.stops)

/-- How the last request of a body is answered. -/
def endResult : Except V V → StepResult V
  | .ok value => .resolve value true
  | .error error => .reject error

/-- The body comes to its end (`AsyncGeneratorClose`), at a `return` or behind its code. -/
def close (self : AsyncGenerator V C) (result : Except V V) : Option (AsyncGenerator V C) :=
  match self.frames with
  | .body resumer :: frames =>
      completeStep
        { self with
          state := .drainingQueue
          frames := .closing resumer :: frames
          ended := some (endResult result)
          closed := true } (endResult result) .close
  | _ => some self

/-! ### Calls that return -/

/-- An error leaves an operation and gets to whoever called it. -/
def fail (self : AsyncGenerator V C) (failure : CallFailure) : Option (AsyncGenerator V C) :=
  match self.frames, failure with
  -- The exception is handled in the code of the body, which goes on.
  | .closing resumer :: frames, .throw true => some { self with frames := .body resumer :: frames }
  -- `AsyncGeneratorResume` asserts that the body does not end with an error.
  | .body .request :: _, _ | .closing .request :: _, _ => none
  | .body .await :: frames, _ | .closing .await :: frames, _ =>
      some { self with frames, context := some .leftover }
  | .returnCall :: frames, _ => some { self with frames }
  -- The reaction of a promise asserts that its handler does not throw.
  | .job :: _, .throw _ => none
  | .job :: frames, .uncatchable => some { self with frames }
  | _, _ => some self

/-- A request is answered, and whoever did this goes on, or the call failed. -/
def answered (self : AsyncGenerator V C) (after : AfterStep) :
    Option CallFailure → Option (AsyncGenerator V C)
  | none =>
      match after with
      | .yield => some self.afterYield
      | .close | .awaitReturn => self.drainQueue undefined
      | .drainQueue =>
          match self.queue with
          | [] => some self.complete
          | next :: _ => self.drainNext undefined next.completion
  | some failure =>
      let self := { self with answers := self.answers.dropLast }
      match after, failure with
      -- The exception is that of the `yield`, and the body goes on with it.
      | .yield, .throw _ => some self
      | _, _ => self.fail failure

/-- There is a promise for a returned value, or none can be made. -/
def promised (self : AsyncGenerator V C) (value : V) :
    PromiseResolved V → Option (AsyncGenerator V C)
  | .promise => some (finish { self with returnAwaits := self.returnAwaits ++ [value] })
  | .threw error =>
      completeStep { self with awaited := self.awaited ++ [(value, .error error)] } (.reject error)
        .awaitReturn
  | .uncatchable =>
      -- The request is taken from the queue before its error turns out to have no value.
      match self.queue with
      | [] => none
      | _ :: queue => fail { self with queue } .uncatchable

/-- The promise of a returned value is settled. -/
def returnAwaited (self : AsyncGenerator V C) (index : ℕ) (result : Except V V) :
    Option (AsyncGenerator V C) :=
  match self.returnAwaits[index]? with
  | none => some self
  | some value =>
      if self.state = .drainingQueue then
        completeStep
          { self with
            frames := .job :: self.frames
            returnAwaits := self.returnAwaits.eraseIdx index
            awaited := self.awaited ++ [(value, result)] } (endResult result) .awaitReturn
      else none

end AsyncGenerator

/-- An action of the program, of the body or of a job. -/
inductive AsyncGeneratorAction (V C : Type)
  | next (value : V) (capability : C)
  | return (value : V) (capability : C)
  | throw (error : V) (capability : C)
  | yield (value : V)
  | await
  | close (result : Except V V)
  /-- The body ends with an error that cannot be caught. -/
  | abort
  /-- A promise that the body awaits is settled. -/
  | bodyAwaited (stop : ℕ)
  /-- The promise of a returned value is settled. -/
  | returnAwaited (index : ℕ) (result : Except V V)
  /-- The call that was made last, to answer a request, returns or fails. -/
  | answered (failure : Option CallFailure)
  /-- The call that was made last, to make a promise of a returned value, returns or fails. -/
  | promised (result : PromiseResolved V)

/-- Whether a call fails by which a request is answered, or an error cannot be caught. -/
def AsyncGeneratorAction.fails {V C : Type} : AsyncGeneratorAction V C → Bool
  | .abort | .answered (some _) | .promised .uncatchable => true
  | _ => false

namespace AsyncGenerator

variable {V C : Type} (undefined : V)

/-- **An action**; no result is a failed assertion. -/
def perform (self : AsyncGenerator V C) :
    AsyncGeneratorAction V C → Option (AsyncGenerator V C)
  | .next value capability => self.next undefined value capability
  | .return value capability => self.return value capability
  | .throw error capability => self.throw error capability
  | .yield value => self.yield value
  | .await => some self.await
  | .close result => self.close result
  | .abort => self.fail .uncatchable
  | .bodyAwaited stop => some (self.bodyAwaited stop)
  | .returnAwaited index result => self.returnAwaited index result
  | .answered failure =>
      match self.frames with
      | .completeStep after :: frames => { self with frames }.answered undefined after failure
      | _ => some self
  | .promised result =>
      match self.frames with
      | .promiseResolve value :: frames => { self with frames }.promised value result
      | _ => some self

/-- What an action needs: the body acts while it runs, and promises are settled once. -/
def Allows (self : AsyncGenerator V C) : AsyncGeneratorAction V C → Prop
  | .yield _ | .await | .close _ | .abort => self.bodyRuns = true
  | .bodyAwaited stop => stop ∈ self.bodyAwaits
  | .returnAwaited index _ => index < self.returnAwaits.length
  | _ => True

/-- What an action needs is decided by looking at the frames and at what is awaited. -/
instance (self : AsyncGenerator V C) (action : AsyncGeneratorAction V C) :
    Decidable (self.Allows action) :=
  match action with
  | .yield _ | .await | .close _ | .abort => inferInstanceAs (Decidable (self.bodyRuns = true))
  | .bodyAwaited stop => inferInstanceAs (Decidable (stop ∈ self.bodyAwaits))
  | .returnAwaited index _ => inferInstanceAs (Decidable (index < self.returnAwaits.length))
  | .next .. | .return .. | .throw .. | .answered _ | .promised _ => .isTrue trivial

/-- **The errors that fail an assertion**, by what waits for the operation: an error that ends a
body which was resumed for a request, and an exception in a job. -/
def asserts (self : AsyncGenerator V C) : AsyncGeneratorAction V C → Bool
  | .abort =>
      match self.frames with
      | .body .request :: _ => true
      | _ => false
  | .answered (some failure) =>
      match self.frames, failure with
      | .completeStep .yield :: .body .request :: _, .uncatchable => true
      | .completeStep _ :: .closing .request :: _, .throw false => true
      | .completeStep _ :: .closing .request :: _, .uncatchable => true
      | .completeStep _ :: .job :: _, .throw _ => true
      | _, _ => false
  | .promised .uncatchable =>
      match self.frames with
      | .promiseResolve _ :: .closing .request :: _ => true
      | _ => false
  | _ => false

end AsyncGenerator

end BoaLigero
