import BoaLigero.Builtins.AsyncGenerator.Requests
import Mathlib.Data.List.Basic

/-!
# The Request Queue of an Asynchronous Generator

As long as no call fails, a generator is in one of a few places (`Place`) at each time, which say
what waits, on the stack or for a promise, and whether there are requests. In all places the log is
in order (`Logged`): the requests that were answered are the first, the body was resumed with the
first as well, and the answers are what the body yielded, how it ended, and what a generator that
has no values left answers.

## Main results

* `Logged.completeStep`, `Logged.deliver` — answering the first request, and resuming the body with
  it, keep the log in order.
* `Draining.drainQueue` — draining the queue does not fail, up to its first call.
-/

namespace BoaLigero

namespace AsyncGenerator

variable {V C : Type} {undefined : V} {self : AsyncGenerator V C}

/-- What an operation that drains the queue returns to. -/
inductive Base
  | closing (resumer : Resumer)
  | returnCall
  | job

/-- The frame of who waits for the operation. -/
def Base.frame : Base → AsyncGeneratorFrame V
  | closing resumer => .closing resumer
  | returnCall => .returnCall
  | job => .job

/-- Where a generator is. -/
inductive Place (V : Type)
  | start
  | suspended
  | running (resumer : Resumer)
  | yielding (resumer : Resumer)
  | awaiting
  /-- A request is answered while the queue is drained. -/
  | settling (after : AfterStep) (base : Base)
  | resolving (value : V) (base : Base)
  | returning (value : V)
  | completed

namespace Place

/-- The state in a place. -/
def state : Place V → AsyncGeneratorState
  | start => .suspendedStart
  | suspended => .suspendedYield
  | running _ | yielding _ | awaiting => .executing
  | settling .. | resolving .. | returning _ => .drainingQueue
  | completed => .completed

/-- The frames in a place. -/
def frames : Place V → List (AsyncGeneratorFrame V)
  | running resumer => [.body resumer]
  | yielding resumer => [.completeStep .yield, .body resumer]
  | settling after base => [.completeStep after, base.frame]
  | resolving value base => [.promiseResolve value, base.frame]
  | _ => []

/-- Whether the body has not come to its end. -/
def isOpen : Place V → Bool
  | start | suspended | running _ | yielding _ | awaiting => true
  | _ => false

/-- Whether the body has stopped. -/
def isStopped : Place V → Bool
  | start | suspended | awaiting => true
  | _ => false

/-- Whether the body works on the first request. -/
def isServing : Place V → Bool
  | running _ | awaiting => true
  | _ => false

/-- The stops at which promises are awaited, when the body has stopped so often. -/
def bodyAwaits (stops : ℕ) : Place V → List ℕ
  | awaiting => [stops - 1]
  | _ => []

/-- The returned values that are awaited. -/
def returnAwaits : Place V → List V
  | returning value => [value]
  | _ => []

/-- What is known of the queue in a place. -/
def Queue : Place V → List (AsyncGeneratorRequest V C) → Prop
  | start, queue | suspended, queue | completed, queue => queue = []
  | running _, queue | awaiting, queue => queue ≠ []
  | resolving value _, queue | returning value, queue =>
      queue.head?.map AsyncGeneratorRequest.completion = some (.return value)
  | yielding _, _ => True
  | settling after _, _ => after ≠ .yield

end Place

/-- A generator is in a place. -/
structure At (generator : AsyncGenerator V C) (place : Place V) : Prop where
  state : generator.state = place.state
  frames : generator.frames = place.frames
  queue : place.Queue generator.queue
  bodyAwaits : generator.bodyAwaits = place.bodyAwaits generator.stops
  returnAwaits : generator.returnAwaits = place.returnAwaits
  context : place = .start ∨ place = .suspended →
    generator.context = some (.stopped (generator.stops - 1))
  resumed : place.isOpen = true →
    generator.resumed =
      List.range (if place.isStopped then generator.stops - 1 else generator.stops)
  delivered : place.isOpen = true →
    generator.delivered.length = generator.answers.length + if place.isServing then 1 else 0
  isOpen : place.isOpen = !generator.closed

/-- **The answers of a generator that has no values left**, to requests in their order: a `next`
gets `undefined`, a `throw` its own error, and a `return` what became of its value, which was
awaited. -/
inductive LateAnswers (undefined : V) :
    List (CompletionRecord V) → List (V × Except V V) → List (StepResult V) → Prop
  | nil : LateAnswers undefined [] [] []
  | normal {completions : List (CompletionRecord V)} {awaited : List (V × Except V V)}
      {results : List (StepResult V)} (value : V)
      (rest : LateAnswers undefined completions awaited results) :
      LateAnswers undefined (.normal value :: completions) awaited
        (.resolve undefined true :: results)
  | throw {completions : List (CompletionRecord V)} {awaited : List (V × Except V V)}
      {results : List (StepResult V)} (error : V)
      (rest : LateAnswers undefined completions awaited results) :
      LateAnswers undefined (.throw error :: completions) awaited (.reject error :: results)
  | return {completions : List (CompletionRecord V)} {awaited : List (V × Except V V)}
      {results : List (StepResult V)} (value : V) (result : Except V V)
      (rest : LateAnswers undefined completions awaited results) :
      LateAnswers undefined (.return value :: completions) ((value, result) :: awaited)
        (endResult result :: results)

/-- Late answers go on. -/
theorem LateAnswers.append {completions completions' : List (CompletionRecord V)}
    {awaited awaited' : List (V × Except V V)} {results results' : List (StepResult V)}
    (h : LateAnswers undefined completions awaited results)
    (h' : LateAnswers undefined completions' awaited' results') :
    LateAnswers undefined (completions ++ completions') (awaited ++ awaited')
      (results ++ results') := by
  induction h with
  | nil => exact h'
  | normal value _ ih => exact .normal value ih
  | throw error _ ih => exact .throw error ih
  | «return» value result _ ih => exact .return value result ih

/-- **What requests are answered**: first the values that the body yielded, then how it ended, and
then what a generator answers that has no values left. -/
def Answered (undefined : V) (yielded : List V) (ended : Option (StepResult V))
    (awaited : List (V × Except V V))
    (answers : List (AsyncGeneratorRequest V C × StepResult V)) : Prop :=
  ∃ early late, answers = early ++ late ∧
    early.map Prod.snd = yielded.map (.resolve · false) ++ ended.toList ∧
    LateAnswers undefined (late.map fun answer => answer.1.completion) awaited
      (late.map Prod.snd)

/-- What is true in all places. -/
structure Logged (undefined : V) (generator : AsyncGenerator V C) : Prop where
  stops : 0 < generator.stops
  fifo : generator.requests = generator.answers.map Prod.fst ++ generator.queue
  delivered : generator.delivered <+: generator.requests.map AsyncGeneratorRequest.completion
  resumed : generator.resumed <+: List.range generator.stops
  answered : Answered undefined generator.yielded generator.ended generator.awaited
    generator.answers
  isOpen : generator.closed = false →
    generator.ended = none ∧ generator.awaited = [] ∧
      generator.answers.length = generator.yielded.length

/-- **The invariant of a generator.** -/
structure Inv (undefined : V) (generator : AsyncGenerator V C) : Prop
    extends Logged undefined generator where
  place : ∃ place, generator.At place

/-! ### The log -/

/-- A request that is queued is the last of those that were made. -/
theorem Logged.enqueue (h : Logged undefined self) (request : AsyncGeneratorRequest V C) :
    Logged undefined (self.enqueue request) where
  stops := h.stops
  fifo := by
    change self.requests ++ [request] = _ ++ (self.queue ++ [request])
    rw [h.fifo, List.append_assoc]
    rfl
  delivered := by
    change self.delivered <+: (self.requests ++ [request]).map _
    rw [List.map_append]
    exact h.delivered.trans (List.prefix_append ..)
  resumed := h.resumed
  answered := h.answered
  isOpen := h.isOpen

/-- Whatever is not logged may change, and the body may be closed. -/
theorem Logged.congr (h : Logged undefined self) (state : AsyncGeneratorState)
    (context : Option GeneratorContext) (frames : List (AsyncGeneratorFrame V))
    (bodyAwaits : List ℕ) (returnAwaits : List V) {closed : Bool}
    (hclosed : closed = false → self.closed = false) :
    Logged undefined
      { self with state, context, frames, bodyAwaits, returnAwaits, closed } where
  stops := h.stops
  fifo := h.fifo
  delivered := h.delivered
  resumed := h.resumed
  answered := h.answered
  isOpen hopen := h.isOpen (hclosed hopen)

/-- An answer of a generator that has no values left is the next one. -/
theorem Answered.concat {yielded : List V} {ended : Option (StepResult V)}
    {awaited more : List (V × Except V V)}
    {answers : List (AsyncGeneratorRequest V C × StepResult V)}
    (h : Answered undefined yielded ended awaited answers) {request : AsyncGeneratorRequest V C}
    {result : StepResult V} (hlate : LateAnswers undefined [request.completion] more [result]) :
    Answered undefined yielded ended (awaited ++ more) (answers ++ [(request, result)]) := by
  obtain ⟨early, late, rfl, hearly, hrest⟩ := h
  refine ⟨early, late ++ [(request, result)], List.append_assoc .., hearly, ?_⟩
  rw [List.map_append, List.map_append]
  exact hrest.append hlate

/-- As long as the body has not ended, the answers are what it yielded. -/
theorem Answered.map_snd {yielded : List V} {awaited : List (V × Except V V)}
    {answers : List (AsyncGeneratorRequest V C × StepResult V)}
    (h : Answered undefined yielded none awaited answers)
    (hlength : answers.length = yielded.length) :
    answers.map Prod.snd = yielded.map (.resolve · false) := by
  obtain ⟨early, late, rfl, hearly, -⟩ := h
  rw [Option.toList_none, List.append_nil] at hearly
  have hsame := congrArg List.length hearly
  rw [List.length_map, List.length_map] at hsame
  rw [List.length_append] at hlength
  have hlate : late = [] := List.eq_nil_of_length_eq_zero (by omega)
  rw [hlate, List.append_nil]
  exact hearly

/-- An answer that the body gives is the next one. -/
theorem Logged.answered_concat (h : Logged undefined self) (hopen : self.closed = false)
    (request : AsyncGeneratorRequest V C) (result : StepResult V) {yielded : List V}
    {ended : Option (StepResult V)}
    (hresult : self.yielded.map (StepResult.resolve · false) ++ [result] =
      yielded.map (StepResult.resolve · false) ++ ended.toList) :
    Answered undefined yielded ended self.awaited (self.answers ++ [(request, result)]) := by
  obtain ⟨hended, hawaited, hlength⟩ := h.isOpen hopen
  have hanswers := h.answered
  rw [hended] at hanswers
  refine ⟨self.answers ++ [(request, result)], [], (List.append_nil _).symm, ?_, ?_⟩
  · rw [List.map_append, hanswers.map_snd hlength]
    exact hresult
  · rw [hawaited]
    exact .nil

/-- The first request is answered; what its answer is, is logged as well. -/
theorem Logged.completeStep (h : Logged undefined self) {next : AsyncGeneratorRequest V C}
    {queue : List (AsyncGeneratorRequest V C)} (hqueue : self.queue = next :: queue)
    {result : StepResult V} {state : AsyncGeneratorState} {returnAwaits yielded : List V}
    {ended : Option (StepResult V)} {closed : Bool} {awaited : List (V × Except V V)}
    (hanswered : Answered undefined yielded ended awaited (self.answers ++ [(next, result)]))
    (hopen : closed = false →
      ended = none ∧ awaited = [] ∧ self.answers.length + 1 = yielded.length)
    (frames : List (AsyncGeneratorFrame V)) :
    Logged undefined
      { self with
        state, returnAwaits, yielded, ended, closed, awaited, queue, frames
        answers := self.answers ++ [(next, result)] } where
  stops := h.stops
  fifo := by
    change self.requests = (self.answers ++ [(next, result)]).map Prod.fst ++ queue
    rw [h.fifo, hqueue, List.map_append, List.append_assoc]
    rfl
  delivered := h.delivered
  resumed := h.resumed
  answered := hanswered
  isOpen hclosed := by
    obtain ⟨hended, hawaited, hlength⟩ := hopen hclosed
    exact ⟨hended, hawaited, List.length_append.trans hlength⟩

/-- A request is answered at once. -/
theorem Logged.answer (h : Logged undefined self) (hqueue : self.queue = [])
    (hclosed : self.closed = true) {request : AsyncGeneratorRequest V C}
    {result : StepResult V} (hlate : LateAnswers undefined [request.completion] [] [result]) :
    Logged undefined (self.answer request result) where
  stops := h.stops
  fifo := by
    change self.requests ++ [request] = (self.answers ++ [(request, result)]).map _ ++ self.queue
    rw [h.fifo, hqueue, List.map_append, List.append_nil, List.append_nil]
    rfl
  delivered := by
    change self.delivered <+: (self.requests ++ [request]).map _
    rw [List.map_append]
    exact h.delivered.trans (List.prefix_append ..)
  resumed := h.resumed
  answered := by
    have hanswered := h.answered.concat hlate
    rw [List.append_nil] at hanswered
    exact hanswered
  isOpen hopen := absurd (hclosed.symm.trans hopen) (by decide)

/-- What the body is resumed with is the request after those it was resumed with. -/
theorem Logged.deliver (h : Logged undefined self) {next : AsyncGeneratorRequest V C}
    {queue : List (AsyncGeneratorRequest V C)} (hqueue : self.queue = next :: queue)
    (hlength : self.delivered.length = self.answers.length) :
    self.delivered ++ [next.completion] <+: self.requests.map AsyncGeneratorRequest.completion := by
  obtain ⟨rest, hrest⟩ := h.delivered
  have hsplit : self.requests.map AsyncGeneratorRequest.completion =
      (self.answers.map Prod.fst).map AsyncGeneratorRequest.completion ++
        next.completion :: queue.map AsyncGeneratorRequest.completion := by
    rw [h.fifo, hqueue, List.map_append, List.map_cons]
  rw [hsplit] at hrest ⊢
  have hsame := List.append_inj_left hrest (by rw [List.length_map, List.length_map, hlength])
  rw [hsame]
  exact ⟨queue.map AsyncGeneratorRequest.completion, by rw [List.append_assoc]; rfl⟩

/-! ### Requests -/

/-- A generator that is not suspended and not completed queues a request. -/
theorem Inv.enqueue (h : Logged undefined self) {place : Place V} (hat : self.At place)
    (hplace : place ≠ .start ∧ place ≠ .suspended ∧ place ≠ .completed)
    (request : AsyncGeneratorRequest V C) : Inv undefined (self.enqueue request) where
  toLogged := h.enqueue request
  place := by
    refine ⟨place, { hat with queue := ?_ }⟩
    have hqueue := hat.queue
    change place.Queue (self.queue ++ [request])
    cases place with
    | start => exact absurd rfl hplace.1
    | suspended => exact absurd rfl hplace.2.1
    | completed => exact absurd rfl hplace.2.2
    | running resumer => exact List.append_ne_nil_of_left_ne_nil hqueue _
    | awaiting => exact List.append_ne_nil_of_left_ne_nil hqueue _
    | yielding resumer => trivial
    | settling after base => exact hqueue
    | resolving value base =>
        obtain ⟨next, hnext, hvalue⟩ := Option.map_eq_some_iff.mp hqueue
        obtain ⟨queue, heq⟩ := List.head?_eq_some_iff.mp hnext
        rw [Place.Queue, heq]
        exact congrArg some hvalue
    | returning value =>
        obtain ⟨next, hnext, hvalue⟩ := Option.map_eq_some_iff.mp hqueue
        obtain ⟨queue, heq⟩ := List.head?_eq_some_iff.mp hnext
        rw [Place.Queue, heq]
        exact congrArg some hvalue

/-- A suspended generator goes on with a request. -/
theorem Inv.resume (h : Logged undefined self) {place : Place V} (hat : self.At place)
    (hplace : place = .start ∨ place = .suspended) (request : AsyncGeneratorRequest V C) :
    ∃ self', (self.enqueue request).resume request.completion = some self' ∧
      Inv undefined self' := by
  have hcontext := hat.context hplace
  have hopen : place.isOpen = true := by rcases hplace with rfl | rfl <;> rfl
  have hqueue : self.queue = [] := by
    have hqueue := hat.queue
    rcases hplace with rfl | rfl <;> exact hqueue
  have hresumed : self.resumed = List.range (self.stops - 1) := by
    rcases hplace with rfl | rfl <;> exact hat.resumed rfl
  have hdelivered : self.delivered.length = self.answers.length := by
    rcases hplace with rfl | rfl <;> exact hat.delivered rfl
  have hframes : self.frames = [] := by
    rcases hplace with rfl | rfl <;> exact hat.frames
  have hstops := h.stops
  have hrange : List.range (self.stops - 1) ++ [self.stops - 1] = List.range self.stops := by
    rw [← List.range_succ]
    exact congrArg List.range (by omega)
  have hlog := h.enqueue request
  have hresume : (self.enqueue request).resume request.completion = some
      { self.enqueue request with
        context := none
        state := .executing
        frames := .body .request :: self.frames
        delivered := self.delivered ++ [request.completion]
        resumed := self.resumed ++ [self.stops - 1] } := by
    have hstate : self.state = .suspendedStart ∨ self.state = .suspendedYield := by
      rcases hplace with rfl | rfl
      · exact .inl hat.state
      · exact .inr hat.state
    rw [AsyncGenerator.resume, show (self.enqueue request).state = self.state from rfl,
      show (self.enqueue request).context = self.context from rfl, hcontext]
    rcases hstate with hstate | hstate
    · rw [hstate]
      rfl
    · rw [hstate]
      rfl
  refine ⟨_, hresume,
    { hlog with delivered := ?_, resumed := ?_, place := ⟨.running .request, ?_⟩ }⟩
  · have hfirst : (self.enqueue request).queue = [request] := by
      rw [AsyncGenerator.enqueue, hqueue]
      rfl
    exact hlog.deliver hfirst hdelivered
  · rw [hresumed, hrange]
    exact List.prefix_rfl
  · exact {
      state := rfl
      frames := by rw [hframes]; rfl
      queue := List.append_ne_nil_of_right_ne_nil _ (List.cons_ne_nil request [])
      bodyAwaits := by rcases hplace with rfl | rfl <;> exact hat.bodyAwaits
      returnAwaits := by rcases hplace with rfl | rfl <;> exact hat.returnAwaits
      context := fun hplace => by rcases hplace with heq | heq <;> cases heq
      resumed := fun _ => by rw [hresumed, hrange]; rfl
      delivered := fun _ => by
        rw [List.length_append, hdelivered]
        rfl
      isOpen := hopen.symm.trans hat.isOpen }

/-! ### Draining the queue -/

/-- A generator that drains its queue, when no call is made. -/
structure Draining (generator : AsyncGenerator V C) (base : Base) : Prop where
  state : generator.state = .drainingQueue
  frames : generator.frames = [base.frame]
  bodyAwaits : generator.bodyAwaits = []
  returnAwaits : generator.returnAwaits = []
  closed : generator.closed = true

variable {base : Base}

/-- An operation that drains the queue returns to whoever called it. -/
theorem finish_of_base (h : self.frames = [base.frame]) :
    ∃ context, self.finish = { self with context, frames := [] } := by
  cases base with
  | closing resumer => exact ⟨some .leftover, by rw [finish, h]; rfl⟩
  | returnCall => exact ⟨self.context, by rw [finish, h]; rfl⟩
  | job => exact ⟨self.context, by rw [finish, h]; rfl⟩

/-- The last request was answered. -/
theorem Draining.complete (h : Logged undefined self) (hd : self.Draining base)
    (hqueue : self.queue = []) : Inv undefined self.complete := by
  have hcomplete : ∃ context, self.complete =
      { self with state := .completed, context, frames := [] } := finish_of_base hd.frames
  obtain ⟨context, heq⟩ := hcomplete
  have hlog := h.congr .completed context [] self.bodyAwaits self.returnAwaits id
  rw [heq]
  exact { hlog with
    place := ⟨.completed, {
      state := rfl
      frames := rfl
      queue := hqueue
      bodyAwaits := hd.bodyAwaits
      returnAwaits := hd.returnAwaits
      context := fun hplace => by rcases hplace with heq | heq <;> cases heq
      resumed := fun hopen => by cases hopen
      delivered := fun hopen => by cases hopen
      isOpen := (congrArg not hd.closed).symm }⟩ }

/-- A request is answered while the queue is drained. -/
theorem Draining.completeStep (hd : self.Draining base) {next : AsyncGeneratorRequest V C}
    {queue : List (AsyncGeneratorRequest V C)} (hqueue : self.queue = next :: queue)
    {result : StepResult V} {after : AfterStep} (hafter : after ≠ .yield)
    (hlog : ∀ frames, Logged undefined
      { self with queue, frames, answers := self.answers ++ [(next, result)] }) :
    ∃ self', self.completeStep result after = some self' ∧ Inv undefined self' := by
  refine ⟨_, by rw [AsyncGenerator.completeStep, hqueue],
    { hlog (.completeStep after :: self.frames) with
      place := ⟨.settling after base, {
        state := hd.state
        frames := congrArg _ hd.frames
        queue := hafter
        bodyAwaits := hd.bodyAwaits
        returnAwaits := hd.returnAwaits
        context := fun hplace => by rcases hplace with heq | heq <;> cases heq
        resumed := fun hopen => by cases hopen
        delivered := fun hopen => by cases hopen
        isOpen := (congrArg not hd.closed).symm }⟩ }⟩

/-- A request gets the answer of a generator that has no values left. -/
theorem Draining.completeLate (h : Logged undefined self) (hd : self.Draining base)
    {next : AsyncGeneratorRequest V C} {queue : List (AsyncGeneratorRequest V C)}
    (hqueue : self.queue = next :: queue) {result : StepResult V}
    (hlate : LateAnswers undefined [next.completion] [] [result]) :
    ∃ self', self.completeStep result .drainQueue = some self' ∧ Inv undefined self' := by
  have hanswered := h.answered.concat hlate
  rw [List.append_nil] at hanswered
  refine hd.completeStep hqueue (by decide) (h.completeStep hqueue hanswered fun hopen => ?_)
  exact absurd (hd.closed.symm.trans hopen) (by decide)

/-- The request that returns a value gets what became of the value. -/
theorem Draining.completeReturn (h : Logged undefined self) {value : V}
    (hqueue : self.queue.head?.map AsyncGeneratorRequest.completion = some (.return value))
    (result : Except V V) {frames : List (AsyncGeneratorFrame V)} {returnAwaits : List V}
    (hd : Draining
      { self with frames, returnAwaits, awaited := self.awaited ++ [(value, result)] } base) :
    ∃ self', AsyncGenerator.completeStep
        { self with frames, returnAwaits, awaited := self.awaited ++ [(value, result)] }
        (endResult result) .awaitReturn = some self' ∧
      Inv undefined self' := by
  obtain ⟨next, hnext, hvalue⟩ := Option.map_eq_some_iff.mp hqueue
  obtain ⟨queue, hqueue⟩ := List.head?_eq_some_iff.mp hnext
  have hlate : LateAnswers undefined [next.completion] [(value, result)] [endResult result] := by
    rw [hvalue]
    exact .return value result .nil
  have hanswered := h.answered.concat hlate
  refine hd.completeStep hqueue (by decide) (h.completeStep hqueue hanswered fun hopen => ?_)
  exact absurd (hd.closed.symm.trans hopen) (by decide)

/-- A returned value is awaited, if the first request returns it. -/
theorem Draining.awaitReturn (h : Logged undefined self) (hd : self.Draining base) {value : V}
    (hqueue : self.queue.head?.map AsyncGeneratorRequest.completion = some (.return value)) :
    ∃ self', self.awaitReturn value = some self' ∧ Inv undefined self' := by
  have hlog := h.congr self.state self.context (.promiseResolve value :: self.frames)
    self.bodyAwaits self.returnAwaits id
  refine ⟨_, if_pos hd.state, { hlog with
    place := ⟨.resolving value base, {
      state := hd.state
      frames := congrArg _ hd.frames
      queue := hqueue
      bodyAwaits := hd.bodyAwaits
      returnAwaits := hd.returnAwaits
      context := fun hplace => by rcases hplace with heq | heq <;> cases heq
      resumed := fun hopen => by cases hopen
      delivered := fun hopen => by cases hopen
      isOpen := (congrArg not hd.closed).symm }⟩ }⟩

/-- A round of the loop. -/
theorem Draining.drainNext (h : Logged undefined self) (hd : self.Draining base)
    {next : AsyncGeneratorRequest V C} {queue : List (AsyncGeneratorRequest V C)}
    (hqueue : self.queue = next :: queue) :
    ∃ self', self.drainNext undefined next.completion = some self' ∧ Inv undefined self' := by
  cases hcompletion : next.completion with
  | normal value => exact hd.completeLate h hqueue (hcompletion ▸ .normal value .nil)
  | throw error => exact hd.completeLate h hqueue (hcompletion ▸ .throw error .nil)
  | «return» value =>
      refine hd.awaitReturn h ?_
      rw [hqueue, ← hcompletion]
      rfl

/-- **Draining the queue** up to its first call. -/
theorem Draining.drainQueue (h : Logged undefined self) (hd : self.Draining base) :
    ∃ self', self.drainQueue undefined = some self' ∧ Inv undefined self' := by
  rw [AsyncGenerator.drainQueue, if_pos hd.state]
  cases hqueue : self.queue with
  | nil => exact ⟨_, rfl, hd.complete h hqueue⟩
  | cons next queue => exact hd.drainNext h hqueue

end AsyncGenerator

end BoaLigero
