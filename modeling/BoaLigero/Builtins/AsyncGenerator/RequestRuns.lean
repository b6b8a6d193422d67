import BoaLigero.Builtins.AsyncGenerator.RequestQueue
import BoaLigero.Util.Run

/-!
# Runs of an Asynchronous Generator

However the program, the body and the jobs take turns, and whatever is asked of the generator while
it answers: as long as the calls that answer requests return, and no error occurs that cannot be
caught, the assertions hold, requests are answered in their order, each exactly once, and a request
that is not answered yet is never forgotten. A call that fails may fail an assertion, and it is said
which ones do.

## Main results

* `Inv.perform` — an action that is allowed keeps the invariant, unless a call fails.
* `perform_eq_none_iff` — after a run in which no call failed, an assertion fails exactly for the
  errors of `asserts`.
* `answers_of_run` — what the requests are answered, and what the body is resumed with.
* `waits_of_run` — there is always something that a request waits for.
-/

namespace BoaLigero

namespace AsyncGenerator

variable {V C : Type} {undefined : V} {self : AsyncGenerator V C}

/-! ### What the program asks -/

/-- An open generator has no end. -/
theorem At.closed_eq_false {place : Place V} (hat : self.At place) (hopen : place.isOpen = true) :
    self.closed = false := by
  have hclosed := hat.isOpen
  rw [hopen] at hclosed
  simpa using hclosed.symm

/-- A generator that is not open has come to its end. -/
theorem At.closed_eq_true {place : Place V} (hat : self.At place) (hopen : place.isOpen = false) :
    self.closed = true := by
  have hclosed := hat.isOpen
  rw [hopen] at hclosed
  simpa using hclosed.symm

/-- A generator that is completed answers at once. -/
theorem Inv.answer (h : Logged undefined self) (hat : self.At .completed)
    {request : AsyncGeneratorRequest V C} {result : StepResult V}
    (hlate : LateAnswers undefined [request.completion] [] [result]) :
    Inv undefined (self.answer request result) := by
  have hlog := h.answer hat.queue (hat.closed_eq_true rfl) hlate
  exact { hlog with
    place := ⟨.completed, {
      state := hat.state
      frames := hat.frames
      queue := hat.queue
      bodyAwaits := hat.bodyAwaits
      returnAwaits := hat.returnAwaits
      context := fun hplace => by rcases hplace with heq | heq <;> cases heq
      resumed := fun hopen => by cases hopen
      delivered := fun hopen => by cases hopen
      isOpen := hat.isOpen }⟩ }

/-- A request that a running or a draining generator gets is queued. -/
theorem At.state_of_ne {place : Place V} (hat : self.At place)
    (hplace : place ≠ .start ∧ place ≠ .suspended ∧ place ≠ .completed) :
    self.state = .executing ∨ self.state = .drainingQueue := by
  rw [hat.state]
  cases place with
  | start => exact absurd rfl hplace.1
  | suspended => exact absurd rfl hplace.2.1
  | completed => exact absurd rfl hplace.2.2
  | running resumer => exact .inl rfl
  | yielding resumer => exact .inl rfl
  | awaiting => exact .inl rfl
  | settling after base => exact .inr rfl
  | resolving value base => exact .inr rfl
  | returning value => exact .inr rfl

/-- The places where a request is not queued. -/
theorem Place.cases_quiet (place : Place V) : place = .start ∨ place = .suspended ∨
    place = .completed ∨ place ≠ .start ∧ place ≠ .suspended ∧ place ≠ .completed := by
  cases place <;> simp

/-- A call of `next` keeps the invariant, wherever the generator is. -/
theorem Inv.next (h : Inv undefined self) (value : V) (capability : C) :
    ∃ self', self.next undefined value capability = some self' ∧ Inv undefined self' := by
  obtain ⟨hlog, place, hat⟩ := h
  have hstate := hat.state
  rw [AsyncGenerator.next]
  rcases place.cases_quiet with rfl | rfl | rfl | hplace
  · rw [hstate]
    exact Inv.resume hlog hat (.inl rfl) ⟨.normal value, capability⟩
  · rw [hstate]
    exact Inv.resume hlog hat (.inr rfl) ⟨.normal value, capability⟩
  · rw [hstate]
    exact ⟨_, rfl, Inv.answer hlog hat (.normal value .nil)⟩
  · have henqueue := Inv.enqueue hlog hat hplace ⟨.normal value, capability⟩
    rcases hat.state_of_ne hplace with hstate | hstate
    · rw [hstate]
      exact ⟨_, rfl, henqueue⟩
    · rw [hstate]
      exact ⟨_, rfl, henqueue⟩

/-- A call of `throw` keeps the invariant, wherever the generator is. -/
theorem Inv.throw (h : Inv undefined self) (error : V) (capability : C) :
    ∃ self', self.throw error capability = some self' ∧ Inv undefined self' := by
  obtain ⟨hlog, place, hat⟩ := h
  have hstate := hat.state
  rw [AsyncGenerator.throw]
  rcases place.cases_quiet with rfl | rfl | rfl | hplace
  · -- A generator that has not started is completed, and answers like that.
    rw [hstate]
    have hdone := hlog.congr .completed none self.frames self.bodyAwaits self.returnAwaits
      (fun hopen : true = false => absurd hopen (by decide))
    refine ⟨_, rfl, Inv.answer hdone ⟨rfl, hat.frames, hat.queue, hat.bodyAwaits,
      hat.returnAwaits, fun hplace => ?_, fun hopen => ?_, fun hopen => ?_, rfl⟩
      (.throw error .nil)⟩
    · rcases hplace with heq | heq <;> cases heq
    · cases hopen
    · cases hopen
  · rw [hstate]
    exact Inv.resume hlog hat (.inr rfl) ⟨.throw error, capability⟩
  · rw [hstate]
    exact ⟨_, rfl, Inv.answer hlog hat (.throw error .nil)⟩
  · have henqueue := Inv.enqueue hlog hat hplace ⟨.throw error, capability⟩
    rcases hat.state_of_ne hplace with hstate | hstate
    · rw [hstate]
      exact ⟨_, rfl, henqueue⟩
    · rw [hstate]
      exact ⟨_, rfl, henqueue⟩

/-- A generator without requests awaits the value of the first. -/
theorem Inv.awaitFirst (h : Logged undefined self) (hqueue : self.queue = [])
    (hframes : self.frames = []) (hbody : self.bodyAwaits = []) (hreturns : self.returnAwaits = [])
    (value : V) (capability : C) :
    ∃ self', awaitReturn { self.enqueue ⟨.return value, capability⟩ with
      state := .drainingQueue, frames := .returnCall :: self.frames, closed := true } value =
        some self' ∧ Inv undefined self' := by
  have hlog := (h.enqueue ⟨.return value, capability⟩).congr .drainingQueue self.context
    (.returnCall :: self.frames) self.bodyAwaits self.returnAwaits
    (fun hopen : true = false => absurd hopen (by decide))
  have hdraining : Draining { self.enqueue ⟨.return value, capability⟩ with
      state := .drainingQueue, frames := .returnCall :: self.frames, closed := true }
      .returnCall := ⟨rfl, congrArg _ hframes, hbody, hreturns, rfl⟩
  refine hdraining.awaitReturn hlog ?_
  change ((self.queue ++ [_]).head?.map _) = _
  rw [hqueue]
  rfl

/-- A call of `return` keeps the invariant, wherever the generator is. -/
theorem Inv.return (h : Inv undefined self) (value : V) (capability : C) :
    ∃ self', self.return value capability = some self' ∧ Inv undefined self' := by
  obtain ⟨hlog, place, hat⟩ := h
  have hstate := hat.state
  rw [AsyncGenerator.return]
  rcases place.cases_quiet with rfl | rfl | rfl | hplace
  · rw [hstate]
    exact Inv.awaitFirst hlog hat.queue hat.frames hat.bodyAwaits hat.returnAwaits value capability
  · rw [hstate]
    exact Inv.resume hlog hat (.inr rfl) ⟨.return value, capability⟩
  · rw [hstate]
    exact Inv.awaitFirst hlog hat.queue hat.frames hat.bodyAwaits hat.returnAwaits value capability
  · have henqueue := Inv.enqueue hlog hat hplace ⟨.return value, capability⟩
    rcases hat.state_of_ne hplace with hstate | hstate
    · rw [hstate]
      exact ⟨_, rfl, henqueue⟩
    · rw [hstate]
      exact ⟨_, rfl, henqueue⟩

/-! ### What the body does -/

/-- The body runs in one place only. -/
theorem At.running_of_bodyRuns {place : Place V} (hat : self.At place)
    (hbody : self.bodyRuns = true) : ∃ resumer, place = .running resumer := by
  rw [bodyRuns, hat.frames] at hbody
  cases place with
  | running resumer => exact ⟨resumer, rfl⟩
  | start => cases hbody
  | suspended => cases hbody
  | yielding resumer => cases hbody
  | awaiting => cases hbody
  | settling after base => cases hbody
  | resolving value base => cases hbody
  | returning value => cases hbody
  | completed => cases hbody

/-- A body that yields a value answers the first request with it. -/
theorem Inv.yield (h : Inv undefined self) (hbody : self.bodyRuns = true) (value : V) :
    ∃ self', self.yield value = some self' ∧ Inv undefined self' := by
  obtain ⟨hlog, place, hat⟩ := h
  obtain ⟨resumer, rfl⟩ := hat.running_of_bodyRuns hbody
  obtain ⟨next, queue, hqueue⟩ := List.exists_cons_of_ne_nil hat.queue
  have hclosed := hat.closed_eq_false rfl
  obtain ⟨hended, hawaited, hlength⟩ := hlog.isOpen hclosed
  have hanswered : Answered undefined (self.yielded ++ [value]) self.ended self.awaited
      (self.answers ++ [(next, .resolve value false)]) := by
    refine hlog.answered_concat hclosed next _ ?_
    rw [hended, List.map_append, Option.toList_none, List.append_nil]
    rfl
  have hlog : Logged undefined
      { self with
        yielded := self.yielded ++ [value]
        queue := queue
        frames := .completeStep .yield :: self.frames
        answers := self.answers ++ [(next, .resolve value false)] } :=
    hlog.completeStep hqueue hanswered
      (fun _ => ⟨hended, hawaited, by rw [hlength, List.length_append]; rfl⟩) _
  refine ⟨_, by rw [AsyncGenerator.yield, AsyncGenerator.completeStep, hqueue], { hlog with
    place := ⟨.yielding resumer, {
      state := hat.state
      frames := congrArg _ hat.frames
      queue := trivial
      bodyAwaits := hat.bodyAwaits
      returnAwaits := hat.returnAwaits
      context := fun hplace => by rcases hplace with heq | heq <;> cases heq
      resumed := fun _ => hat.resumed rfl
      delivered := fun _ => by
        rw [List.length_append]
        exact hat.delivered rfl
      isOpen := hat.isOpen }⟩ }⟩

/-- The body stops once more. -/
theorem Logged.stop (h : Logged undefined self) (state : AsyncGeneratorState)
    (context : Option GeneratorContext) (frames : List (AsyncGeneratorFrame V))
    (bodyAwaits : List ℕ) :
    Logged undefined
      { self with state, context, frames, bodyAwaits, stops := self.stops + 1 } where
  stops := Nat.succ_pos _
  fifo := h.fifo
  delivered := h.delivered
  resumed := h.resumed.trans (by
    rw [List.range_succ]
    exact List.prefix_append ..)
  answered := h.answered
  isOpen := h.isOpen

/-- A body that awaits a promise stops, and the first request waits with it. -/
theorem Inv.await (h : Inv undefined self) (hbody : self.bodyRuns = true) :
    Inv undefined self.await := by
  obtain ⟨hlog, place, hat⟩ := h
  obtain ⟨resumer, rfl⟩ := hat.running_of_bodyRuns hbody
  have hawaits : self.bodyAwaits = [] := hat.bodyAwaits
  have hlog := hlog.stop self.state (some .leftover) self.frames.tail
    (self.bodyAwaits ++ [self.stops])
  exact { hlog with
    place := ⟨.awaiting, {
      state := hat.state
      frames := congrArg List.tail hat.frames
      queue := hat.queue
      bodyAwaits := by
        change self.bodyAwaits ++ [self.stops] = [self.stops + 1 - 1]
        rw [hawaits]
        rfl
      returnAwaits := hat.returnAwaits
      context := fun hplace => by rcases hplace with heq | heq <;> cases heq
      resumed := fun _ => hat.resumed rfl
      delivered := fun _ => hat.delivered rfl
      isOpen := hat.isOpen }⟩ }

/-- A body goes on behind the promise that it awaited, and works on the first request again. -/
theorem Inv.bodyAwaited (h : Inv undefined self) {stop : ℕ} (hstop : stop ∈ self.bodyAwaits) :
    Inv undefined (self.bodyAwaited stop) := by
  obtain ⟨hlog, place, hat⟩ := h
  obtain ⟨rfl, rfl⟩ : place = .awaiting ∧ stop = self.stops - 1 := by
    rw [hat.bodyAwaits] at hstop
    cases place with
    | awaiting => exact ⟨rfl, List.mem_singleton.mp hstop⟩
    | start => cases hstop
    | suspended => cases hstop
    | running resumer => cases hstop
    | yielding resumer => cases hstop
    | settling after base => cases hstop
    | resolving value base => cases hstop
    | returning value => cases hstop
    | completed => cases hstop
  have hstops := hlog.stops
  have hresumed : self.resumed = List.range (self.stops - 1) := hat.resumed rfl
  have hrange : self.resumed ++ [self.stops - 1] = List.range self.stops := by
    rw [hresumed, ← List.range_succ]
    exact congrArg List.range (by omega)
  exact {
    stops := hlog.stops
    fifo := hlog.fifo
    delivered := hlog.delivered
    resumed := ⟨[], by rw [List.append_nil]; exact hrange⟩
    answered := hlog.answered
    isOpen := hlog.isOpen
    place := ⟨.running .await, {
      state := hat.state
      frames := congrArg _ hat.frames
      queue := hat.queue
      bodyAwaits := by
        change self.bodyAwaits.erase _ = []
        rw [hat.bodyAwaits]
        exact List.erase_cons_head ..
      returnAwaits := hat.returnAwaits
      context := fun hplace => by rcases hplace with heq | heq <;> cases heq
      resumed := fun _ => hrange
      delivered := fun _ => hat.delivered rfl
      isOpen := hat.isOpen }⟩ }

/-- A body that comes to its end answers the first request, and the queue is drained. -/
theorem Inv.close (h : Inv undefined self) (hbody : self.bodyRuns = true)
    (result : Except V V) :
    ∃ self', self.close result = some self' ∧ Inv undefined self' := by
  obtain ⟨hlog, place, hat⟩ := h
  obtain ⟨resumer, rfl⟩ := hat.running_of_bodyRuns hbody
  obtain ⟨next, queue, hqueue⟩ := List.exists_cons_of_ne_nil hat.queue
  have hframes : self.frames = [.body resumer] := hat.frames
  have hdraining : Draining { self with
      state := .drainingQueue, frames := [.closing resumer], ended := some (endResult result)
      closed := true } (.closing resumer) :=
    ⟨rfl, rfl, hat.bodyAwaits, hat.returnAwaits, rfl⟩
  have hanswered : Answered undefined self.yielded (some (endResult result)) self.awaited
      (self.answers ++ [(next, endResult result)]) :=
    hlog.answered_concat (hat.closed_eq_false rfl) next _ rfl
  rw [AsyncGenerator.close, hframes]
  exact hdraining.completeStep hqueue (by decide) (hlog.completeStep hqueue hanswered
    (fun hopen : true = false => absurd hopen (by decide)))

/-! ### Calls that return -/

/-- The end of a yield: the body goes on, or stops. -/
theorem Inv.afterYield (h : Logged undefined self) {resumer : Resumer}
    (hat : self.At (.yielding resumer)) :
    Inv undefined (afterYield { self with frames := [.body resumer] }) := by
  have hresumed : self.resumed = List.range self.stops := hat.resumed rfl
  have hdelivered : self.delivered.length = self.answers.length := hat.delivered rfl
  rw [AsyncGenerator.afterYield]
  split
  · next next queue hqueue =>
      exact {
        stops := h.stops
        fifo := h.fifo
        delivered := h.deliver hqueue hdelivered
        resumed := h.resumed
        answered := h.answered
        isOpen := h.isOpen
        place := ⟨.running resumer, {
          state := hat.state
          frames := rfl
          queue := fun hnil => by
            rw [hnil] at hqueue
            cases hqueue
          bodyAwaits := hat.bodyAwaits
          returnAwaits := hat.returnAwaits
          context := fun hplace => by rcases hplace with heq | heq <;> cases heq
          resumed := fun _ => hresumed
          delivered := fun _ => by
            change (self.delivered ++ [next.completion]).length = self.answers.length + 1
            rw [List.length_append, hdelivered]
            rfl
          isOpen := hat.isOpen }⟩ }
  · next hqueue =>
      have hlog := h.stop .suspendedYield (some (.stopped self.stops)) [] self.bodyAwaits
      exact { hlog with
        place := ⟨.suspended, {
          state := rfl
          frames := rfl
          queue := hqueue
          bodyAwaits := hat.bodyAwaits
          returnAwaits := hat.returnAwaits
          context := fun _ => rfl
          resumed := fun _ => hresumed
          delivered := fun _ => hdelivered
          isOpen := hat.isOpen }⟩ }

/-- Requests are answered in two places. -/
theorem At.of_completeStep {place : Place V} (hat : self.At place) {after : AfterStep}
    {frames : List (AsyncGeneratorFrame V)}
    (hframes : self.frames = .completeStep after :: frames) :
    (∃ resumer, after = .yield ∧ frames = [.body resumer] ∧ place = .yielding resumer) ∨
      ∃ base, after ≠ .yield ∧ frames = [Base.frame base] ∧ place = .settling after base := by
  have hplace : place.frames = .completeStep after :: frames := hat.frames.symm.trans hframes
  have hqueue := hat.queue
  cases place with
  | yielding resumer =>
      injection hplace with hafter hrest
      injection hafter with hafter
      exact .inl ⟨resumer, hafter.symm, hrest.symm, rfl⟩
  | settling after' base =>
      injection hplace with hafter hrest
      injection hafter with hafter
      subst hafter
      exact .inr ⟨base, hqueue, hrest.symm, rfl⟩
  | start => cases hplace
  | suspended => cases hplace
  | running resumer => cases hplace
  | awaiting => cases hplace
  | resolving value base => cases hplace
  | returning value => cases hplace
  | completed => cases hplace

/-- Promises of returned values are made in one place. -/
theorem At.of_promiseResolve {place : Place V} (hat : self.At place) {value : V}
    {frames : List (AsyncGeneratorFrame V)}
    (hframes : self.frames = .promiseResolve value :: frames) :
    ∃ base, frames = [Base.frame base] ∧ place = .resolving value base := by
  have hplace : place.frames = .promiseResolve value :: frames := hat.frames.symm.trans hframes
  cases place with
  | resolving value' base =>
      injection hplace with hvalue hrest
      injection hvalue with hvalue
      subst hvalue
      exact ⟨base, hrest.symm, rfl⟩
  | start => cases hplace
  | suspended => cases hplace
  | running resumer => cases hplace
  | yielding resumer => cases hplace
  | awaiting => cases hplace
  | settling after base => cases hplace
  | returning value => cases hplace
  | completed => cases hplace

/-- A place in which the queue is drained, without the call that is made. -/
theorem At.draining {place : Place V} (hat : self.At place) {base : Base}
    (hplace : (∃ after, place = .settling after base) ∨ ∃ value, place = .resolving value base) :
    Draining { self with frames := [base.frame] } base := by
  rcases hplace with ⟨after, rfl⟩ | ⟨value, rfl⟩
  · exact ⟨hat.state, rfl, hat.bodyAwaits, hat.returnAwaits, hat.closed_eq_true rfl⟩
  · exact ⟨hat.state, rfl, hat.bodyAwaits, hat.returnAwaits, hat.closed_eq_true rfl⟩

/-- A call returns by which a request was answered, and whoever made it goes on. -/
theorem Inv.returned (h : Inv undefined self) {after : AfterStep}
    {frames : List (AsyncGeneratorFrame V)}
    (hframes : self.frames = .completeStep after :: frames) :
    ∃ self', AsyncGenerator.answered undefined { self with frames } after none = some self' ∧
      Inv undefined self' := by
  obtain ⟨hlog, place, hat⟩ := h
  rcases hat.of_completeStep hframes with
    ⟨resumer, rfl, rfl, rfl⟩ | ⟨base, hafter, rfl, rfl⟩
  · exact ⟨_, rfl, Inv.afterYield hlog hat⟩
  · have hdraining := hat.draining (.inl ⟨after, rfl⟩)
    have hlog := hlog.congr self.state self.context [base.frame] self.bodyAwaits
      self.returnAwaits id
    cases after with
    | yield => exact absurd rfl hafter
    | close => exact hdraining.drainQueue hlog
    | awaitReturn => exact hdraining.drainQueue hlog
    | drainQueue =>
        rw [AsyncGenerator.answered]
        split
        · next hqueue => exact ⟨_, rfl, hdraining.complete hlog hqueue⟩
        · next next queue hqueue => exact hdraining.drainNext hlog hqueue

/-- A promise of a returned value is made, or none can be, in which case the request is rejected. -/
theorem Inv.promised (h : Inv undefined self) {value : V}
    {frames : List (AsyncGeneratorFrame V)}
    (hframes : self.frames = .promiseResolve value :: frames) {result : PromiseResolved V}
    (hresult : result ≠ .uncatchable) :
    ∃ self', AsyncGenerator.promised { self with frames } value result = some self' ∧
      Inv undefined self' := by
  obtain ⟨hlog, place, hat⟩ := h
  obtain ⟨base, rfl, rfl⟩ := hat.of_promiseResolve hframes
  have hvalue : self.queue.head?.map AsyncGeneratorRequest.completion = some (.return value) :=
    hat.queue
  have hdraining := hat.draining (.inr ⟨value, rfl⟩)
  cases result with
  | uncatchable => exact absurd rfl hresult
  | threw error =>
      exact Draining.completeReturn hlog hvalue (.error error)
        ⟨hdraining.state, rfl, hdraining.bodyAwaits, hdraining.returnAwaits, hdraining.closed⟩
  | promise =>
      have hfinish : ∃ context,
          finish { self with
            frames := [base.frame], returnAwaits := self.returnAwaits ++ [value] } =
          { self with context, frames := [], returnAwaits := self.returnAwaits ++ [value] } :=
        finish_of_base rfl
      obtain ⟨context, heq⟩ := hfinish
      have hlog := hlog.congr self.state context [] self.bodyAwaits
        (self.returnAwaits ++ [value]) id
      refine ⟨_, congrArg some heq, { hlog with
        place := ⟨.returning value, {
          state := hat.state
          frames := rfl
          queue := hvalue
          bodyAwaits := hat.bodyAwaits
          returnAwaits := congrArg (· ++ [value]) hat.returnAwaits
          context := fun hplace => by rcases hplace with heq | heq <;> cases heq
          resumed := fun hopen => by cases hopen
          delivered := fun hopen => by cases hopen
          isOpen := hat.isOpen }⟩ }⟩

/-- A returned value was awaited, and the first request is answered with what became of it. -/
theorem Inv.returnAwaited (h : Inv undefined self) {index : ℕ}
    (hindex : index < self.returnAwaits.length) (result : Except V V) :
    ∃ self', self.returnAwaited index result = some self' ∧ Inv undefined self' := by
  obtain ⟨hlog, place, hat⟩ := h
  have hreturns := hat.returnAwaits
  rw [hreturns] at hindex
  cases place with
  | returning value =>
      obtain rfl : index = 0 := Nat.lt_one_iff.mp hindex
      have hreturns : self.returnAwaits = [value] := hreturns
      have hstate : self.state = .drainingQueue := hat.state
      have hdraining : Draining
          { self with
            frames := .job :: self.frames
            returnAwaits := self.returnAwaits.eraseIdx 0
            awaited := self.awaited ++ [(value, result)] } .job :=
        ⟨hstate, congrArg _ hat.frames, hat.bodyAwaits, by rw [hreturns]; rfl,
          hat.closed_eq_true rfl⟩
      have hget : self.returnAwaits[0]? = some value := by rw [hreturns]; rfl
      simp only [AsyncGenerator.returnAwaited, hget, if_pos hstate]
      exact hdraining.completeReturn hlog hat.queue result
  | start => cases hindex
  | suspended => cases hindex
  | running resumer => cases hindex
  | yielding resumer => cases hindex
  | awaiting => cases hindex
  | settling after base => cases hindex
  | resolving value base => cases hindex
  | completed => cases hindex

/-- **An action that is allowed** keeps the invariant, unless a call fails. -/
theorem Inv.perform (h : Inv undefined self) {action : AsyncGeneratorAction V C}
    (hallow : self.Allows action) (hfails : action.fails = false) :
    ∃ self', self.perform undefined action = some self' ∧ Inv undefined self' := by
  cases action with
  | next value capability => exact h.next value capability
  | «return» value capability => exact h.return value capability
  | throw error capability => exact h.throw error capability
  | yield value => exact h.yield hallow value
  | await => exact ⟨_, rfl, h.await hallow⟩
  | close result => exact h.close hallow result
  | abort => cases hfails
  | bodyAwaited stop => exact ⟨_, rfl, h.bodyAwaited hallow⟩
  | returnAwaited index result => exact h.returnAwaited hallow result
  | answered failure =>
      cases failure with
      | some failure => cases hfails
      | none =>
          rw [AsyncGenerator.perform]
          split
          · next after frames hframes => exact h.returned hframes
          · exact ⟨_, rfl, h⟩
  | promised result =>
      rw [AsyncGenerator.perform]
      split
      · next value frames hframes =>
          exact h.promised hframes fun heq => by
            rw [heq] at hfails
            cases hfails
      · exact ⟨_, rfl, h⟩

/-! ### Calls that fail -/

/-- A call fails by which a request is answered. -/
theorem At.answered_eq_none_iff {place : Place V} (hat : self.At place) (failure : CallFailure) :
    self.perform undefined (.answered (some failure)) = none ↔
      self.asserts (.answered (some failure)) = true := by
  have hframes := hat.frames
  simp only [AsyncGenerator.perform, asserts.eq_def, hframes]
  cases place with
  | yielding resumer =>
      rcases failure with covered | _
      · cases resumer <;> simp [Place.frames, AsyncGenerator.answered]
      · cases resumer <;> simp [Place.frames, AsyncGenerator.answered, fail]
  | settling after base =>
      have hafter : after ≠ .yield := hat.queue
      have hanswered : ∀ self : AsyncGenerator V C,
          self.answered undefined after (some failure) =
            fail { self with answers := self.answers.dropLast } failure := by
        cases after with
        | yield => exact absurd rfl hafter
        | close => exact fun _ => rfl
        | drainQueue => exact fun _ => rfl
        | awaitReturn => exact fun _ => rfl
      simp only [Place.frames, hanswered]
      rcases base with (_ | _) | _ | _ <;> rcases failure with (_ | _) | _ <;>
        simp [Base.frame, fail]
  | start => simp [Place.frames]
  | suspended => simp [Place.frames]
  | running resumer => simp [Place.frames]
  | awaiting => simp [Place.frames]
  | resolving value base => simp [Place.frames]
  | returning value => simp [Place.frames]
  | completed => simp [Place.frames]

/-- The call fails by which a promise of a returned value is made. -/
theorem At.promised_eq_none_iff {place : Place V} (hat : self.At place) :
    self.perform undefined (.promised .uncatchable) = none ↔
      self.asserts (.promised .uncatchable) = true := by
  have hframes := hat.frames
  simp only [AsyncGenerator.perform, asserts.eq_def, hframes]
  cases place with
  | resolving value base =>
      obtain ⟨next, hnext, -⟩ := Option.map_eq_some_iff.mp hat.queue
      obtain ⟨queue, hqueue⟩ := List.head?_eq_some_iff.mp hnext
      rcases base with (_ | _) | _ | _ <;>
        simp [Place.frames, Base.frame, AsyncGenerator.promised, fail, hqueue]
  | start => simp [Place.frames]
  | suspended => simp [Place.frames]
  | running resumer => simp [Place.frames]
  | yielding resumer => simp [Place.frames]
  | awaiting => simp [Place.frames]
  | settling after base => simp [Place.frames]
  | returning value => simp [Place.frames]
  | completed => simp [Place.frames]

/-- **A call fails**: this fails an assertion exactly if it is one of `asserts`. -/
theorem Inv.perform_eq_none_iff_of_fails (h : Inv undefined self)
    {action : AsyncGeneratorAction V C} (hallow : self.Allows action)
    (hfails : action.fails = true) :
    self.perform undefined action = none ↔ self.asserts action = true := by
  obtain ⟨-, place, hat⟩ := h
  cases action with
  | abort =>
      obtain ⟨resumer, rfl⟩ := hat.running_of_bodyRuns hallow
      have hframes : self.frames = [.body resumer] := hat.frames
      simp only [AsyncGenerator.perform, fail.eq_def, asserts.eq_def, hframes]
      cases resumer <;> simp
  | answered failure =>
      cases failure with
      | none => cases hfails
      | some failure => exact hat.answered_eq_none_iff failure
  | promised result =>
      cases result with
      | promise => cases hfails
      | threw error => cases hfails
      | uncatchable => exact hat.promised_eq_none_iff
  | next value capability => cases hfails
  | «return» value capability => cases hfails
  | throw error capability => cases hfails
  | yield value => cases hfails
  | await => cases hfails
  | close result => cases hfails
  | bodyAwaited stop => cases hfails
  | returnAwaited index result => cases hfails

/-! ### Runs -/

/-- **The runs of a generator**: any actions that are allowed. -/
def runs (undefined : V) : TransitionSystem (AsyncGenerator V C) (AsyncGeneratorAction V C) where
  init self := self = .new V C
  step self action self' := self.Allows action ∧ self.perform undefined action = some self'

/-- The calls that answer requests return, and no error occurs that cannot be caught. -/
def Succeeds (_ : AsyncGenerator V C) (action : AsyncGeneratorAction V C) : Prop :=
  action.fails = false

/-- A new generator stops before its body, and nothing is logged. -/
theorem inv_new : Inv undefined (.new V C) where
  stops := Nat.one_pos
  fifo := rfl
  delivered := List.prefix_rfl
  resumed := List.nil_prefix
  answered := ⟨[], [], rfl, rfl, .nil⟩
  isOpen _ := ⟨rfl, rfl, rfl⟩
  place := ⟨.start, rfl, rfl, rfl, rfl, rfl, fun _ => rfl, fun _ => rfl, fun _ => rfl, rfl⟩

/-- The invariant holds after every run in which no call failed. -/
theorem inv_of_run (h : (runs undefined).Run Succeeds self) : Inv undefined self := by
  refine h.invariant (fun self hinit => ?_) fun self action self' hinv hok hstep => ?_
  · obtain rfl : self = .new V C := hinit
    exact inv_new
  · obtain ⟨generator, heq, hinv'⟩ := hinv.perform hstep.1 hok
    rw [hstep.2] at heq
    rw [Option.some.inj heq]
    exact hinv'

/-- **Which assertions fail**, after any run in which no call failed: none, but for the errors that
end a body which was resumed for a request, and for exceptions in a job. -/
theorem perform_eq_none_iff (h : (runs undefined).Run Succeeds self)
    {action : AsyncGeneratorAction V C} (hallow : self.Allows action) :
    (self.perform undefined action = none ↔ self.asserts action = true) ∧
      (action.fails = false → ∃ self', self.perform undefined action = some self') := by
  have hinv := inv_of_run h
  have hsucceeds : action.fails = false →
      ∃ self', self.perform undefined action = some self' := fun hfails => by
    obtain ⟨self', heq, -⟩ := hinv.perform hallow hfails
    exact ⟨self', heq⟩
  refine ⟨?_, hsucceeds⟩
  cases hfails : action.fails with
  | true => exact hinv.perform_eq_none_iff_of_fails hallow hfails
  | false =>
      obtain ⟨self', heq⟩ := hsucceeds hfails
      have hasserts : self.asserts action = false := by
        rw [asserts.eq_def]
        split <;> first | rfl | cases hfails
      rw [heq, hasserts]
      simp

/-- **Requests are answered in order**, each once: those that are answered are the first. The body
is resumed with the requests in their order, and goes on at each of its stops once, in order. The
answers are the values that it yielded, then how it ended, and then what a generator answers that
has no values left; nothing but the first, as long as the body has not come to its end. -/
theorem answers_of_run (h : (runs undefined).Run Succeeds self) :
    self.requests = self.answers.map Prod.fst ++ self.queue ∧
      self.delivered <+: self.requests.map AsyncGeneratorRequest.completion ∧
      self.resumed <+: List.range self.stops ∧
      Answered undefined self.yielded self.ended self.awaited self.answers ∧
      (self.state ≠ .drainingQueue ∧ self.state ≠ .completed →
        self.ended = none ∧ self.awaited = [] ∧ self.answers.length = self.yielded.length) := by
  obtain ⟨hlog, place, hat⟩ := inv_of_run h
  refine ⟨hlog.fifo, hlog.delivered, hlog.resumed, hlog.answered, fun hstate => ?_⟩
  refine hlog.isOpen (hat.closed_eq_false ?_)
  rw [hat.state] at hstate
  cases place with
  | start => rfl
  | suspended => rfl
  | running resumer => rfl
  | yielding resumer => rfl
  | awaiting => rfl
  | settling after base => exact absurd rfl hstate.1
  | resolving value base => exact absurd rfl hstate.1
  | returning value => exact absurd rfl hstate.1
  | completed => exact absurd rfl hstate.2

/-- **No request is forgotten.** As long as a request is not answered, there is exactly one thing
that waits: a call that has to return, with what is below it, the body that awaits a promise, or a
returned value that is awaited. -/
theorem waits_of_run (h : (runs undefined).Run Succeeds self) (hqueue : self.queue ≠ []) :
    (if self.frames = [] then 0 else 1) + self.bodyAwaits.length +
      self.returnAwaits.length = 1 := by
  obtain ⟨-, place, hat⟩ := inv_of_run h
  have hqueue' := hat.queue
  rw [hat.frames, hat.bodyAwaits, hat.returnAwaits]
  cases place with
  | start => exact absurd hqueue' hqueue
  | suspended => exact absurd hqueue' hqueue
  | completed => exact absurd hqueue' hqueue
  | running resumer => rfl
  | yielding resumer => rfl
  | awaiting => rfl
  | settling after base => rfl
  | resolving value base => rfl
  | returning value => rfl

/-! ### A run -/

/-- An action, if it is allowed. -/
def performAllowed (undefined : V) (self : AsyncGenerator V C)
    (action : AsyncGeneratorAction V C) : Option (AsyncGenerator V C) :=
  if self.Allows action then self.perform undefined action else none

/-- A list of actions that are allowed, and in which no call fails, is a run. -/
theorem run_performAll (actions : List (AsyncGeneratorAction V C))
    (h : TransitionSystem.performAll (performAllowed undefined) (fun _ action => !action.fails)
      (.new V C) actions = some self) : (runs undefined).Run Succeeds self := by
  have hstep : ∀ self action self', performAllowed undefined self action = some self' →
      (runs (C := C) undefined).step self action self' := by
    intro self action self' heq
    rw [performAllowed] at heq
    split at heq
    · next hallow => exact ⟨hallow, heq⟩
    · cases heq
  have hrun := TransitionSystem.Run.performAll hstep (.start rfl) h
  exact hrun.mono fun _ action hok => by simpa [Succeeds] using hok

/-- A generator that is asked for a value while it answers, and is closed while it answers again;
the requests of the meantime are answered while the queue is drained. -/
def askedWhileAnswering : List (AsyncGeneratorAction ℕ ℕ) :=
  [.next 1 0, .yield 10, .next 2 1, .answered none, .close (.ok 7), .throw 4 2, .next 6 3,
    .return 5 4, .answered none, .answered none, .answered none, .promised .promise, .next 8 5,
    .returnAwaited 0 (.error 3)]

/-- The generator after this. -/
def answeredLate : AsyncGenerator ℕ ℕ where
  state := .drainingQueue
  context := some .leftover
  queue := [⟨.normal 8, 5⟩]
  frames := [.completeStep .awaitReturn, .job]
  bodyAwaits := []
  returnAwaits := []
  stops := 1
  requests := [⟨.normal 1, 0⟩, ⟨.normal 2, 1⟩, ⟨.throw 4, 2⟩, ⟨.normal 6, 3⟩, ⟨.return 5, 4⟩,
    ⟨.normal 8, 5⟩]
  answers := [(⟨.normal 1, 0⟩, .resolve 10 false), (⟨.normal 2, 1⟩, .resolve 7 true),
    (⟨.throw 4, 2⟩, .reject 4), (⟨.normal 6, 3⟩, .resolve 0 true), (⟨.return 5, 4⟩, .reject 3)]
  delivered := [.normal 1, .normal 2]
  resumed := [0]
  yielded := [10]
  ended := some (.resolve 7 true)
  closed := true
  awaited := [(5, .error 3)]

/-- The generator gets there by a run in which no call failed. -/
theorem run_answeredLate : (runs 0).Run Succeeds answeredLate :=
  run_performAll askedWhileAnswering rfl

/-- An exception of the call that answers the returned value fails an assertion, and the call may
return as well. -/
theorem perform_eq_none_iff_answeredLate :
    answeredLate.perform 0 (.answered (some (.throw false))) = none ∧
      ∃ self', answeredLate.perform 0 (.answered none) = some self' :=
  have hallow : ∀ failure, answeredLate.Allows (.answered failure) := fun _ => trivial
  ⟨(perform_eq_none_iff run_answeredLate (hallow _)).1.mpr rfl,
    (perform_eq_none_iff run_answeredLate (hallow none)).2 rfl⟩

/-- The same generator while its body works on the second request. -/
def resumedTwice : AsyncGenerator ℕ ℕ where
  state := .executing
  context := none
  queue := [⟨.normal 2, 1⟩]
  frames := [.body .request]
  bodyAwaits := []
  returnAwaits := []
  stops := 1
  requests := [⟨.normal 1, 0⟩, ⟨.normal 2, 1⟩]
  answers := [(⟨.normal 1, 0⟩, .resolve 10 false)]
  delivered := [.normal 1, .normal 2]
  resumed := [0]
  yielded := [10]
  ended := none
  closed := false
  awaited := []

/-- The generator gets there by a run in which no call failed. -/
theorem run_resumedTwice : (runs 0).Run Succeeds resumedTwice :=
  run_performAll (askedWhileAnswering.take 4) rfl

/-- Of the five answers one is a yielded value, one the returned one, and three are late. -/
theorem answers_of_run_answeredLate :
    (answeredLate.requests = answeredLate.answers.map Prod.fst ++ answeredLate.queue ∧
      answeredLate.delivered <+:
        answeredLate.requests.map AsyncGeneratorRequest.completion ∧
      answeredLate.resumed <+: List.range 1 ∧
      Answered 0 [10] (some (.resolve 7 true)) [(5, .error 3)] answeredLate.answers) ∧
    resumedTwice.ended = none ∧ resumedTwice.awaited = [] ∧
      resumedTwice.answers.length = resumedTwice.yielded.length := by
  obtain ⟨hfifo, hdelivered, hresumed, hanswered, -⟩ := answers_of_run run_answeredLate
  obtain ⟨-, -, -, -, hopen⟩ := answers_of_run run_resumedTwice
  exact ⟨⟨hfifo, hdelivered, hresumed, hanswered⟩, hopen (by decide)⟩

/-- A call waits to return that has answered a request in a job. -/
theorem waits_of_run_answeredLate : (if answeredLate.frames = [] then 0 else 1) +
    answeredLate.bodyAwaits.length + answeredLate.returnAwaits.length = 1 :=
  waits_of_run run_answeredLate (List.cons_ne_nil _ _)

end AsyncGenerator

end BoaLigero
