import BoaLigero.Builtins.Promise.System
import Mathlib.Data.List.Basic

/-!
# What Holds of Promises in Every Run

A promise that is not settled is held in one place at most: in the cell of its resolving
functions, in a call that reads a `then`, or in the job of a thenable. Only who takes it from
there can settle it, so that it is settled once. What a promise is then follows from the calls of
`then` on it and from how it was settled.

## Main results

* `PromiseSystem.follows_performAll` — in every run no assertion fails, and every promise is what
  its history says: once it is settled, its jobs are those of all reactions registered for it, in
  their order and each once.
* `PromiseSystem.state_performAll` — what is settled stays as it is.
* `PromiseSystem.resolves_of_idle` — a promise that is pending when nothing is left to run is in
  one cell of resolving functions, which do what they are for, unless a call that held the promise
  ended with an error that cannot be caught.
-/

namespace BoaLigero

/-- A step in the life of a promise. -/
inductive PromiseStep (P : Type)
  /-- A call of `then` registers reactions. -/
  | registered (reactions : Reactions)
  /-- The promise is settled. -/
  | settled (state : PromiseState P)

/-- The reactions that a step registers. -/
def PromiseStep.reactions? {P : Type} : PromiseStep P → Option Reactions
  | .registered reactions => some reactions
  | .settled _ => none

/-- The state that a step sets. -/
def PromiseStep.state? {P : Type} : PromiseStep P → Option (PromiseState P)
  | .registered _ => none
  | .settled state => some state

/-- What the rejection tracker is called for, from the reactions that were registered before and
after a promise was rejected: for nothing if it was handled in time, for the rejection if it was
not, and once more when the first reaction is registered after all. -/
def rejectionTracking (before after : List Reactions) : List OperationType :=
  if before ≠ [] then []
  else if after = [] then [.reject]
  else [.reject, .handle]

/-- **What a promise follows from**: the reactions that were registered before it was settled, how
it was settled, and those that were registered afterwards. From them follow what it stores, what
was enqueued and what the tracker was called for. -/
inductive Promise.Follows {P : Type} :
    Promise P → List (PromiseStep P) → List (PromiseJob P) → List OperationType → Prop
  | pending (registered : List Reactions) :
      Follows
        ⟨.pending, registered.map Prod.fst, registered.map Prod.snd, !registered.isEmpty⟩
        (registered.map .registered) [] []
  | fulfilled (before after : List Reactions) (value : JsValue P) :
      Follows ⟨.fulfilled value, [], [], !(before ++ after).isEmpty⟩
        (before.map .registered ++ .settled (.fulfilled value) :: after.map .registered)
        ((before ++ after).map fun r => .reaction r.1 value) []
  | rejected (before after : List Reactions) (reason : JsValue P) :
      Follows ⟨.rejected reason, [], [], !(before ++ after).isEmpty⟩
        (before.map .registered ++ .settled (.rejected reason) :: after.map .registered)
        ((before ++ after).map fun r => .reaction r.2 reason) (rejectionTracking before after)

/-- Steps that register reactions. -/
theorem filterMap_reactions_map {P : Type} (registered : List Reactions) :
    (registered.map PromiseStep.registered).filterMap (PromiseStep.reactions? (P := P)) =
      registered := by
  rw [List.filterMap_map]
  exact List.filterMap_some

/-- Steps that register reactions settle nothing. -/
theorem filterMap_state_map {P : Type} (registered : List Reactions) :
    (registered.map PromiseStep.registered).filterMap (PromiseStep.state? (P := P)) = [] := by
  rw [List.filterMap_map]
  exact List.filterMap_eq_nil_iff.mpr fun _ _ => rfl

/-- A history with one settlement. -/
theorem filterMap_state_settled {P : Type} (before after : List Reactions)
    (state : PromiseState P) :
    (before.map PromiseStep.registered ++
      PromiseStep.settled state :: after.map PromiseStep.registered).filterMap
        PromiseStep.state? = [state] := by
  rw [List.filterMap_append, filterMap_state_map, List.nil_append]
  exact congrArg (state :: ·) (filterMap_state_map after)

/-- A promise that is not pending was settled once, with its state. -/
theorem Promise.Follows.settled {P : Type} {promise : Promise P} {steps : List (PromiseStep P)}
    {jobs : List (PromiseJob P)} {tracked : List OperationType}
    (h : promise.Follows steps jobs tracked) (hstate : promise.state ≠ .pending) :
    steps.filterMap PromiseStep.state? = [promise.state] := by
  cases h with
  | pending registered => exact absurd rfl hstate
  | fulfilled before after value => exact filterMap_state_settled before after _
  | rejected before after reason => exact filterMap_state_settled before after _

/-- A promise is settled once at most. -/
theorem Promise.Follows.of_cons {P : Type} {promise : Promise P} {steps : List (PromiseStep P)}
    {jobs : List (PromiseJob P)} {tracked : List OperationType}
    (h : promise.Follows steps jobs tracked) {state : PromiseState P}
    {rest : List (PromiseState P)}
    (hsteps : steps.filterMap PromiseStep.state? = state :: rest) :
    promise.state = state ∧ rest = [] := by
  have hpending : promise.state ≠ .pending := by
    intro hpending
    cases h with
    | pending registered =>
        rw [filterMap_state_map] at hsteps
        cases hsteps
    | fulfilled before after value => cases hpending
    | rejected before after reason => cases hpending
  have heq := (h.settled hpending).symm.trans hsteps
  exact ⟨(List.cons.inj heq).1, (List.cons.inj heq).2.symm⟩

/-- **One more reaction** for a rejected promise: the tracker is told if it is the first. -/
theorem rejectionTracking_append (before after : List Reactions) (added : Reactions) :
    rejectionTracking before (after ++ [added]) =
      rejectionTracking before after ++ if (before ++ after).isEmpty then [.handle] else [] := by
  rcases before with _ | ⟨r, before⟩
  · rcases after with _ | ⟨r, after⟩ <;> simp [rejectionTracking]
  · simp [rejectionTracking]

/-- Reactions of a promise can be run: who resolves no promise handles rejections. -/
def ReactionRecord.Valid (r : ReactionRecord) : Prop :=
  r.promiseCapability = none → r.reactionType = .reject → r.handler ≠ none

/-- A job that can be run. -/
def PromiseJob.Valid {P : Type} : PromiseJob P → Prop
  | .reaction r _ => r.Valid
  | .resolveThenable .. => True

/-- Whether a job resolves a promise with a thenable. -/
def PromiseJob.resolves {P : Type} (addr : ℕ) : PromiseJob P → Bool
  | .resolveThenable promise .. => promise = addr
  | .reaction .. => false

/-- Whether what waits holds a promise. -/
def PromiseFrame.resolves {P : Type} (addr : ℕ) : PromiseFrame P → Bool
  | .getThen promise _ => promise = addr
  | .handler _ | .resolvers _ => false

/-- The jobs of reactions of a promise that were enqueued. -/
def reactionJobs {P : Type} (addr : ℕ) (events : List (PromiseEvent P)) : List (PromiseJob P) :=
  events.filterMap fun
    | .reactionJob promise job => if promise = addr then some job else none
    | _ => none

/-- What happened to a promise: when reactions were registered and when it was settled. -/
def history {P : Type} (addr : ℕ) (events : List (PromiseEvent P)) : List (PromiseStep P) :=
  events.filterMap fun
    | .registered promise reactions =>
        if promise = addr then some (.registered reactions) else none
    | .settled promise state => if promise = addr then some (.settled state) else none
    | _ => none

/-- How a promise was settled. -/
def settlements {P : Type} (addr : ℕ) (events : List (PromiseEvent P)) : List (PromiseState P) :=
  events.filterMap fun
    | .settled promise state => if promise = addr then some state else none
    | _ => none

/-- The calls of the rejection tracker for a promise. -/
def rejectionCalls {P : Type} (addr : ℕ) (events : List (PromiseEvent P)) :
    List OperationType :=
  events.filterMap fun
    | .rejectionTracker promise operation => if promise = addr then some operation else none
    | _ => none

/-- The reactions that calls of `then` registered for a promise. -/
def registrations {P : Type} (addr : ℕ) (actions : List (PromiseAction P)) : List Reactions :=
  actions.filterMap fun
    | .performThen promise onFulfilled onRejected capability =>
        if promise = addr then
          some (⟨capability, .fulfill, onFulfilled⟩, ⟨capability, .reject, onRejected⟩)
        else none
    | _ => none

section Events

variable {P : Type} {addr : ℕ}

/-- The jobs of the reactions to a promise, for events that happen one after the other. -/
theorem reactionJobs_append (events rest : List (PromiseEvent P)) :
    reactionJobs addr (events ++ rest) = reactionJobs addr events ++ reactionJobs addr rest :=
  List.filterMap_append

/-- The history of a promise goes on with later events. -/
theorem history_append (events rest : List (PromiseEvent P)) :
    history addr (events ++ rest) = history addr events ++ history addr rest :=
  List.filterMap_append

/-- A promise was settled as its history says. -/
theorem settlements_eq (events : List (PromiseEvent P)) :
    settlements addr events = (history addr events).filterMap PromiseStep.state? := by
  rw [settlements, history, List.filterMap_filterMap]
  refine List.filterMap_congr fun event _ => ?_
  cases event with
  | registered promise reactions =>
      by_cases h : promise = addr <;> simp [h, PromiseStep.state?]
  | settled promise state => by_cases h : promise = addr <;> simp [h, PromiseStep.state?]
  | reactionJob promise job => rfl
  | thenableJob promise job => rfl
  | rejectionTracker promise operation => rfl

/-- The calls of the host's rejection tracker, for events that happen one after the other. -/
theorem rejectionCalls_append (events rest : List (PromiseEvent P)) :
    rejectionCalls addr (events ++ rest) =
      rejectionCalls addr events ++ rejectionCalls addr rest :=
  List.filterMap_append

/-- Registrations are listed in the order in which they are made. -/
theorem registrations_append (actions rest : List (PromiseAction P)) :
    registrations addr (actions ++ rest) =
      registrations addr actions ++ registrations addr rest :=
  List.filterMap_append

/-- Jobs that are enqueued for one promise are jobs of no other. -/
theorem reactionJobs_map (promise : ℕ) (jobs : List (PromiseJob P)) :
    reactionJobs addr (jobs.map (.reactionJob promise)) = if promise = addr then jobs else [] := by
  rw [reactionJobs, List.filterMap_map]
  split
  · next h => exact (List.filterMap_congr fun job _ => if_pos h).trans List.filterMap_some
  · next h => exact List.filterMap_eq_nil_iff.mpr fun job _ => if_neg h

/-- A job that is enqueued is no step of a promise's history. -/
theorem history_map (promise : ℕ) (jobs : List (PromiseJob P)) :
    history addr (jobs.map (.reactionJob promise)) = [] :=
  List.filterMap_eq_nil_iff.mpr fun event hmem => by
    obtain ⟨job, -, rfl⟩ := List.mem_map.mp hmem
    rfl

/-- A job that is enqueued is no call of the host's rejection tracker. -/
theorem rejectionCalls_map (promise : ℕ) (jobs : List (PromiseJob P)) :
    rejectionCalls addr (jobs.map (.reactionJob promise)) = [] :=
  List.filterMap_eq_nil_iff.mpr fun event hmem => by
    obtain ⟨job, -, rfl⟩ := List.mem_map.mp hmem
    rfl

end Events

/-- No event is about a promise. -/
structure Silent {P : Type} (addr : ℕ) (events : List (PromiseEvent P)) : Prop where
  history : history addr events = []
  reactionJobs : reactionJobs addr events = []
  rejectionCalls : rejectionCalls addr events = []

/-- Events that do not concern a promise stay without concern for it when others follow. -/
theorem Silent.append {P : Type} {addr : ℕ} {events rest : List (PromiseEvent P)}
    (h : Silent addr events) (h' : Silent addr rest) : Silent addr (events ++ rest) where
  history := by rw [history_append, h.history, h'.history, List.append_nil]
  reactionJobs := by rw [reactionJobs_append, h.reactionJobs, h'.reactionJobs, List.append_nil]
  rejectionCalls := by
    rw [rejectionCalls_append, h.rejectionCalls, h'.rejectionCalls, List.append_nil]

/-- No events concern no promise. -/
theorem Silent.nil {P : Type} (addr : ℕ) : Silent addr ([] : List (PromiseEvent P)) :=
  ⟨rfl, rfl, rfl⟩

namespace PromiseSystem

variable {P : Type}

/-- How often a promise is held. -/
def holders (self : PromiseSystem P) (addr : ℕ) : ℕ :=
  self.cells.count (some addr) + self.frames.countP (PromiseFrame.resolves addr) +
    self.jobs.countP (PromiseJob.resolves addr)

/-- Whether a promise is there and not settled. -/
def unsettled (self : PromiseSystem P) (addr : ℕ) : ℕ :=
  if (self.promises addr).any fun promise => promise.state matches .pending then 1 else 0

/-- **The invariant**: every promise follows from its history, and one that is not settled is
held once at most, by the system or by the code that runs. It is held exactly once as long as
nothing that held it was given up. -/
structure Invariant (exact : Prop) (registered : ℕ → List Reactions)
    (events : List (PromiseEvent P)) (held : List ℕ) (system : PromiseSystem P) : Prop where
  absent : ∀ addr, system.promises addr = none → Silent addr events
  follows : ∀ addr promise, system.promises addr = some promise →
    promise.Follows (history addr events) (reactionJobs addr events) (rejectionCalls addr events)
  registered_eq : ∀ addr,
    (history addr events).filterMap PromiseStep.reactions? = registered addr
  holders_le : ∀ addr, system.holders addr + held.count addr ≤ system.unsettled addr
  unsettled_le : exact → ∀ addr, system.unsettled addr ≤ system.holders addr + held.count addr
  registered_valid : ∀ addr, ∀ r ∈ registered addr, r.1.Valid ∧ r.2.Valid
  jobs_valid : ∀ job ∈ system.jobs, job.Valid

variable {exact : Prop} {registered : ℕ → List Reactions} {events : List (PromiseEvent P)}
  {held held' : List ℕ} {self self' : PromiseSystem P} {addr : ℕ}

/-- Before anything happens there are no promises, and every invariant of them holds. -/
theorem invariant_empty : Invariant exact (fun _ => []) [] [] (empty : PromiseSystem P) where
  absent addr _ := .nil addr
  follows _ _ h := by cases h
  registered_eq _ := rfl
  holders_le _ := Nat.le_refl _
  unsettled_le _ _ := Nat.le_refl _
  registered_valid _ _ h := by cases h
  jobs_valid _ h := by cases h

/-- **A promise changes hands.** -/
theorem Invariant.move (inv : Invariant exact registered events held self)
    (hpromises : self'.promises = self.promises)
    (hholders : ∀ addr, self'.holders addr + held'.count addr =
      self.holders addr + held.count addr)
    (hjobs : ∀ job ∈ self'.jobs, job.Valid) :
    Invariant exact registered events held' self' where
  absent := hpromises ▸ inv.absent
  follows := hpromises ▸ inv.follows
  registered_eq := inv.registered_eq
  holders_le addr := by
    rw [hholders, unsettled, hpromises]
    exact inv.holders_le addr
  unsettled_le h addr := by
    rw [hholders, unsettled, hpromises]
    exact inv.unsettled_le h addr
  registered_valid := inv.registered_valid
  jobs_valid := hjobs

/-- **A promise is given up.** -/
theorem Invariant.drop (inv : Invariant exact registered events held self) (hexact : ¬exact)
    (hpromises : self'.promises = self.promises)
    (hholders : ∀ addr, self'.holders addr + held'.count addr ≤
      self.holders addr + held.count addr)
    (hjobs : ∀ job ∈ self'.jobs, job.Valid) :
    Invariant exact registered events held' self' where
  absent := hpromises ▸ inv.absent
  follows := hpromises ▸ inv.follows
  registered_eq := inv.registered_eq
  holders_le addr := by
    refine (hholders addr).trans ?_
    rw [unsettled, hpromises]
    exact inv.holders_le addr
  unsettled_le h := absurd h hexact
  registered_valid := inv.registered_valid
  jobs_valid := hjobs

/-- A system after one promise changed and jobs were enqueued. -/
structure Updates (addr : ℕ) (promise : Promise P) (jobs : List (PromiseJob P))
    (system system' : PromiseSystem P) : Prop where
  promises : system'.promises = Function.update system.promises addr (some promise)
  cells : system'.cells = system.cells
  frames : system'.frames = system.frames
  jobs : system'.jobs = system.jobs ++ jobs

/-- **One promise changes**, with jobs for its reactions. -/
theorem Invariant.update (inv : Invariant exact registered events held self)
    {registered' : ℕ → List Reactions} {promise : Promise P} {jobs : List (PromiseJob P)}
    {new : List (PromiseEvent P)} (hupdates : Updates addr promise jobs self self')
    (hother : ∀ other, other ≠ addr →
      registered' other = registered other ∧ Silent other new)
    (hregistered : registered' addr =
      registered addr ++ (history addr new).filterMap PromiseStep.reactions?)
    (hvalid : ∀ r ∈ registered' addr, r.1.Valid ∧ r.2.Valid)
    (hfollows : promise.Follows (history addr events ++ history addr new)
      (reactionJobs addr events ++ reactionJobs addr new)
      (rejectionCalls addr events ++ rejectionCalls addr new))
    (hjobs : ∀ job ∈ jobs, job.Valid ∧ ∀ other, job.resolves other = false)
    (hheld : ∀ other, held.count other + self'.unsettled other =
      held'.count other + self.unsettled other) :
    Invariant exact registered' (events ++ new) held' self' := by
  have hcount : ∀ other, jobs.countP (PromiseJob.resolves other) = 0 := fun other =>
    List.countP_eq_zero.mpr fun job hjob => by simp [(hjobs job hjob).2 other]
  have hholders : ∀ other, self'.holders other = self.holders other := by
    intro other
    rw [holders, hupdates.cells, hupdates.frames, hupdates.jobs, List.countP_append, hcount,
      Nat.add_zero]
    rfl
  refine ⟨?_, ?_, ?_, ?_, ?_, ?_, ?_⟩
  · intro other hnone
    rw [hupdates.promises] at hnone
    have hne : other ≠ addr := by
      rintro rfl
      simp at hnone
    have hnone' : self.promises other = none := by simpa [hne] using hnone
    exact (inv.absent other hnone').append (hother other hne).2
  · intro other promise' hsome
    rw [hupdates.promises] at hsome
    rw [history_append, reactionJobs_append, rejectionCalls_append]
    by_cases heq : other = addr
    · subst heq
      have hpromise : promise = promise' := by simpa using hsome
      exact hpromise ▸ hfollows
    · obtain ⟨-, hnew⟩ := hother other heq
      have hsome' : self.promises other = some promise' := by simpa [heq] using hsome
      rw [hnew.history, hnew.reactionJobs, hnew.rejectionCalls, List.append_nil,
        List.append_nil, List.append_nil]
      exact inv.follows other promise' hsome'
  · intro other
    rw [history_append, List.filterMap_append, inv.registered_eq]
    by_cases heq : other = addr
    · exact heq ▸ hregistered.symm
    · obtain ⟨hreg, hnew⟩ := hother other heq
      rw [hnew.history, hreg]
      exact List.append_nil _
  · intro other
    have hle := inv.holders_le other
    have hsum := hheld other
    rw [hholders]
    omega
  · intro hexact other
    have hle := inv.unsettled_le hexact other
    have hsum := hheld other
    rw [hholders]
    omega
  · intro other
    by_cases heq : other = addr
    · exact heq ▸ hvalid
    · exact (hother other heq).1 ▸ inv.registered_valid other
  · intro job hmem
    rw [hupdates.jobs] at hmem
    obtain hmem | hmem := List.mem_append.mp hmem
    · exact inv.jobs_valid job hmem
    · exact (hjobs job hmem).1

/-! ### Settling a promise -/

/-- What an operation leaves when no promise is held by it any more. -/
def Keeps (exact : Prop) (registered : ℕ → List Reactions) (events : List (PromiseEvent P))
    (outcome : Option (Outcome P)) : Prop :=
  ∃ system new, outcome = some (system, new) ∧
    Invariant exact registered (events ++ new) [] system

/-- An operation without events. -/
theorem Invariant.keeps (inv : Invariant exact registered events [] self) :
    Keeps exact registered events (some (self, [])) :=
  ⟨self, [], rfl, (List.append_nil events).symm ▸ inv⟩

/-- **A promise that is held is not settled**: reactions were registered for it and nothing else
happened. -/
theorem Invariant.promises_eq (inv : Invariant exact registered events [addr] self) :
    self.promises addr = some ⟨.pending, (registered addr).map Prod.fst,
      (registered addr).map Prod.snd, !(registered addr).isEmpty⟩ ∧
    history addr events = (registered addr).map .registered ∧
    reactionJobs addr events = [] ∧ rejectionCalls addr events = [] := by
  have hle := inv.holders_le addr
  rw [List.count_singleton_self] at hle
  rcases hpromise : self.promises addr with _ | promise
  · rw [unsettled, hpromise] at hle
    exact absurd hle (Nat.not_succ_le_zero _)
  · have hfollows := inv.follows addr promise hpromise
    have hregistered := inv.registered_eq addr
    generalize history addr events = steps at hfollows hregistered
    generalize hjobs : reactionJobs addr events = jobs at hfollows
    generalize hcalls : rejectionCalls addr events = calls at hfollows
    cases hfollows with
    | pending reactions =>
        rw [filterMap_reactions_map] at hregistered
        subst hregistered
        exact ⟨rfl, rfl, rfl, rfl⟩
    | fulfilled before after value =>
        rw [unsettled, hpromise] at hle
        exact absurd hle (Nat.not_succ_le_zero _)
    | rejected before after reason =>
        rw [unsettled, hpromise] at hle
        exact absurd hle (Nat.not_succ_le_zero _)

/-- A settled promise is held by nobody. -/
theorem count_held_of_settled (inv : Invariant exact registered events [addr] self)
    {promise : Promise P} {jobs : List (PromiseJob P)}
    (hupdates : Updates addr promise jobs self self')
    (hsettled : (promise.state matches .pending) = false) (other : ℕ) :
    [addr].count other + self'.unsettled other =
      ([] : List ℕ).count other + self.unsettled other := by
  by_cases heq : other = addr
  · subst heq
    have hpromise := inv.promises_eq.1
    simp [unsettled, hupdates.promises, hsettled, hpromise]
  · simp [unsettled, hupdates.promises, heq, Ne.symm heq]

/-- **A promise is settled** by who holds it. -/
theorem Invariant.settle (inv : Invariant exact registered events [addr] self)
    {promise : Promise P} {state : PromiseState P} {jobs : List (PromiseJob P)}
    {tracked : List (PromiseEvent P)} (hupdates : Updates addr promise jobs self self')
    (hsettled : (promise.state matches .pending) = false)
    (htracked : ∀ other, history other tracked = [] ∧ reactionJobs other tracked = [] ∧
      (other ≠ addr → rejectionCalls other tracked = []))
    (hfollows : promise.Follows ((registered addr).map .registered ++ [.settled state]) jobs
      (rejectionCalls addr tracked))
    (hjobs : ∀ job ∈ jobs, job.Valid ∧ ∀ other, job.resolves other = false) :
    Keeps exact registered events
      (some (self', jobs.map (.reactionJob addr) ++ .settled addr state :: tracked)) := by
  obtain ⟨-, hhistory, hjobs_nil, hcalls_nil⟩ := inv.promises_eq
  have hstate : history addr (.settled addr state :: tracked) = [.settled state] := by
    simpa [history] using (htracked addr).1
  refine ⟨_, _, rfl, inv.update hupdates (fun other hne => ⟨rfl, ?_, ?_, ?_⟩) ?_
    (inv.registered_valid addr) ?_ hjobs (count_held_of_settled inv hupdates hsettled)⟩
  · rw [history_append, history_map, List.nil_append]
    simpa [history, Ne.symm hne] using (htracked other).1
  · rw [reactionJobs_append, reactionJobs_map, if_neg (Ne.symm hne), List.nil_append]
    exact (htracked other).2.1
  · rw [rejectionCalls_append, rejectionCalls_map, List.nil_append]
    exact (htracked other).2.2 hne
  · rw [history_append, history_map, hstate]
    exact (List.append_nil _).symm
  · have hnone : reactionJobs addr (.settled addr state :: tracked) = [] := (htracked addr).2.1
    have hcalls : rejectionCalls addr (.settled addr state :: tracked) =
        rejectionCalls addr tracked := rfl
    rw [history_append, history_map, reactionJobs_append, reactionJobs_map, if_pos rfl,
      rejectionCalls_append, rejectionCalls_map, hhistory, hjobs_nil, hcalls_nil, hstate, hnone,
      hcalls, List.append_nil]
    exact hfollows

/-- The jobs of registered reactions can be run and hold no promise. -/
theorem valid_of_mem_map {reactions : List Reactions} {f : Reactions → ReactionRecord}
    (hvalid : ∀ r ∈ reactions, (f r).Valid) (argument : JsValue P) {job : PromiseJob P}
    (hmem : job ∈ (reactions.map f).map fun r => PromiseJob.reaction r argument) :
    job.Valid ∧ ∀ other, job.resolves other = false := by
  obtain ⟨reaction, hreaction, rfl⟩ := List.mem_map.mp hmem
  obtain ⟨r, hr, rfl⟩ := List.mem_map.mp hreaction
  exact ⟨hvalid r hr, fun _ => rfl⟩

/-- Fulfilling a pending promise enqueues its reactions once and keeps the invariant. -/
theorem Invariant.fulfillPromise (inv : Invariant exact registered events [addr] self)
    (value : JsValue P) : Keeps exact registered events (self.fulfillPromise addr value) := by
  obtain ⟨hpromise, -⟩ := inv.promises_eq
  rw [PromiseSystem.fulfillPromise, hpromise]
  refine inv.settle ⟨rfl, rfl, rfl, rfl⟩ rfl (fun _ => ⟨rfl, rfl, fun _ => rfl⟩) ?_
    fun job hmem => valid_of_mem_map (fun r hr => (inv.registered_valid addr r hr).1) value hmem
  rw [List.map_map]
  have hfulfilled := Promise.Follows.fulfilled (registered addr) [] value
  simp only [List.append_nil, List.map_nil] at hfulfilled
  exact hfulfilled

/-- Rejecting a pending promise enqueues its reactions once, tells the host if there are none, and
keeps the invariant. -/
theorem Invariant.rejectPromise (inv : Invariant exact registered events [addr] self)
    (reason : JsValue P) : Keeps exact registered events (self.rejectPromise addr reason) := by
  obtain ⟨hpromise, -⟩ := inv.promises_eq
  rw [PromiseSystem.rejectPromise, hpromise]
  refine inv.settle ⟨rfl, rfl, rfl, rfl⟩ rfl (fun other => ?_) ?_
    fun job hmem => valid_of_mem_map (fun r hr => (inv.registered_valid addr r hr).2) reason hmem
  · split
    · exact ⟨rfl, rfl, fun _ => rfl⟩
    · exact ⟨rfl, rfl, fun hne => by simp [rejectionCalls, Ne.symm hne]⟩
  · rw [List.map_map]
    have hrejected := Promise.Follows.rejected (registered addr) [] reason
    have htracked : rejectionCalls addr
        (if !(registered addr).isEmpty then []
          else [PromiseEvent.rejectionTracker (P := P) addr .reject]) =
        rejectionTracking (registered addr) [] := by
      rcases registered addr with _ | ⟨r, rs⟩ <;> simp [rejectionCalls, rejectionTracking]
    simp only [List.append_nil, List.map_nil] at hrejected
    exact htracked ▸ hrejected

/-! ### Resolving functions -/

variable (objects : PromiseObjects P)

/-- **A cell gives up its promise once.** -/
theorem Invariant.take (inv : Invariant exact registered events [] self) (cell : ℕ) :
    self.take cell = (none, self) ∨
      ∃ addr self', self.take cell = (some addr, self') ∧
        Invariant exact registered events [addr] self' := by
  rw [PromiseSystem.take]
  rcases hcell : self.cells[cell]? with _ | _ | addr
  · rw [List.set_eq_of_length_le (List.getElem?_eq_none_iff.mp hcell)]
    exact .inl rfl
  · obtain ⟨hlt, hget⟩ := List.getElem?_eq_some_iff.mp hcell
    have hset : self.cells.set cell none = self.cells := by
      rw [← hget, List.set_getElem_self]
    rw [hset]
    exact .inl rfl
  · obtain ⟨hlt, hget⟩ := List.getElem?_eq_some_iff.mp hcell
    refine .inr ⟨addr, _, rfl, inv.move rfl (fun other => ?_) inv.jobs_valid⟩
    have hset := List.count_set hlt (a := none) (b := some other)
    have hone : other = addr → 1 ≤ self.cells.count (some other) := fun h =>
      List.count_pos_iff.mpr (h ▸ hget ▸ List.getElem_mem hlt)
    rw [hget] at hset
    simp only [holders, hset, List.count_nil, List.count_singleton]
    by_cases heq : other = addr
    · have := hone heq
      subst heq
      simp
      omega
    · simp [Ne.symm heq]

/-- Calling a reject function keeps the invariant: it rejects the promise, or it was used up
already. -/
theorem Invariant.callReject (inv : Invariant exact registered events [] self) (cell : ℕ)
    (reason : JsValue P) : Keeps exact registered events (self.callReject cell reason) := by
  rw [PromiseSystem.callReject]
  obtain htake | ⟨addr, self', htake, inv'⟩ := inv.take cell
  · rw [htake]
    exact inv.keeps
  · rw [htake]
    exact inv'.rejectPromise reason

/-- A resolve function waits for the `then` of its resolution. -/
theorem Invariant.getThen (inv : Invariant exact registered events [addr] self)
    (resolution : JsValue P) :
    Invariant exact registered events []
      { self with frames := .getThen addr resolution :: self.frames } := by
  refine inv.move rfl (fun other => ?_) inv.jobs_valid
  simp only [holders, List.countP_cons, PromiseFrame.resolves, List.count_nil,
    List.count_singleton, beq_iff_eq, decide_eq_true_eq]
  omega

/-- The job of a thenable holds the promise. -/
theorem Invariant.thenableJob (inv : Invariant exact registered events [addr] self)
    (resolution : JsValue P) (thenAction : ℕ) :
    Invariant exact registered events []
      { self with jobs := self.jobs ++ [.resolveThenable addr resolution thenAction] } := by
  refine inv.move rfl (fun other => ?_) fun job hmem => ?_
  · simp only [holders, List.countP_append, List.countP_singleton, PromiseJob.resolves,
      List.count_nil, List.count_singleton, beq_iff_eq, decide_eq_true_eq]
    omega
  · obtain hmem | hmem := List.mem_append.mp hmem
    · exact inv.jobs_valid job hmem
    · obtain rfl := List.mem_singleton.mp hmem
      exact trivial

/-- Events that are about no reaction and no rejection. -/
theorem Invariant.observe (inv : Invariant exact registered events held self)
    {new : List (PromiseEvent P)}
    (hnew : ∀ addr, Silent addr new) :
    Invariant exact registered (events ++ new) held self := by
  refine ⟨fun addr h => (inv.absent addr h).append (hnew addr), fun addr promise h => ?_,
    fun addr => ?_, inv.holders_le, inv.unsettled_le, inv.registered_valid, inv.jobs_valid⟩
  · rw [history_append, reactionJobs_append, rejectionCalls_append, (hnew addr).history,
      (hnew addr).reactionJobs, (hnew addr).rejectionCalls, List.append_nil, List.append_nil,
      List.append_nil]
    exact inv.follows addr promise h
  · rw [history_append, (hnew addr).history, List.append_nil]
    exact inv.registered_eq addr

/-- Calling a resolve function keeps the invariant, whatever it is called with. -/
theorem Invariant.callResolve (inv : Invariant exact registered events [] self) (cell : ℕ)
    (resolution : JsValue P) :
    Keeps exact registered events (self.callResolve objects cell resolution) := by
  rw [PromiseSystem.callResolve]
  obtain htake | ⟨addr, self', htake, inv'⟩ := inv.take cell
  · rw [htake]
    exact inv.keeps
  · rw [htake]
    cases resolution with
    | undefined => exact inv'.fulfillPromise _
    | primitive value => exact inv'.fulfillPromise _
    | object resolved =>
        by_cases hself : resolved = addr
        · simp only [if_pos hself]
          exact inv'.rejectPromise _
        · simp only [if_neg hself]
          exact (inv'.getThen _).keeps

/-- Resolving with what a `then` property was read from keeps the invariant, whether or not the read
throws. -/
theorem Invariant.resolveThen (inv : Invariant exact registered events [addr] self)
    (resolution : JsValue P) (result : Except (JsValue P) (JsValue P)) :
    Keeps exact registered events (self.resolveThen objects addr resolution result) := by
  rcases result with reason | thenAction
  · exact inv.rejectPromise reason
  · cases thenAction with
    | undefined => exact inv.fulfillPromise _
    | primitive value => exact inv.fulfillPromise _
    | object thenAction =>
        rw [PromiseSystem.resolveThen]
        split
        · exact ⟨_, _, rfl,
            (inv.thenableJob resolution thenAction).observe fun _ => ⟨rfl, rfl, rfl⟩⟩
        · exact inv.fulfillPromise _

/-- Calling a function of the program keeps the invariant, whether it is a resolving function or
not. -/
theorem Invariant.call (inv : Invariant exact registered events [] self) (f : JsFunction)
    (value : JsValue P) : Keeps exact registered events (self.call objects f value) := by
  cases f with
  | resolve cell => exact inv.callResolve objects cell value
  | reject cell => exact inv.callReject cell value
  | other addr => exact inv.keeps

/-! ### Jobs -/

/-- The end of a reaction resolves or rejects the derived promise, if there is one, and keeps the
invariant. -/
theorem Invariant.finishReaction (inv : Invariant exact registered events [] self)
    {capability : Option PromiseCapability} {result : Except (JsValue P) (JsValue P)}
    (hresult : capability = none → ∀ reason, result ≠ .error reason) :
    Keeps exact registered events (self.finishReaction objects capability result) := by
  cases capability with
  | none =>
      rcases result with reason | value
      · exact absurd rfl (hresult rfl reason)
      · exact inv.keeps
  | some capability =>
      rcases result with reason | value
      · exact inv.call objects capability.reject reason
      · exact inv.call objects capability.resolve value

/-- A new pair of resolving functions holds its promise. -/
theorem Invariant.createResolvingFunctions
    (inv : Invariant exact registered events [addr] self) :
    Invariant exact registered events [] (self.createResolvingFunctions addr).2 := by
  refine inv.move rfl (fun other => ?_) inv.jobs_valid
  simp only [PromiseSystem.createResolvingFunctions, holders, List.count_append,
    List.count_singleton, List.count_nil, beq_iff_eq, Option.some.injEq]
  omega

/-- What waits without holding a promise. -/
theorem Invariant.push (inv : Invariant exact registered events [] self) {frame : PromiseFrame P}
    (hframe : ∀ other, frame.resolves other = false) :
    Invariant exact registered events [] { self with frames := frame :: self.frames } := by
  refine inv.move rfl (fun other => ?_) inv.jobs_valid
  simp only [holders, List.countP_cons, hframe other]
  rfl

/-- A job that is run is taken from the queue, and the invariant is kept. -/
theorem Invariant.runJob {job : PromiseJob P} {jobs : List (PromiseJob P)}
    (hjobs : self.jobs = job :: jobs) (inv : Invariant exact registered events [] self) :
    Keeps exact registered events ({ self with jobs }.runJob objects job) := by
  have hvalid : job.Valid := inv.jobs_valid job (hjobs ▸ List.mem_cons_self)
  have hrest : ∀ job ∈ jobs, job.Valid := fun job hmem =>
    inv.jobs_valid job (hjobs ▸ List.mem_cons_of_mem _ hmem)
  cases job with
  | reaction reaction argument =>
      have inv' : Invariant exact registered events [] { self with jobs } :=
        inv.move rfl (fun other => by
          simp only [holders, hjobs, List.countP_cons, PromiseJob.resolves]
          rfl) hrest
      obtain ⟨capability, reactionType, handler⟩ := reaction
      cases handler with
      | some handler => exact (inv'.push fun _ => rfl).keeps
      | none =>
          cases reactionType with
          | fulfill => exact inv'.finishReaction objects fun _ _ h => by cases h
          | reject =>
              exact inv'.finishReaction objects fun hnone => absurd rfl (hvalid hnone rfl)
  | resolveThenable promise thenable thenAction =>
      have inv' : Invariant exact registered events [promise] { self with jobs } :=
        inv.move rfl (fun other => by
          simp only [holders, hjobs, List.countP_cons, PromiseJob.resolves, List.count_nil,
            List.count_singleton, beq_iff_eq, decide_eq_true_eq]
          omega) hrest
      exact (inv'.createResolvingFunctions.push fun _ => rfl).keeps

/-! ### Actions -/

/-- Code of the program that returns gives its result to the job or the executor that called it. -/
theorem Invariant.resume {frame : PromiseFrame P} {frames : List (PromiseFrame P)}
    (hframes : self.frames = frame :: frames)
    (inv : Invariant exact registered events [] self) {result : Except (JsValue P) (JsValue P)}
    (hresult : ∀ reason, result = .error reason → self.frames ≠ .handler none :: frames) :
    Keeps exact registered events ({ self with frames }.resume objects frame result) := by
  have hother : (∀ other, frame.resolves other = false) →
      Invariant exact registered events [] { self with frames } := by
    intro hframe
    refine inv.move rfl (fun other => ?_) inv.jobs_valid
    simp only [holders, hframes, List.countP_cons, hframe other]
    rfl
  cases frame with
  | getThen promise resolution =>
      have inv' : Invariant exact registered events [promise] { self with frames } := by
        refine inv.move rfl (fun other => ?_) inv.jobs_valid
        simp only [holders, hframes, List.countP_cons, PromiseFrame.resolves, List.count_nil,
          List.count_singleton, beq_iff_eq, decide_eq_true_eq]
        omega
      exact inv'.resolveThen objects resolution result
  | handler capability =>
      refine (hother fun _ => rfl).finishReaction objects fun hnone reason herror => ?_
      exact hresult reason herror (hnone ▸ hframes)
  | resolvers cell =>
      rcases result with reason | value
      · exact (hother fun _ => rfl).callReject cell reason
      · exact (hother fun _ => rfl).keeps

/-- A new promise is held by the code that made it. -/
theorem Invariant.newPromise (inv : Invariant exact registered events [] self)
    (hnew : self.promises addr = none) :
    Invariant exact registered events [addr] (self.setPromise addr (.new P)) := by
  have hsilent := inv.absent addr hnew
  have hfollows : (Promise.new P).Follows (history addr events) (reactionJobs addr events)
      (rejectionCalls addr events) := by
    rw [hsilent.history, hsilent.reactionJobs, hsilent.rejectionCalls]
    exact .pending []
  have hupdates : Updates addr (.new P) [] self (self.setPromise addr (.new P)) :=
    ⟨rfl, rfl, rfl, (List.append_nil self.jobs).symm⟩
  have inv' : Invariant exact registered (events ++ []) [addr]
      (self.setPromise addr (.new P)) := by
    refine inv.update hupdates (fun other _ => ⟨rfl, .nil other⟩) (List.append_nil _).symm
      (inv.registered_valid addr) ?_ (fun _ h => by cases h) fun other => ?_
    · simpa [history, reactionJobs, rejectionCalls] using hfollows
    · by_cases heq : other = addr
      · subst heq
        simp [unsettled, setPromise, hnew, Promise.new]
      · simp [unsettled, setPromise, heq, Ne.symm heq]
  rw [List.append_nil] at inv'
  exact inv'

/-- **Reactions are registered** behind the others. -/
theorem Invariant.performPromiseThen (inv : Invariant exact registered events [] self)
    (hpromise : self.promises addr ≠ none) {onFulfilled onRejected : Option ℕ}
    {capability : Option PromiseCapability} (hvalid : capability = none → onRejected ≠ none) :
    Keeps exact
      (fun other => registered other ++ registrations other
        [PromiseAction.performThen (P := P) addr onFulfilled onRejected capability]) events
      (self.performPromiseThen addr onFulfilled onRejected capability) := by
  obtain ⟨promise, hsome⟩ := Option.ne_none_iff_exists'.mp hpromise
  set added : Reactions :=
    (⟨capability, .fulfill, onFulfilled⟩, ⟨capability, .reject, onRejected⟩) with hadded
  have hself : registrations addr
      [PromiseAction.performThen (P := P) addr onFulfilled onRejected capability] = [added] := by
    simp [registrations, hadded]
  have hother : ∀ other, other ≠ addr → registrations other
      [PromiseAction.performThen (P := P) addr onFulfilled onRejected capability] = [] := by
    intro other hne
    simp [registrations, Ne.symm hne]
  have hadded_valid : added.1.Valid ∧ added.2.Valid :=
    ⟨fun _ h => (by cases h), fun hnone _ => hvalid hnone⟩
  have hall : ∀ r ∈ registered addr ++ [added], r.1.Valid ∧ r.2.Valid := by
    intro r hr
    obtain hr | hr := List.mem_append.mp hr
    · exact inv.registered_valid addr r hr
    · exact List.mem_singleton.mp hr ▸ hadded_valid
  -- Whatever the state of the promise is, it is left as it is.
  have hupdate : ∀ {promise' : Promise P} {jobs : List (PromiseJob P)}
      {new : List (PromiseEvent P)} {self' : PromiseSystem P},
      Updates addr promise' jobs self self' → promise'.state = promise.state →
      (∀ other, other ≠ addr → Silent other new) →
      (∀ job ∈ jobs, job.Valid ∧ ∀ other, job.resolves other = false) →
      history addr new = [.registered added] →
      promise'.Follows (history addr events ++ [.registered added])
        (reactionJobs addr events ++ reactionJobs addr new)
        (rejectionCalls addr events ++ rejectionCalls addr new) →
      Keeps exact
        (fun other => registered other ++ registrations other
          [PromiseAction.performThen (P := P) addr onFulfilled onRejected capability]) events
        (some (self', new)) := by
    intro promise' jobs new self' hupdates hstate hnew hjobs hhistory hfollows
    refine ⟨self', new, rfl, inv.update hupdates (fun other hne => ?_) ?_ ?_ ?_ hjobs
      fun other => ?_⟩
    · rw [hother other hne, List.append_nil]
      exact ⟨rfl, hnew other hne⟩
    · rw [hself, hhistory]
      rfl
    · rw [hself]
      exact hall
    · rw [hhistory]
      exact hfollows
    · by_cases heq : other = addr
      · subst heq
        simp [unsettled, hupdates.promises, hsome, hstate]
      · simp [unsettled, hupdates.promises, heq]
  have hfollows := inv.follows addr promise hsome
  have hnonempty : ∀ l : List Reactions, (!(l ++ [added]).isEmpty) = true := fun l => by simp
  rw [PromiseSystem.performPromiseThen, hsome]
  generalize history addr events = steps at hfollows hupdate
  generalize reactionJobs addr events = jobs at hfollows hupdate
  generalize rejectionCalls addr events = calls at hfollows hupdate
  cases hfollows with
  | pending reactions =>
      refine hupdate ⟨rfl, rfl, rfl, (List.append_nil self.jobs).symm⟩ rfl
        (fun other hne => ?_) (fun _ h => by cases h) ?_ ?_
      · constructor <;> simp [history, reactionJobs, rejectionCalls, Ne.symm hne]
      · simp [history, hadded]
      · have hpending := @Promise.Follows.pending P (reactions ++ [added])
        rw [hnonempty] at hpending
        simpa [reactionJobs, rejectionCalls, hadded] using hpending
  | fulfilled before after value =>
      refine hupdate ⟨rfl, rfl, rfl, rfl⟩ rfl (fun other hne => ?_) (fun job hmem => ?_) ?_ ?_
      · constructor <;> simp [history, reactionJobs, rejectionCalls, Ne.symm hne]
      · obtain rfl := List.mem_singleton.mp hmem
        exact ⟨hadded_valid.1, fun _ => rfl⟩
      · simp [history, hadded]
      · have hfulfilled := Promise.Follows.fulfilled before (after ++ [added]) value
        rw [← List.append_assoc, hnonempty] at hfulfilled
        simpa [reactionJobs, rejectionCalls, hadded] using hfulfilled
  | rejected before after reason =>
      refine hupdate ⟨rfl, rfl, rfl, rfl⟩ rfl (fun other hne => ?_) (fun job hmem => ?_) ?_ ?_
      · split <;> constructor <;> simp [history, reactionJobs, rejectionCalls, Ne.symm hne]
      · obtain rfl := List.mem_singleton.mp hmem
        exact ⟨hadded_valid.2, fun _ => rfl⟩
      · split <;> simp [history, hadded]
      · have hrejected := Promise.Follows.rejected before (after ++ [added]) reason
        rw [rejectionTracking_append, ← List.append_assoc, hnonempty] at hrejected
        cases hempty : (before ++ after).isEmpty <;>
          simpa [reactionJobs, rejectionCalls, hadded, hempty] using hrejected

/-- An action that gives up nothing that holds a promise. -/
def Retains (action : PromiseAction P) : Prop :=
  action ≠ .clearJobs ∧ action ≠ .return none

/-- **Every action keeps the invariant**, and no assertion fails. -/
theorem Invariant.perform (inv : Invariant exact registered events [] self)
    {action : PromiseAction P} (hallows : self.Allows action) (hretains : exact → Retains action) :
    Keeps exact (fun other => registered other ++ registrations other [action]) events
      (self.perform objects action) := by
  have hsame : (∀ other, registrations other [action] = []) →
      Keeps exact registered events (self.perform objects action) →
      Keeps exact (fun other => registered other ++ registrations other [action]) events
        (self.perform objects action) := by
    intro hnone hkeeps
    simpa only [hnone, List.append_nil] using hkeeps
  cases action with
  | newPending addr =>
      exact hsame (fun _ => rfl) (inv.newPromise hallows).createResolvingFunctions.keeps
  | construct addr =>
      have inv' := (inv.newPromise hallows).createResolvingFunctions
      exact hsame (fun _ => rfl) (inv'.push fun _ => rfl).keeps
  | callResolve cell resolution =>
      exact hsame (fun _ => rfl) (inv.callResolve objects cell resolution)
  | callReject cell reason => exact hsame (fun _ => rfl) (inv.callReject cell reason)
  | performThen addr onFulfilled onRejected capability =>
      exact inv.performPromiseThen hallows.1 hallows.2
  | runJob =>
      refine hsame (fun _ => rfl) ?_
      rw [PromiseSystem.perform]
      split
      · exact inv.keeps
      · next job jobs hjobs => exact inv.runJob objects hjobs
  | clearJobs =>
      have inv' : Invariant exact registered events [] { self with jobs := [] } := by
        refine inv.drop (fun h => (hretains h).1 rfl) rfl (fun other => ?_) fun _ h => ?_
        · exact Nat.add_le_add_right (Nat.add_le_add_left (Nat.zero_le _) _) _
        · cases h
      exact hsame (fun _ => rfl) inv'.keeps
  | «return» completion =>
      refine hsame (fun _ => rfl) ?_
      simp only [PromiseSystem.perform]
      rcases hframes : self.frames with _ | ⟨frame, frames⟩
      · exact inv.keeps
      · rcases completion with _ | result
        · have inv' : Invariant exact registered events [] { self with frames } := by
            refine inv.drop (fun h => (hretains h).2 rfl) rfl (fun other => ?_) inv.jobs_valid
            simp only [holders, hframes, List.countP_cons]
            omega
          exact inv'.keeps
        · refine inv.resume objects hframes fun reason herror hnone => ?_
          subst herror
          exact hallows frames hnone

/-- **Along a run** the invariant is kept, with what the run registered. -/
theorem Invariant.performAll (inv : Invariant exact registered events [] self)
    {actions : List (PromiseAction P)} (hallows : self.AllowsAll objects actions)
    (hretains : exact → ∀ action ∈ actions, Retains action) :
    Keeps exact (fun other => registered other ++ registrations other actions) events
      (self.performAll objects actions) := by
  induction actions generalizing self registered events with
  | nil =>
      refine ⟨self, [], rfl, ?_⟩
      simpa [registrations] using inv
  | cons action actions ih =>
      obtain ⟨self', new, hperform, inv'⟩ := inv.perform objects hallows.1 fun h =>
        hretains h action List.mem_cons_self
      obtain ⟨self'', rest, hrest, inv''⟩ := ih inv' (hallows.2 self' new hperform)
        fun h action hmem => hretains h action (List.mem_cons_of_mem _ hmem)
      refine ⟨self'', new ++ rest, ?_, ?_⟩
      · simp only [PromiseSystem.performAll, hperform, hrest, Option.bind_eq_bind, Option.bind_some]
        rfl
      · have hcons : ∀ other, registrations other (action :: actions) =
            registrations other [action] ++ registrations other actions := fun other =>
          registrations_append [action] actions
        simpa only [hcons, List.append_assoc] using inv''

/-! ### What holds in every run -/

/-- After every allowed run the system is in order, and its events account for all that was
registered. -/
theorem invariant_performAll (exact : Prop) {actions : List (PromiseAction P)}
    (hallows : (empty : PromiseSystem P).AllowsAll objects actions)
    (hretains : exact → ∀ action ∈ actions, Retains action) :
    ∃ system events, empty.performAll objects actions = some (system, events) ∧
      Invariant exact (fun other => registrations other actions) events [] system := by
  obtain ⟨system, events, hrun, inv⟩ :=
    (@invariant_empty P exact).performAll objects hallows hretains
  exact ⟨system, events, hrun, by simpa only [List.nil_append] using inv⟩

/-- **In every run** no assertion fails, and every promise is what its history says. Before it is
settled it stores the reactions that were registered, in their order; afterwards they all have
been enqueued with its value, in that order, each once and none of the other kind. The rejection
tracker was called as the order of rejection and first registration asks for, and the history
has the reactions of all calls of `then`. -/
theorem follows_performAll {actions : List (PromiseAction P)}
    (hallows : (empty : PromiseSystem P).AllowsAll objects actions) :
    ∃ system events, empty.performAll objects actions = some (system, events) ∧
      ∀ addr promise, system.promises addr = some promise →
        promise.Follows (history addr events) (reactionJobs addr events)
          (rejectionCalls addr events) ∧
        (history addr events).filterMap PromiseStep.reactions? = registrations addr actions := by
  obtain ⟨system, events, hrun, inv⟩ := invariant_performAll objects False hallows fun h => h.elim
  exact ⟨system, events, hrun, fun addr promise h =>
    ⟨inv.follows addr promise h, inv.registered_eq addr⟩⟩

/-- A promise is rejected, handled too late and resolved again. -/
def rejectedActions : List (PromiseAction ℕ) :=
  [.newPending 0, .callReject 0 (.primitive 5), .performThen 0 none (some 7) none,
    .callResolve 0 .undefined, .runJob, .return (some (.ok .undefined))]

/-- Objects of which none is callable. -/
def plainObjects : PromiseObjects ℕ := ⟨fun _ => false, fun _ => .undefined⟩

/-- Actions that follow a known step. -/
theorem AllowsAll.cons {action : PromiseAction P} {actions : List (PromiseAction P)}
    (hperform : self.perform objects action = some (self', events))
    (hallows : self.Allows action) (hrest : self'.AllowsAll objects actions) :
    self.AllowsAll objects (action :: actions) := by
  refine ⟨hallows, fun system new heq => ?_⟩
  obtain ⟨rfl, rfl⟩ := Prod.mk.inj (Option.some.inj (hperform.symm.trans heq))
  exact hrest

/-- The example rejects a promise before anything is registered with it. -/
theorem allowsAll_rejectedActions :
    (empty : PromiseSystem ℕ).AllowsAll plainObjects rejectedActions := by
  refine .cons plainObjects rfl rfl ?_
  refine .cons plainObjects rfl trivial ?_
  refine .cons plainObjects rfl ⟨by decide, fun _ h => by cases h⟩ ?_
  refine .cons plainObjects rfl trivial ?_
  refine .cons plainObjects rfl trivial ?_
  exact .cons plainObjects rfl trivial trivial

/-- In the example the host is told of the rejection, and then that it is handled. -/
theorem follows_performAll_rejectedActions :
    ∃ system events, empty.performAll plainObjects rejectedActions = some (system, events) ∧
      (∀ promise, system.promises 0 = some promise →
        promise.Follows (history 0 events) (reactionJobs 0 events) (rejectionCalls 0 events) ∧
        (history 0 events).filterMap PromiseStep.reactions? =
          registrations 0 rejectedActions) ∧
      rejectionCalls 0 events = [.reject, .handle] := by
  obtain ⟨system, events, hrun, h⟩ := follows_performAll plainObjects allowsAll_rejectedActions
  refine ⟨system, events, hrun, h 0, ?_⟩
  obtain ⟨rfl, rfl⟩ := Prod.mk.inj (Option.some.inj hrun)
  rfl

/-- A sequence of actions that can be performed, in two parts. -/
theorem AllowsAll.of_append {before after : List (PromiseAction P)}
    (h : self.AllowsAll objects (before ++ after)) :
    self.AllowsAll objects before ∧
      ∀ self' events, self.performAll objects before = some (self', events) →
        self'.AllowsAll objects after := by
  induction before generalizing self with
  | nil =>
      refine ⟨trivial, fun self' events heq => ?_⟩
      cases heq
      exact h
  | cons action before ih =>
      refine ⟨⟨h.1, fun self' events heq => (ih (h.2 self' events heq)).1⟩,
        fun self' events heq => ?_⟩
      rw [performAll] at heq
      obtain ⟨⟨mid, new⟩, hperform, heq⟩ := Option.bind_eq_some_iff.mp heq
      obtain ⟨⟨last, rest⟩, hrest, heq⟩ := Option.bind_eq_some_iff.mp heq
      cases heq
      exact (ih (h.2 mid new hperform)).2 _ rest hrest

/-- **What is settled stays as it is**, whatever is done afterwards: a promise that is fulfilled or
rejected keeps its state and its value over any continuation of any run, and is not settled again. -/
theorem state_performAll (before after : List (PromiseAction P))
    (hallows : (empty : PromiseSystem P).AllowsAll objects (before ++ after)) :
    ∃ system events system' events', empty.performAll objects before = some (system, events) ∧
      system.performAll objects after = some (system', events') ∧
      ∀ addr promise, system.promises addr = some promise → promise.state ≠ .pending →
        ∃ promise', system'.promises addr = some promise' ∧ promise'.state = promise.state ∧
          settlements addr events' = [] := by
  obtain ⟨hbefore, hafter⟩ := hallows.of_append
  obtain ⟨system, events, hrun, inv⟩ := invariant_performAll objects False hbefore fun h => h.elim
  obtain ⟨system', events', hrun', inv'⟩ := inv.performAll objects (hafter system events hrun)
    fun h => h.elim
  refine ⟨system, events, system', events', hrun, hrun', fun addr promise hpromise hstate => ?_⟩
  have hsettled := (inv.follows addr promise hpromise).settled hstate
  have hall : (history addr (events ++ events')).filterMap PromiseStep.state? =
      promise.state :: settlements addr events' := by
    rw [history_append, List.filterMap_append, hsettled, settlements_eq, List.singleton_append]
  rcases hpromise' : system'.promises addr with _ | promise'
  · rw [(inv'.absent addr hpromise').history] at hall
    cases hall
  · exact ⟨promise', rfl, (inv'.follows addr promise' hpromise').of_cons hall⟩

/-- In the example a promise that is settled keeps its state and its one event, whatever comes after
it. -/
theorem state_performAll_rejectedActions :
    ∃ system events system' events',
      empty.performAll plainObjects (rejectedActions.take 2) = some (system, events) ∧
      system.performAll plainObjects (rejectedActions.drop 2) = some (system', events') ∧
      ∀ promise, system.promises 0 = some promise → promise.state ≠ .pending →
        ∃ promise', system'.promises 0 = some promise' ∧ promise'.state = promise.state ∧
          settlements 0 events' = [] := by
  obtain ⟨system, events, system', events', hrun, hrun', h⟩ :=
    state_performAll plainObjects (rejectedActions.take 2) (rejectedActions.drop 2)
      allowsAll_rejectedActions
  exact ⟨system, events, system', events', hrun, hrun', h 0⟩

/-! ### Promises that wait -/

/-- **A pending promise is held exactly once** as long as nothing that holds one is given up. -/
theorem holders_of_pending {actions : List (PromiseAction P)}
    (hallows : (empty : PromiseSystem P).AllowsAll objects actions)
    (hretains : ∀ action ∈ actions, Retains action) {system : PromiseSystem P}
    {events : List (PromiseEvent P)}
    (hrun : empty.performAll objects actions = some (system, events)) {addr : ℕ}
    {promise : Promise P} (hpromise : system.promises addr = some promise)
    (hpending : promise.state = .pending) : system.holders addr = 1 := by
  obtain ⟨system', events', hrun', inv⟩ :=
    invariant_performAll objects True hallows fun _ => hretains
  obtain ⟨rfl, rfl⟩ := Prod.mk.inj (Option.some.inj (hrun.symm.trans hrun'))
  have hle := inv.holders_le addr
  have hge := inv.unsettled_le trivial addr
  have hone : system.unsettled addr = 1 := by
    rw [unsettled, hpromise]
    simp [hpending]
  rw [List.count_nil] at hle hge
  omega

/-- A promise was settled with a state. -/
def Settles (addr : ℕ) (state : PromiseState P) (outcome : Option (Outcome P)) : Prop :=
  ∃ system events, outcome = some (system, events) ∧
    ∃ promise, system.promises addr = some promise ∧ promise.state = state

/-- Rejecting a pending promise settles it, for the reason that is given. -/
theorem settles_rejectPromise {promise : Promise P} (hpromise : self.promises addr = some promise)
    (hpending : promise.state = .pending) (reason : JsValue P) :
    Settles addr (.rejected reason) (self.rejectPromise addr reason) := by
  simp only [rejectPromise, hpromise, Option.bind_eq_bind, Option.bind_some, hpending]
  exact ⟨_, _, rfl, _, Function.update_self .., rfl⟩

/-- Fulfilling a pending promise settles it, with the value that is given. -/
theorem settles_fulfillPromise {promise : Promise P}
    (hpromise : self.promises addr = some promise) (hpending : promise.state = .pending)
    (value : JsValue P) :
    Settles addr (.fulfilled value) (self.fulfillPromise addr value) := by
  simp only [fulfillPromise, hpromise, Option.bind_eq_bind, Option.bind_some, hpending]
  exact ⟨_, _, rfl, _, Function.update_self .., rfl⟩

/-- **What a resolve function does once it read a `then`**: an exception and a `then` that cannot
be called settle the promise, otherwise the job of the thenable holds it. -/
structure ReadsThen (system : PromiseSystem P) (addr : ℕ) (resolution : JsValue P) : Prop where
  error : ∀ reason,
    Settles addr (.rejected reason) (system.resolveThen objects addr resolution (.error reason))
  notCallable : ∀ thenAction, (∀ f, thenAction = .object f → objects.isCallable f = false) →
    Settles addr (.fulfilled resolution)
      (system.resolveThen objects addr resolution (.ok thenAction))
  callable : ∀ f, objects.isCallable f = true → ∃ system' events,
    system.resolveThen objects addr resolution (.ok (.object f)) = some (system', events) ∧
    system'.jobs = system.jobs ++ [.resolveThenable addr resolution f]

/-- Where the promise is pending, resolving it with an object reads the property `then` once. -/
theorem readsThen_of_pending {promise : Promise P}
    (hpromise : self.promises addr = some promise) (hpending : promise.state = .pending)
    (resolution : JsValue P) : self.ReadsThen objects addr resolution where
  error reason := settles_rejectPromise hpromise hpending reason
  notCallable thenAction hcallable := by
    cases thenAction with
    | undefined => exact settles_fulfillPromise hpromise hpending resolution
    | primitive value => exact settles_fulfillPromise hpromise hpending resolution
    | object f =>
        rw [resolveThen, hcallable f rfl]
        exact settles_fulfillPromise hpromise hpending resolution
  callable f hcallable := by
    rw [resolveThen, hcallable]
    exact ⟨_, _, rfl, rfl⟩

/-- **What a cell does to the promise in it**, when one of its functions is called: a rejection and
a value that is no object settle it, the promise itself is an error, and for another object the
call waits for its `then`. -/
structure Resolves (system : PromiseSystem P) (addr cell : ℕ) : Prop where
  reject : ∀ reason, Settles addr (.rejected reason) (system.callReject cell reason)
  resolve : ∀ value, (∀ o, value ≠ .object o) →
    Settles addr (.fulfilled value) (system.callResolve objects cell value)
  resolve_self : Settles addr (.rejected (objects.selfResolutionError addr))
    (system.callResolve objects cell (.object addr))
  resolve_object : ∀ o, o ≠ addr → ∃ system',
    system.callResolve objects cell (.object o) = some (system', []) ∧
    system'.frames = .getThen addr (.object o) :: system.frames ∧
    { system' with frames := system.frames }.ReadsThen objects addr (.object o)

/-- Resolving functions that were not used yet settle their pending promise, unless it is resolved
with an object, whose property `then` is read first. -/
theorem resolves_of_pending {cell : ℕ} {promise : Promise P}
    (hcell : self.cells[cell]? = some (some addr)) (hpromise : self.promises addr = some promise)
    (hpending : promise.state = .pending) : self.Resolves objects addr cell := by
  have htake : self.take cell = (some addr, (self.take cell).2) := by
    rw [take, hcell]
    rfl
  have hpromise' : (self.take cell).2.promises addr = some promise := hpromise
  refine ⟨fun reason => ?_, fun value hvalue => ?_, ?_, fun o hne => ?_⟩
  · rw [callReject, htake]
    exact settles_rejectPromise hpromise' hpending reason
  · rw [callResolve, htake]
    cases value with
    | undefined => exact settles_fulfillPromise hpromise' hpending _
    | primitive value => exact settles_fulfillPromise hpromise' hpending _
    | object o => exact absurd rfl (hvalue o)
  · rw [callResolve, htake]
    simp only [if_pos]
    exact settles_rejectPromise hpromise' hpending _
  · rw [callResolve, htake]
    simp only [if_neg hne]
    exact ⟨_, rfl, rfl, readsThen_of_pending objects hpromise' hpending _⟩

/-- **No promise is forgotten**: as long as nothing that holds a promise is given up, one that is
pending when no job and no call is left is in exactly one cell of resolving functions, and a call
of them does to it what it is for. A promise that is in no cell any more is settled by then. -/
theorem resolves_of_idle {actions : List (PromiseAction P)}
    (hallows : (empty : PromiseSystem P).AllowsAll objects actions)
    (hretains : ∀ action ∈ actions, Retains action) {system : PromiseSystem P}
    {events : List (PromiseEvent P)}
    (hrun : empty.performAll objects actions = some (system, events))
    (hframes : system.frames = []) (hjobs : system.jobs = []) {addr : ℕ} {promise : Promise P}
    (hpromise : system.promises addr = some promise) (hpending : promise.state = .pending) :
    system.cells.count (some addr) = 1 ∧
      ∀ cell, system.cells[cell]? = some (some addr) → system.Resolves objects addr cell := by
  refine ⟨?_, fun cell hcell => resolves_of_pending objects hcell hpromise hpending⟩
  have hone := holders_of_pending objects hallows hretains hrun hpromise hpending
  rwa [holders, hframes, hjobs, List.countP_nil, List.countP_nil] at hone

/-- A promise is resolved with a thenable that returns without calling its functions. -/
def thenableActions : List (PromiseAction ℕ) :=
  [.newPending 0, .callResolve 0 (.object 7), .return (some (.ok (.object 9))), .runJob,
    .return (some (.ok .undefined))]

/-- Objects of which one is callable. -/
def callableObjects : PromiseObjects ℕ := ⟨fun addr => addr = 9, fun _ => .undefined⟩

/-- In the example a promise waits for a thenable, with resolving functions of its own that are not
used yet. -/
theorem resolves_of_idle_thenableActions :
    ∃ system events, empty.performAll callableObjects thenableActions = some (system, events) ∧
      system.cells = [none, some 0] ∧ system.cells.count (some 0) = 1 ∧
      system.Resolves callableObjects 0 1 := by
  have hallows : (empty : PromiseSystem ℕ).AllowsAll callableObjects thenableActions := by
    refine .cons callableObjects rfl rfl ?_
    refine .cons callableObjects rfl trivial ?_
    refine .cons callableObjects rfl trivial ?_
    refine .cons callableObjects rfl trivial ?_
    exact .cons callableObjects rfl trivial trivial
  have hretains : ∀ action ∈ thenableActions, Retains action := by
    intro action hmem
    simp only [thenableActions, List.mem_cons, List.not_mem_nil, or_false] at hmem
    rcases hmem with rfl | rfl | rfl | rfl | rfl <;> exact ⟨by rintro ⟨⟩, by rintro ⟨⟩⟩
  have h := @resolves_of_idle ℕ callableObjects _ hallows hretains _ _ rfl rfl rfl 0 _ rfl rfl
  exact ⟨_, _, rfl, rfl, h.1, h.2 1 rfl⟩

end PromiseSystem

end BoaLigero
