import BoaLigero.Wintertc.Timers
import Mathlib.Data.List.Nodup
import Mathlib.Data.List.Perm.Basic

/-!
# What Holds of Timers in Every Run

The executor takes the jobs whose deadline is before a reading of the clock, and what is enqueued
from then on is due at that reading at the earliest. So the jobs it takes at one reading are
before those it takes at the next, and all jobs are started in the order of their deadlines.

## Main results

* `TimerSystem.started_performAll` — jobs are started in the order of their deadlines, after
  them, and a timeout once at most.
* `TimerSystem.not_started_of_clearTimeout` — what was cleared is not started any more.
* `TimerSystem.started_of_due` — what was not cleared is started as soon as the executor is done
  with a reading of the clock that is past its deadline.
-/

namespace BoaLigero

/-- A job goes before another one: its deadline is earlier, or it was enqueued earlier. -/
def ClockJob.Before (job other : ClockJob) : Prop :=
  job.deadline < other.deadline ∨ job.deadline = other.deadline ∧ job.number < other.number

/-- The jobs that were started, in their order. -/
def startedJobs (events : List TimerEvent) : List ClockJob :=
  events.filterMap fun
    | .started job _ => some job
    | .enqueued _ => none

/-- Whether an action may take the jobs of a timer away. -/
def TimerAction.Drops (token : ℕ) : TimerAction → Prop
  | .clearTimeout id => (Int32.ofInt id).toInt = token
  | .clearAll | .fail | .stop => True
  | _ => False

theorem startedJobs_append (events rest : List TimerEvent) :
    startedJobs (events ++ rest) = startedJobs events ++ startedJobs rest :=
  List.filterMap_append

theorem enqueueClockJob_perm (job : ClockJob) (jobs : List ClockJob) :
    (enqueueClockJob job jobs).Perm (job :: jobs) := by
  induction jobs with
  | nil => exact .refl _
  | cons j jobs ih =>
      rw [enqueueClockJob]
      split
      · exact (ih.cons j).trans (.swap job j jobs)
      · exact .refl _

theorem mem_enqueueClockJob {job j : ClockJob} {jobs : List ClockJob} :
    j ∈ enqueueClockJob job jobs ↔ j = job ∨ j ∈ jobs := by
  rw [(enqueueClockJob_perm job jobs).mem_iff, List.mem_cons]

/-- **Jobs stay in their order** when one is enqueued after them. -/
theorem pairwise_enqueueClockJob {job : ClockJob} {jobs : List ClockJob}
    (h : jobs.Pairwise ClockJob.Before) (hnumber : ∀ j ∈ jobs, j.number < job.number) :
    (enqueueClockJob job jobs).Pairwise ClockJob.Before := by
  induction jobs with
  | nil => exact List.pairwise_singleton _ _
  | cons j jobs ih =>
      obtain ⟨hhead, htail⟩ := List.pairwise_cons.mp h
      rw [enqueueClockJob]
      split
      · next hle =>
          refine List.pairwise_cons.mpr ⟨fun k hk => ?_, ih htail fun k hk =>
            hnumber k (List.mem_cons_of_mem _ hk)⟩
          obtain rfl | hk := mem_enqueueClockJob.mp hk
          · rcases Nat.lt_or_eq_of_le hle with hlt | heq
            · exact .inl hlt
            · exact .inr ⟨heq, hnumber j List.mem_cons_self⟩
          · exact hhead k hk
      · next hgt =>
          have hlt := Nat.lt_of_not_le hgt
          refine List.pairwise_cons.mpr ⟨fun k hk => ?_, h⟩
          obtain rfl | hk := List.mem_cons.mp hk
          · exact .inl hlt
          · rcases hhead k hk with hbefore | ⟨heq, -⟩
            · exact .inl (Nat.lt_trans hlt hbefore)
            · exact .inl (heq ▸ hlt)

namespace TimerSystem

variable {self : TimerSystem} {events : List TimerEvent} {actions : List TimerAction}
  {dropped : ℕ → Prop}

/-! ### The order of jobs -/

/-- **Jobs are in order**: those that wait, and those that were started or are to be run, which
are due while the others are not. -/
structure Ordered (events : List TimerEvent) (system : TimerSystem) : Prop where
  now_le : system.now ≤ system.clock
  waiting : system.clockJobs.Pairwise ClockJob.Before
  taken : (startedJobs events ++ system.jobsToRun).Pairwise ClockJob.Before
  taken_lt : ∀ job ∈ startedJobs events ++ system.jobsToRun, job.deadline < system.now
  le_waiting : ∀ job ∈ system.clockJobs, system.now ≤ job.deadline
  number_lt : ∀ job ∈ system.clockJobs, job.number < system.enqueued
  running_le : ∀ job startedAt, system.running = some (job, startedAt) → system.now ≤ startedAt
  started_lt : ∀ job now, .started job now ∈ events → job.deadline < now

theorem ordered_start : Ordered [] start where
  now_le := Nat.le_refl _
  waiting := .nil
  taken := .nil
  taken_lt _ h := by cases h
  le_waiting _ h := by cases h
  number_lt _ h := by cases h
  running_le _ _ h := by cases h
  started_lt _ _ h := by cases h

/-- A job is enqueued that is due later. -/
theorem Ordered.enqueue (h : Ordered events self) {deadline : ℕ} (hdeadline : self.now ≤ deadline)
    (token : ℕ) (interval : Option ℕ) :
    Ordered (events ++ (self.enqueue deadline token interval).2)
      (self.enqueue deadline token interval).1 := by
  have hstarted : startedJobs (events ++ (self.enqueue deadline token interval).2) =
      startedJobs events := (startedJobs_append ..).trans (List.append_nil _)
  refine ⟨h.now_le, pairwise_enqueueClockJob h.waiting h.number_lt, ?_, ?_, ?_, ?_, h.running_le,
    ?_⟩
  · rw [hstarted]
    exact h.taken
  · rw [hstarted]
    exact h.taken_lt
  · intro job hmem
    obtain rfl | hmem := mem_enqueueClockJob.mp hmem
    · exact hdeadline
    · exact h.le_waiting job hmem
  · intro job hmem
    obtain rfl | hmem := mem_enqueueClockJob.mp hmem
    · exact Nat.lt_succ_self _
    · exact Nat.lt_succ_of_lt (h.number_lt job hmem)
  · intro job now hmem
    obtain hmem | hmem := List.mem_append.mp hmem
    · exact h.started_lt job now hmem
    · cases List.mem_singleton.mp hmem

/-- Fewer jobs are in order, too. -/
theorem Ordered.of_sublist (h : Ordered events self) {self' : TimerSystem}
    (hjobs : self'.clockJobs.Sublist self.clockJobs)
    (hrun : self'.jobsToRun.Sublist self.jobsToRun) (hnow : self'.now = self.now)
    (hclock : self.clock ≤ self'.clock) (henqueued : self'.enqueued = self.enqueued)
    (hrunning : self'.running = none ∨ self'.running = self.running) : Ordered events self' where
  now_le := hnow ▸ Nat.le_trans h.now_le hclock
  waiting := h.waiting.sublist hjobs
  taken := h.taken.sublist (List.Sublist.append_left hrun _)
  taken_lt job hmem := hnow ▸ h.taken_lt job ((List.Sublist.append_left hrun _).subset hmem)
  le_waiting job hmem := hnow ▸ h.le_waiting job (hjobs.subset hmem)
  number_lt job hmem := henqueued ▸ h.number_lt job (hjobs.subset hmem)
  running_le job startedAt hsome := by
    rcases hrunning with hnone | heq
    · rw [hnone] at hsome
      cases hsome
    · exact hnow ▸ h.running_le job startedAt (heq ▸ hsome)
  started_lt := h.started_lt

/-- What is due is behind what was started. -/
theorem Ordered.takeDue (h : Ordered events self) (hrun : self.jobsToRun = [])
    (hrunning : self.running = none) : Ordered events self.takeDue := by
  have htaken := h.taken
  have htaken_lt := h.taken_lt
  rw [hrun, List.append_nil] at htaken htaken_lt
  refine ⟨Nat.le_refl _, h.waiting.sublist List.filter_sublist, ?_, ?_, ?_, ?_, ?_, h.started_lt⟩
  · refine List.pairwise_append.mpr ⟨htaken, h.waiting.sublist List.filter_sublist, ?_⟩
    intro job hjob other hother
    have hother' := h.le_waiting other (List.mem_of_mem_filter hother)
    exact .inl (Nat.lt_of_lt_of_le (htaken_lt job hjob) hother')
  · intro job hmem
    obtain hmem | hmem := List.mem_append.mp hmem
    · exact Nat.lt_of_lt_of_le (htaken_lt job hmem) h.now_le
    · exact of_decide_eq_true (List.mem_filter.mp hmem).2
  · intro job hmem
    have hle := (List.mem_filter.mp hmem).2
    simp only [decide_eq_true_eq] at hle
    exact hle.1
  · exact fun job hmem => h.number_lt job (List.mem_of_mem_filter hmem)
  · intro job startedAt hsome
    rw [TimerSystem.takeDue, hrunning] at hsome
    cases hsome

/-- The first of the jobs to run is started behind the others. -/
theorem Ordered.next (h : Ordered events self) : Ordered (events ++ self.next.2) self.next.1 := by
  rw [TimerSystem.next]
  split
  · rw [List.append_nil]
    exact h
  · next job rest hrun =>
      split
      · rw [List.append_nil]
        exact h.of_sublist (.refl _) (hrun ▸ List.sublist_cons_self job rest) rfl (Nat.le_refl _)
          rfl (.inr rfl)
      · have hstarted : startedJobs (events ++ [.started job self.now]) ++ rest =
            startedJobs events ++ self.jobsToRun := by
          rw [startedJobs_append, hrun, List.append_assoc]
          rfl
        refine ⟨h.now_le, h.waiting, ?_, ?_, h.le_waiting, h.number_lt, ?_, ?_⟩
        · rw [hstarted]
          exact h.taken
        · rw [hstarted]
          exact h.taken_lt
        · intro job' startedAt hsome
          cases hsome
          exact h.now_le
        · intro job' now hmem
          obtain hmem | hmem := List.mem_append.mp hmem
          · exact h.started_lt job' now hmem
          · cases List.mem_singleton.mp hmem
            exact h.taken_lt job (List.mem_append_right _ (hrun ▸ List.mem_cons_self))

/-- An interval is enqueued again, with a deadline that is not before the reading. -/
theorem Ordered.finish (h : Ordered events self) :
    Ordered (events ++ self.finish.2) self.finish.1 := by
  rw [TimerSystem.finish]
  split
  · rw [List.append_nil]
    exact h
  · next job startedAt hrunning =>
      have h' : Ordered events { self with running := none } :=
        h.of_sublist (.refl _) (.refl _) rfl (Nat.le_refl _) rfl (.inl rfl)
      rcases hinterval : job.interval with _ | interval
      · simp only [List.append_nil]
        exact h.of_sublist (.refl _) (.refl _) rfl (Nat.le_refl _) rfl (.inl rfl)
      · exact h'.enqueue (Nat.le_trans (h.running_le job startedAt hrunning)
          (Nat.le_add_right _ _)) _ _

/-- **Every action keeps the order.** -/
theorem Ordered.perform (h : Ordered events self) {action : TimerAction}
    (hallows : self.Allows action) :
    Ordered (events ++ (self.perform action).2) (self.perform action).1 := by
  cases action with
  | setTimer delayI32 repeats =>
      rw [TimerSystem.perform, setTimer]
      split
      · refine Ordered.enqueue ?_ ?_ _ _
        · exact h.of_sublist (.refl _) (.refl _) rfl (Nat.le_refl _) rfl (.inr rfl)
        · exact Nat.le_trans h.now_le (Nat.le_add_right _ _)
      · rw [List.append_nil]
        exact h.of_sublist (.refl _) (.refl _) rfl (Nat.le_refl _) rfl (.inr rfl)
  | clearTimeout id =>
      rw [TimerSystem.perform, List.append_nil, clearTimeout]
      split
      · rw [clearInterval]
        simp only
        split <;> exact h.of_sublist (.refl _) (.refl _) rfl (Nat.le_refl _) rfl (.inr rfl)
      · exact h
  | clearAll =>
      rw [TimerSystem.perform, List.append_nil]
      exact h.of_sublist (.refl _) (.refl _) rfl (Nat.le_refl _) rfl (.inr rfl)
  | advance time =>
      rw [TimerSystem.perform, List.append_nil]
      exact h.of_sublist (.refl _) (.refl _) rfl hallows rfl (.inr rfl)
  | takeDue => exact (List.append_nil events).symm ▸ h.takeDue hallows.1 hallows.2
  | next => exact h.next
  | finish => exact h.finish
  | fail =>
      rw [TimerSystem.perform, List.append_nil, fail]
      split
      · exact h
      · exact h.of_sublist (List.nil_sublist _) (List.nil_sublist _) rfl (Nat.le_refl _) rfl
          (.inl rfl)
  | stop =>
      rw [TimerSystem.perform, List.append_nil]
      exact h.of_sublist (List.nil_sublist _) (.refl _) rfl (Nat.le_refl _) rfl (.inr rfl)

/-! ### The jobs of a timer -/

/-- The jobs that are there. -/
def pending (self : TimerSystem) : List ClockJob :=
  self.running.toList.map Prod.fst ++ (self.jobsToRun ++ self.clockJobs)

/-- The timeouts among jobs, by their tokens. -/
def timeoutTokens (jobs : List ClockJob) : List ℕ :=
  (jobs.filter (·.interval.isNone)).map ClockJob.token

/-- Whether actions may take the jobs of a timer away, once its id was handed out. An interval that
clears itself while it runs is enqueued again, so that what counts is not what follows the enqueuing
of a job but what follows the call that set the timer. -/
def Dropped (self : TimerSystem) : List TimerAction → ℕ → Prop
  | [], _ => False
  | action :: actions, token =>
      action.Drops token ∧ token < self.id ∨ (self.perform action).1.Dropped actions token

/-- What may have been taken away after one more action. -/
def afterDrop (self : TimerSystem) (action : TimerAction) (dropped : ℕ → Prop) (token : ℕ) :
    Prop :=
  dropped token ∨ action.Drops token ∧ token < self.id

/-- **A timer has one job**, whose token is in the map unless it is revoked, and what was enqueued
is there until it is started or taken away. -/
structure Tracked (dropped : ℕ → Prop) (events : List TimerEvent) (system : TimerSystem) :
    Prop where
  id_pos : 0 < system.id
  active_or_revoked : ∀ t, 0 < t → t < system.id → t ∈ system.activeMap ∨ t ∈ system.revoked
  active_lt : ∀ t ∈ system.activeMap, t < system.id
  revoked_lt : ∀ t ∈ system.revoked, t < system.id
  pending_nodup : (system.pending.map ClockJob.token).Nodup
  pending_lt : ∀ job ∈ system.pending, job.token < system.id
  started_nodup : (timeoutTokens (startedJobs events)).Nodup
  started_lt : ∀ t ∈ timeoutTokens (startedJobs events), t < system.id
  started_gone : ∀ job ∈ system.jobsToRun ++ system.clockJobs,
    job.token ∉ timeoutTokens (startedJobs events)
  running_gone : ∀ job startedAt, system.running = some (job, startedAt) →
    job.interval ≠ none → job.token ∉ timeoutTokens (startedJobs events)
  revoked_dropped : ∀ job ∈ system.pending, job.token ∈ system.revoked → dropped job.token
  accounted : ∀ job, .enqueued job ∈ events →
    dropped job.token ∨ job ∈ startedJobs events ∨
      job ∈ system.jobsToRun ++ system.clockJobs

theorem tracked_start : Tracked (fun _ => False) [] start where
  id_pos := Nat.one_pos
  active_or_revoked _ hpos hlt := absurd hpos (Nat.not_lt.mpr (Nat.le_of_lt_succ hlt))
  active_lt _ h := by cases h
  revoked_lt _ h := by cases h
  pending_nodup := .nil
  pending_lt _ h := by cases h
  started_nodup := .nil
  started_lt _ h := by cases h
  started_gone _ h := by cases h
  running_gone _ _ h := by cases h
  revoked_dropped _ h := by cases h
  accounted _ h := by cases h

/-- An action after which no job is there that was not there before. -/
theorem Tracked.shrink (h : Tracked dropped events self) (action : TimerAction)
    {self' : TimerSystem} (hid : self'.id = self.id)
    (hactive : ∀ t ∈ self.activeMap, t ∈ self'.activeMap ∨ t ∈ self'.revoked)
    (hactive' : ∀ t ∈ self'.activeMap, t ∈ self.activeMap)
    (hrevoked : ∀ t ∈ self.revoked, t ∈ self'.revoked)
    (hrevoked_lt : ∀ t ∈ self'.revoked, t < self.id)
    (hnodup : (self'.pending.map ClockJob.token).Nodup)
    (hsub : ∀ job ∈ self'.pending, job ∈ self.pending)
    (hrunning : self'.running = none ∨ self'.running = self.running)
    (hqueued : ∀ job ∈ self'.jobsToRun ++ self'.clockJobs,
      job ∈ self.jobsToRun ++ self.clockJobs)
    (hdropped : ∀ job ∈ self'.pending, job.token ∈ self'.revoked →
      job.token ∈ self.revoked ∨ action.Drops job.token)
    (hkept : ∀ job ∈ self.jobsToRun ++ self.clockJobs,
      job ∈ self'.jobsToRun ++ self'.clockJobs ∨ self.afterDrop action dropped job.token) :
    Tracked (self.afterDrop action dropped) events self' where
  id_pos := hid ▸ h.id_pos
  active_or_revoked t hpos hlt := by
    rcases h.active_or_revoked t hpos (hid ▸ hlt) with hmem | hmem
    · exact hactive t hmem
    · exact .inr (hrevoked t hmem)
  active_lt t hmem := hid ▸ h.active_lt t (hactive' t hmem)
  revoked_lt t hmem := hid ▸ hrevoked_lt t hmem
  pending_nodup := hnodup
  pending_lt job hmem := hid ▸ h.pending_lt job (hsub job hmem)
  started_nodup := h.started_nodup
  started_lt t hmem := hid ▸ h.started_lt t hmem
  started_gone job hmem := h.started_gone job (hqueued job hmem)
  running_gone job startedAt hsome := by
    rcases hrunning with hnone | heq
    · rw [hnone] at hsome
      cases hsome
    · exact h.running_gone job startedAt (heq ▸ hsome)
  revoked_dropped job hmem hrev := by
    rcases hdropped job hmem hrev with hold | hdrops
    · exact .inl (h.revoked_dropped job (hsub job hmem) hold)
    · exact .inr ⟨hdrops, h.pending_lt job (hsub job hmem)⟩
  accounted job hmem := by
    rcases h.accounted job hmem with hdrop | hstarted | hqueue
    · exact .inl (.inl hdrop)
    · exact .inr (.inl hstarted)
    · rcases hkept job hqueue with hqueue | hdrop
      · exact .inr (.inr hqueue)
      · exact .inl hdrop

/-- An action that leaves the jobs as they are. -/
theorem Tracked.keep (h : Tracked dropped events self) (action : TimerAction)
    {self' : TimerSystem} (hid : self'.id = self.id)
    (hactive : ∀ t ∈ self.activeMap, t ∈ self'.activeMap ∨ t ∈ self'.revoked)
    (hactive' : ∀ t ∈ self'.activeMap, t ∈ self.activeMap)
    (hrevoked : ∀ t ∈ self.revoked, t ∈ self'.revoked)
    (hnew : ∀ t ∈ self'.revoked, t ∈ self.revoked ∨ t ∈ self.activeMap ∧ action.Drops t)
    (hrunning : self'.running = self.running) (hrun : self'.jobsToRun = self.jobsToRun)
    (hjobs : self'.clockJobs = self.clockJobs) :
    Tracked (self.afterDrop action dropped) events self' := by
  have hpending : self'.pending = self.pending := by rw [pending, pending, hrunning, hrun, hjobs]
  refine h.shrink action hid hactive hactive' hrevoked (fun t hmem => ?_)
    (hpending ▸ h.pending_nodup) (fun job hmem => hpending ▸ hmem) (.inr hrunning)
    (fun job hmem => ?_)
    (fun job _ hrev => ?_) fun job hmem => .inl ?_
  · rcases hnew t hmem with hold | ⟨hmem, -⟩
    · exact h.revoked_lt t hold
    · exact h.active_lt t hmem
  · rwa [hrun, hjobs] at hmem
  · rcases hnew job.token hrev with hold | ⟨-, hdrops⟩
    · exact .inl hold
    · exact .inr hdrops
  · rwa [hrun, hjobs]

/-- The jobs that are there once one is enqueued. -/
theorem pending_enqueue_perm (self : TimerSystem) (deadline token : ℕ) (interval : Option ℕ) :
    (self.enqueue deadline token interval).1.pending.Perm
      (⟨deadline, self.enqueued, token, interval⟩ :: self.pending) := by
  rw [pending, pending]
  refine (List.Perm.append_left _ ((enqueueClockJob_perm _ _).append_left _)).trans ?_
  exact (List.perm_middle.append_left _).trans List.perm_middle

/-- **A job is enqueued** for a timer that has none. -/
theorem Tracked.enqueue (h : Tracked dropped events self) {token : ℕ}
    (hlt : token < self.id) (hnew : ∀ job ∈ self.pending, job.token ≠ token)
    (hstarted : token ∉ timeoutTokens (startedJobs events))
    (hrevoked : token ∈ self.revoked → dropped token) (deadline : ℕ)
    (interval : Option ℕ) :
    Tracked dropped (events ++ (self.enqueue deadline token interval).2)
      (self.enqueue deadline token interval).1 := by
  have hevents : startedJobs (events ++ (self.enqueue deadline token interval).2) =
      startedJobs events := (startedJobs_append ..).trans (List.append_nil _)
  set job : ClockJob := ⟨deadline, self.enqueued, token, interval⟩ with hjob
  have hperm := pending_enqueue_perm self deadline token interval
  have hmem : ∀ j, j ∈ (self.enqueue deadline token interval).1.pending ↔
      j = job ∨ j ∈ self.pending := fun j => by rw [hperm.mem_iff, List.mem_cons]
  have hqueued : ∀ j, j ∈ (self.enqueue deadline token interval).1.jobsToRun ++
      (self.enqueue deadline token interval).1.clockJobs ↔
      j = job ∨ j ∈ self.jobsToRun ++ self.clockJobs := by
    intro j
    have hclock : j ∈ (self.enqueue deadline token interval).1.clockJobs ↔
        j = job ∨ j ∈ self.clockJobs := mem_enqueueClockJob
    have hrun : (self.enqueue deadline token interval).1.jobsToRun = self.jobsToRun := rfl
    rw [List.mem_append, hclock, hrun, List.mem_append]
    exact or_left_comm
  refine ⟨h.id_pos, h.active_or_revoked, h.active_lt, h.revoked_lt, ?_, ?_, ?_, ?_, ?_, ?_, ?_, ?_⟩
  · rw [(hperm.map _).nodup_iff, List.map_cons, List.nodup_cons]
    refine ⟨fun hin => ?_, h.pending_nodup⟩
    obtain ⟨j, hj, heq⟩ := List.mem_map.mp hin
    exact hnew j hj heq
  · intro j hj
    obtain rfl | hj := (hmem j).mp hj
    · exact hlt
    · exact h.pending_lt j hj
  · rw [hevents]
    exact h.started_nodup
  · rw [hevents]
    exact h.started_lt
  · intro j hj
    rw [hevents]
    obtain rfl | hj := (hqueued j).mp hj
    · exact hstarted
    · exact h.started_gone j hj
  · rw [hevents]
    exact h.running_gone
  · intro j hj hrev
    obtain rfl | hj := (hmem j).mp hj
    · exact hrevoked hrev
    · exact h.revoked_dropped j hj hrev
  · intro j hj
    rw [hevents]
    obtain hj | hj := List.mem_append.mp hj
    · rcases h.accounted j hj with hdrop | hstarted | hqueue
      · exact .inl hdrop
      · exact .inr (.inl hstarted)
      · exact .inr (.inr ((hqueued j).mpr (.inr hqueue)))
    · cases List.mem_singleton.mp hj
      exact .inr (.inr ((hqueued job).mpr (.inl rfl)))

theorem mem_retainActive {t : ℕ} :
    t ∈ self.retainActive.activeMap ↔ t ∈ self.activeMap ∧ t ∉ self.revoked := by
  simp [retainActive]

/-- Forgetting timers that are gone changes nothing. -/
theorem Tracked.retainActive (h : Tracked dropped events self) (action : TimerAction) :
    Tracked (self.afterDrop action dropped) events self.retainActive := by
  refine h.keep action rfl (fun t ht => ?_) (fun t ht => (mem_retainActive.mp ht).1)
    (fun _ ht => ht) (fun _ ht => .inl ht) rfl rfl rfl
  by_cases hrev : t ∈ self.revoked
  · exact .inr hrev
  · exact .inl (mem_retainActive.mpr ⟨ht, hrev⟩)

/-- A new timer has no job yet. -/
theorem Tracked.newTimer (h : Tracked dropped events self) :
    Tracked dropped events
      { self with id := self.id + 1, activeMap := self.id :: self.activeMap } := by
  refine ⟨Nat.succ_pos _, fun t hpos hlt => ?_, fun t ht => ?_,
    fun t ht => Nat.lt_succ_of_lt (h.revoked_lt t ht), h.pending_nodup,
    fun job hjob => Nat.lt_succ_of_lt (h.pending_lt job hjob), h.started_nodup,
    fun t ht => Nat.lt_succ_of_lt (h.started_lt t ht), h.started_gone, h.running_gone,
    h.revoked_dropped, h.accounted⟩
  · rcases Nat.lt_or_eq_of_le (Nat.le_of_lt_succ hlt) with hlt | rfl
    · exact (h.active_or_revoked t hpos hlt).imp_left (List.mem_cons_of_mem _)
    · exact .inl List.mem_cons_self
  · obtain rfl | ht := List.mem_cons.mp ht
    · exact Nat.lt_succ_self _
    · exact Nat.lt_succ_of_lt (h.active_lt t ht)

theorem Tracked.setTimer (h : Tracked dropped events self) (delayI32 : ℤ) (repeats : Bool) :
    Tracked (self.afterDrop (.setTimer delayI32 repeats) dropped)
      (events ++ (self.setTimer delayI32 repeats).2) (self.setTimer delayI32 repeats).1 := by
  have h' := h.retainActive (.setTimer delayI32 repeats)
  rw [TimerSystem.setTimer]
  split
  · refine h'.newTimer.enqueue (Nat.lt_succ_self _) (fun job hjob => ?_) (fun ht => ?_)
      (fun ht => ?_) _ _
    · exact Nat.ne_of_lt (h'.pending_lt job hjob)
    · exact absurd (h'.started_lt _ ht) (Nat.lt_irrefl _)
    · exact absurd (h'.revoked_lt _ ht) (Nat.lt_irrefl _)
  · rw [List.append_nil]
    exact h'

theorem Tracked.clearTimeout (h : Tracked dropped events self) (id : ℤ) :
    Tracked (self.afterDrop (.clearTimeout id) dropped) events (self.clearTimeout id) := by
  rw [TimerSystem.clearTimeout]
  split
  · next hpos =>
      rw [clearInterval]
      split
      · next hmem =>
          have hactive := (mem_retainActive.mp hmem).1
          refine h.keep _ rfl (fun t ht => ?_) (fun t ht => ?_)
            (fun t ht => List.mem_cons_of_mem _ ht) (fun t ht => ?_) rfl rfl rfl
          · by_cases heq : t = (Int32.ofInt id).toInt.toNat
            · exact .inr (heq ▸ List.mem_cons_self)
            · by_cases hrev : t ∈ self.revoked
              · exact .inr (List.mem_cons_of_mem _ hrev)
              · refine .inl (List.mem_filter.mpr ⟨mem_retainActive.mpr ⟨ht, hrev⟩, ?_⟩)
                exact decide_eq_true heq
          · exact (mem_retainActive.mp (List.mem_of_mem_filter ht)).1
          · obtain rfl | ht := List.mem_cons.mp ht
            · exact .inr ⟨hactive, (Int.toNat_of_nonneg (Int.le_of_lt hpos)).symm⟩
            · exact .inl ht
      · exact h.retainActive _
  · exact h.keep _ rfl (fun t ht => .inl ht) (fun t ht => ht) (fun t ht => ht)
      (fun t ht => .inl ht) rfl rfl rfl

theorem Tracked.clearAll (h : Tracked dropped events self) :
    Tracked (self.afterDrop .clearAll dropped) events
      { self with activeMap := [], revoked := self.activeMap ++ self.revoked } := by
  refine h.keep _ rfl (fun t ht => .inr (List.mem_append_left _ ht)) (fun t ht => by cases ht)
    (fun t ht => List.mem_append_right _ ht) (fun t ht => ?_) rfl rfl rfl
  rcases List.mem_append.mp ht with ht | ht
  · exact .inr ⟨ht, trivial⟩
  · exact .inl ht

/-- The jobs that are taken or left are those that were there, but for cancelled ones. -/
theorem Tracked.takeDue (h : Tracked dropped events self) (hrun : self.jobsToRun = [])
    (hrunning : self.running = none) :
    Tracked (self.afterDrop .takeDue dropped) events self.takeDue := by
  have hpending : self.pending = self.clockJobs := by
    rw [pending, hrunning, hrun]
    rfl
  have hpending' : self.takeDue.pending = self.takeDue.jobsToRun ++ self.takeDue.clockJobs := by
    rw [pending, TimerSystem.takeDue, hrunning]
    rfl
  have hmem : ∀ job ∈ self.takeDue.jobsToRun ++ self.takeDue.clockJobs, job ∈ self.clockJobs := by
    intro job hjob
    rcases List.mem_append.mp hjob with hjob | hjob
    · exact List.mem_of_mem_filter hjob
    · exact List.mem_of_mem_filter hjob
  have hnodup := h.pending_nodup
  rw [hpending] at hnodup
  refine h.shrink _ rfl (fun t ht => .inl ht) (fun t ht => ht) (fun t ht => ht)
    (fun t ht => h.revoked_lt t ht) ?_ (fun job hjob => ?_) (.inr rfl) (fun job hjob => ?_)
    (fun job _ hrev => .inl hrev) fun job hjob => ?_
  · rw [hpending', List.map_append]
    refine (hnodup.sublist (List.filter_sublist.map _)).append
      (hnodup.sublist (List.filter_sublist.map _)) fun t hdue hkept => ?_
    obtain ⟨job, hjob, rfl⟩ := List.mem_map.mp hdue
    obtain ⟨other, hother, heq⟩ := List.mem_map.mp hkept
    have hsame : other = job := List.inj_on_of_nodup_map hnodup (List.mem_of_mem_filter hother)
      (List.mem_of_mem_filter hjob) heq
    have hlt := of_decide_eq_true (List.mem_filter.mp hjob).2
    have hle := (of_decide_eq_true (List.mem_filter.mp hother).2).1
    exact absurd hlt (Nat.not_lt.mpr (hsame ▸ hle))
  · rw [hpending'] at hjob
    exact hpending ▸ hmem job hjob
  · exact List.mem_append_right _ (hmem job hjob)
  · rw [hrun, List.nil_append] at hjob
    by_cases hlt : job.deadline < self.clock
    · exact .inl (List.mem_append_left _ (List.mem_filter.mpr ⟨hjob, decide_eq_true hlt⟩))
    · by_cases hrev : job.token ∈ self.revoked
      · exact .inr (.inl (h.revoked_dropped job (hpending ▸ hjob) hrev))
      · refine .inl (List.mem_append_right _ (List.mem_filter.mpr ⟨hjob, ?_⟩))
        exact decide_eq_true ⟨Nat.not_lt.mp hlt, hrev⟩

/-- The first of the jobs to run is started, or was cancelled. -/
theorem Tracked.next (h : Tracked dropped events self) (hrunning : self.running = none) :
    Tracked (self.afterDrop .next dropped) (events ++ self.next.2) self.next.1 := by
  rw [TimerSystem.next]
  split
  · rw [List.append_nil]
    exact h.keep _ rfl (fun t ht => .inl ht) (fun t ht => ht) (fun t ht => ht)
      (fun t ht => .inl ht) rfl rfl rfl
  · next job rest hrun =>
      have hpending : self.pending = job :: (rest ++ self.clockJobs) := by
        rw [pending, hrunning, hrun]
        rfl
      have hnodup := h.pending_nodup
      rw [hpending, List.map_cons, List.nodup_cons] at hnodup
      have hqueued : ∀ j ∈ rest ++ self.clockJobs, j ∈ self.jobsToRun ++ self.clockJobs := by
        intro j hj
        rw [hrun]
        exact List.mem_cons_of_mem _ hj
      have hcases : ∀ j ∈ self.jobsToRun ++ self.clockJobs,
          j = job ∨ j ∈ rest ++ self.clockJobs := by
        intro j hj
        rw [hrun] at hj
        exact List.mem_cons.mp hj
      split
      · next hrev =>
          rw [List.append_nil]
          refine h.shrink _ rfl (fun t ht => .inl ht) (fun t ht => ht) (fun t ht => ht)
            (fun t ht => h.revoked_lt t ht) ?_ (fun j hj => ?_) (.inr rfl) hqueued
            (fun j _ hrev => .inl hrev) fun j hj => ?_
          · rw [pending, hrunning]
            exact hnodup.2
          · rw [pending, hrunning] at hj
            rw [hpending]
            exact List.mem_cons_of_mem _ hj
          · obtain rfl | hj := hcases j hj
            · exact .inr (.inl (h.revoked_dropped j (hpending ▸ List.mem_cons_self) hrev))
            · exact .inl hj
      · next hrev =>
          have hstarted : startedJobs (events ++ [.started job self.now]) =
              startedJobs events ++ [job] := startedJobs_append ..
          have htokens : timeoutTokens (startedJobs events ++ [job]) =
              timeoutTokens (startedJobs events) ++ timeoutTokens [job] := by
            rw [timeoutTokens, List.filter_append, List.map_append]
            rfl
          have hsingle : ∀ t ∈ timeoutTokens [job], t = job.token := by
            intro t ht
            obtain ⟨j, hj, rfl⟩ := List.mem_map.mp ht
            rw [List.mem_singleton.mp (List.mem_of_mem_filter hj)]
          have hgone := h.started_gone job (by rw [hrun]; exact List.mem_cons_self)
          have hlt := h.pending_lt job (hpending ▸ List.mem_cons_self)
          have hsame : pending { self with
              jobsToRun := rest, running := some (job, self.clock) } = self.pending := by
            rw [hpending]
            rfl
          refine ⟨h.id_pos, h.active_or_revoked, h.active_lt, h.revoked_lt, ?_, ?_, ?_, ?_, ?_,
            ?_, ?_, ?_⟩
          · rw [hsame]
            exact h.pending_nodup
          · rw [hsame]
            exact h.pending_lt
          · rw [hstarted, htokens]
            refine h.started_nodup.append ?_ fun t ht ht' => hgone (hsingle t ht' ▸ ht)
            exact ((List.nodup_singleton job.token).sublist (List.filter_sublist.map _))
          · rw [hstarted, htokens]
            intro t ht
            rcases List.mem_append.mp ht with ht | ht
            · exact h.started_lt t ht
            · exact hsingle t ht ▸ hlt
          · intro j hj hin
            rw [hstarted, htokens] at hin
            rcases List.mem_append.mp hin with hin | hin
            · exact h.started_gone j (hqueued j hj) hin
            · exact hnodup.1 (hsingle _ hin ▸ List.mem_map_of_mem hj)
          · intro j startedAt hsome hinterval
            cases hsome
            rw [hstarted, htokens]
            intro hin
            rcases List.mem_append.mp hin with hin | hin
            · exact hgone hin
            · obtain ⟨j, hj, -⟩ := List.mem_map.mp hin
              obtain ⟨hj, hnone⟩ := List.mem_filter.mp hj
              rw [List.mem_singleton.mp hj, Option.isNone_iff_eq_none] at hnone
              exact hinterval hnone
          · rw [hsame]
            exact fun j hj hrev => .inl (h.revoked_dropped j hj hrev)
          · intro j hj
            rw [hstarted]
            rcases List.mem_append.mp hj with hj | hj
            · rcases h.accounted j hj with hdrop | hstart | hqueue
              · exact .inl (.inl hdrop)
              · exact .inr (.inl (List.mem_append_left _ hstart))
              · obtain rfl | hqueue := hcases j hqueue
                · exact .inr (.inl (List.mem_append_right _ List.mem_cons_self))
                · exact .inr (.inr hqueue)
            · cases List.mem_singleton.mp hj

/-- A timeout is gone; an interval has its next job. -/
theorem Tracked.finish (h : Tracked dropped events self) :
    Tracked (self.afterDrop .finish dropped) (events ++ self.finish.2) self.finish.1 := by
  rw [TimerSystem.finish]
  split
  · rw [List.append_nil]
    exact h.keep _ rfl (fun t ht => .inl ht) (fun t ht => ht) (fun t ht => ht)
      (fun t ht => .inl ht) rfl rfl rfl
  · next job startedAt hrunning =>
      have hpending : self.pending = job :: (self.jobsToRun ++ self.clockJobs) := by
        rw [pending, hrunning]
        rfl
      have hnodup := h.pending_nodup
      rw [hpending, List.map_cons, List.nodup_cons] at hnodup
      have hmem : job ∈ self.pending := hpending ▸ List.mem_cons_self
      have hrest : ∀ j ∈ self.jobsToRun ++ self.clockJobs, j ∈ self.pending ∧
          j.token ≠ job.token := by
        intro j hj
        exact ⟨hpending ▸ List.mem_cons_of_mem _ hj,
          fun heq => hnodup.1 (heq ▸ List.mem_map_of_mem hj)⟩
      rcases hinterval : job.interval with _ | interval
      · simp only [List.append_nil]
        refine h.shrink _ rfl (fun t ht => ?_) (fun t ht => List.mem_of_mem_filter ht)
          (fun t ht => List.mem_cons_of_mem _ ht) (fun t ht => ?_) hnodup.2
          (fun j hj => (hrest j hj).1) (.inl rfl) (fun j hj => hj) (fun j hj hrev => ?_)
          fun j hj => .inl hj
        · by_cases heq : t = job.token
          · exact .inr (heq ▸ List.mem_cons_self)
          · exact .inl (List.mem_filter.mpr ⟨ht, decide_eq_true heq⟩)
        · obtain rfl | ht := List.mem_cons.mp ht
          · exact h.pending_lt job hmem
          · exact h.revoked_lt t ht
        · obtain heq | hrev := List.mem_cons.mp hrev
          · exact absurd heq (hrest j hj).2
          · exact .inl hrev
      · have h' : Tracked (self.afterDrop .finish dropped) events
            { self with running := none } := by
          refine h.shrink _ rfl (fun t ht => .inl ht) (fun t ht => ht) (fun t ht => ht)
            (fun t ht => h.revoked_lt t ht) hnodup.2 (fun j hj => (hrest j hj).1) (.inl rfl)
            (fun j hj => hj) (fun j _ hrev => .inl hrev) fun j hj => .inl hj
        refine h'.enqueue (h.pending_lt job hmem) (fun j hj => (hrest j hj).2) ?_
          (fun hrev => ?_) _ _
        · exact h.running_gone job startedAt hrunning
            (by rw [hinterval]; exact Option.some_ne_none _)
        · exact .inl (h.revoked_dropped job hmem hrev)

/-- All jobs are taken away. -/
theorem Tracked.fail (h : Tracked dropped events self) :
    Tracked (self.afterDrop .fail dropped) events self.fail := by
  rw [TimerSystem.fail]
  split
  · exact h.keep _ rfl (fun t ht => .inl ht) (fun t ht => ht) (fun t ht => ht)
      (fun t ht => .inl ht) rfl rfl rfl
  · next job startedAt hrunning =>
      refine h.shrink _ rfl (fun t ht => ?_) (fun t ht => ?_) (fun t ht => ?_) (fun t ht => ?_)
        .nil (fun j hj => by cases hj) (.inl rfl) (fun j hj => by cases hj)
        (fun j hj => by cases hj) fun j hj =>
          .inr (.inr ⟨trivial, h.pending_lt j (List.mem_append_right _ hj)⟩)
      · by_cases heq : t = job.token
        · exact .inr (heq ▸ List.mem_cons_self)
        · refine .inl ?_
          simp only
          split
          · exact List.mem_filter.mpr ⟨ht, decide_eq_true heq⟩
          · exact ht
      · simp only at ht
        split at ht
        · exact List.mem_of_mem_filter ht
        · exact ht
      · exact List.mem_cons_of_mem _ (List.mem_append_right _ ht)
      · have hpending : ∀ j, j = job ∨ j ∈ self.jobsToRun ∨ j ∈ self.clockJobs →
            j.token < self.id := by
          intro j hj
          refine h.pending_lt j ?_
          rw [pending, hrunning]
          simpa using hj
        rcases List.mem_cons.mp ht with rfl | ht
        · exact hpending job (.inl rfl)
        · rcases List.mem_append.mp ht with ht | ht
          · rcases List.mem_append.mp ht with ht | ht
            · obtain ⟨j, hj, rfl⟩ := List.mem_map.mp ht
              exact hpending j (.inr (.inl hj))
            · obtain ⟨j, hj, rfl⟩ := List.mem_map.mp ht
              exact hpending j (.inr (.inr hj))
          · exact h.revoked_lt t ht

theorem Tracked.stop (h : Tracked dropped events self) :
    Tracked (self.afterDrop .stop dropped) events self.stop := by
  have hsub : self.stop.pending.Sublist self.pending :=
    List.Sublist.append_left (List.Sublist.append_left (List.nil_sublist _) _) _
  refine h.shrink _ rfl (fun t ht => .inl ht) (fun t ht => ht)
    (fun t ht => List.mem_append_right _ ht) (fun t ht => ?_)
    (h.pending_nodup.sublist (hsub.map _)) (fun j hj => hsub.subset hj) (.inr rfl)
    (fun j hj => (List.Sublist.append_left (List.nil_sublist _) _).subset hj)
    (fun j _ _ => .inr trivial) fun j hj =>
      .inr (.inr ⟨trivial, h.pending_lt j (List.mem_append_right _ hj)⟩)
  rcases List.mem_append.mp ht with ht | ht
  · obtain ⟨j, hj, rfl⟩ := List.mem_map.mp ht
    exact h.pending_lt j (List.mem_append_right _ (List.mem_append_right _ hj))
  · exact h.revoked_lt t ht

/-- **Every action keeps track of the jobs.** -/
theorem Tracked.perform (h : Tracked dropped events self) {action : TimerAction}
    (hallows : self.Allows action) :
    Tracked (self.afterDrop action dropped) (events ++ (self.perform action).2)
      (self.perform action).1 := by
  have hnone := List.append_nil events
  cases action with
  | setTimer delayI32 repeats => exact h.setTimer delayI32 repeats
  | clearTimeout id => exact hnone.symm ▸ h.clearTimeout id
  | clearAll => exact hnone.symm ▸ h.clearAll
  | advance time =>
      exact hnone.symm ▸ h.keep _ rfl (fun t ht => .inl ht) (fun t ht => ht) (fun t ht => ht)
        (fun t ht => .inl ht) rfl rfl rfl
  | takeDue => exact hnone.symm ▸ h.takeDue hallows.1 hallows.2
  | next => exact h.next hallows
  | finish => exact h.finish
  | fail => exact hnone.symm ▸ h.fail
  | stop => exact hnone.symm ▸ h.stop

/-! ### Runs -/

/-- What is tracked with more to be excused. -/
theorem Tracked.mono (h : Tracked dropped events self) {dropped' : ℕ → Prop}
    (hmono : ∀ t, dropped t → dropped' t) : Tracked dropped' events self where
  id_pos := h.id_pos
  active_or_revoked := h.active_or_revoked
  active_lt := h.active_lt
  revoked_lt := h.revoked_lt
  pending_nodup := h.pending_nodup
  pending_lt := h.pending_lt
  started_nodup := h.started_nodup
  started_lt := h.started_lt
  started_gone := h.started_gone
  running_gone := h.running_gone
  revoked_dropped job hmem hrev := hmono _ (h.revoked_dropped job hmem hrev)
  accounted job hmem := (h.accounted job hmem).imp_left (hmono _)

/-- **Along a run** the jobs stay in order and are kept track of. -/
theorem performAll_invariant (hordered : Ordered events self)
    (htracked : Tracked dropped events self) {more : List TimerAction}
    (hallows : self.AllowsAll more) :
    Ordered (events ++ (self.performAll more).2) (self.performAll more).1 ∧
      Tracked (fun t => dropped t ∨ self.Dropped more t)
        (events ++ (self.performAll more).2) (self.performAll more).1 := by
  induction more generalizing self events dropped with
  | nil =>
      rw [performAll, List.append_nil]
      exact ⟨hordered, htracked.mono fun _ => .inl⟩
  | cons action more ih =>
      obtain ⟨hordered', htracked'⟩ :=
        ih (hordered.perform hallows.1) (htracked.perform hallows.1) hallows.2
      rw [List.append_assoc] at hordered' htracked'
      exact ⟨hordered', htracked'.mono fun _ => or_assoc.mp⟩

theorem performAll_start (hallows : start.AllowsAll actions) :
    Ordered (start.performAll actions).2 (start.performAll actions).1 ∧
      Tracked (start.Dropped actions) (start.performAll actions).2
        (start.performAll actions).1 := by
  obtain ⟨hordered, htracked⟩ := performAll_invariant ordered_start tracked_start hallows
  exact ⟨hordered, htracked.mono fun _ h => h.resolve_left not_false⟩

/-- **Jobs are started in the order of their deadlines**, those with one deadline in the order in
which they were enqueued, over all that the executor ever takes. Each is taken at a time past its
deadline, and a timeout is started once at most. -/
theorem started_performAll (hallows : start.AllowsAll actions) :
    (startedJobs (start.performAll actions).2).Pairwise ClockJob.Before ∧
      (∀ job now, .started job now ∈ (start.performAll actions).2 → job.deadline < now) ∧
      (timeoutTokens (startedJobs (start.performAll actions).2)).Nodup := by
  obtain ⟨hordered, htracked⟩ := performAll_start hallows
  have htaken := hordered.taken
  rw [List.pairwise_append] at htaken
  exact ⟨htaken.1, hordered.started_lt, htracked.started_nodup⟩

/-- Two timeouts and an interval, of which the executor takes two. -/
def timerActions : List TimerAction :=
  [.setTimer 5 false, .setTimer 3 true, .setTimer 9 false, .advance 6000000, .takeDue, .next,
    .finish, .next, .finish]

theorem allowsAll_timerActions : start.AllowsAll timerActions :=
  ⟨trivial, trivial, trivial, Nat.zero_le _, ⟨rfl, rfl⟩, rfl, trivial, rfl, trivial, trivial⟩

theorem started_performAll_timerActions :
    (startedJobs (start.performAll timerActions).2).Pairwise ClockJob.Before ∧
      (startedJobs (start.performAll timerActions).2).map ClockJob.token = [2, 1] :=
  ⟨(started_performAll allowsAll_timerActions).1, by decide⟩

/-- What is revoked stays revoked and is not started. -/
theorem perform_revoked {token : ℕ} (h : token ∈ self.revoked) (action : TimerAction) :
    token ∈ (self.perform action).1.revoked ∧
      ∀ job ∈ startedJobs (self.perform action).2, job.token ≠ token := by
  cases action with
  | setTimer delayI32 repeats =>
      rw [perform, setTimer]
      split <;> exact ⟨h, fun job hjob => by cases hjob⟩
  | clearTimeout id =>
      refine ⟨?_, fun job hjob => by cases hjob⟩
      rw [perform, clearTimeout]
      split
      · rw [clearInterval]
        simp only
        split
        · exact List.mem_cons_of_mem _ h
        · exact h
      · exact h
  | clearAll => exact ⟨List.mem_append_right _ h, fun job hjob => by cases hjob⟩
  | advance time => exact ⟨h, fun job hjob => by cases hjob⟩
  | takeDue => exact ⟨h, fun job hjob => by cases hjob⟩
  | next =>
      rw [perform, next]
      split
      · exact ⟨h, fun job hjob => by cases hjob⟩
      · split
        · exact ⟨h, fun job hjob => by cases hjob⟩
        · next hrev =>
            refine ⟨h, fun job hjob heq => hrev ?_⟩
            rw [← List.mem_singleton.mp hjob, heq]
            exact h
  | finish =>
      rw [perform, finish]
      split
      · exact ⟨h, fun job hjob => by cases hjob⟩
      · split
        · exact ⟨List.mem_cons_of_mem _ h, fun job hjob => by cases hjob⟩
        · exact ⟨h, fun job hjob => by cases hjob⟩
  | fail =>
      refine ⟨?_, fun job hjob => by cases hjob⟩
      rw [perform, fail]
      split
      · exact h
      · exact List.mem_cons_of_mem _ (List.mem_append_right _ h)
  | stop => exact ⟨List.mem_append_right _ h, fun job hjob => by cases hjob⟩

theorem performAll_revoked {token : ℕ} (h : token ∈ self.revoked) (more : List TimerAction) :
    ∀ job ∈ startedJobs (self.performAll more).2, job.token ≠ token := by
  induction more generalizing self with
  | nil => exact fun job hjob => by cases hjob
  | cons action more ih =>
      obtain ⟨hrev, hstarted⟩ := perform_revoked h action
      intro job hjob
      rw [performAll, startedJobs_append] at hjob
      rcases List.mem_append.mp hjob with hjob | hjob
      · exact hstarted job hjob
      · exact ih hrev job hjob

/-- The timer that `to_i32` makes of an id is cancelled. -/
theorem Tracked.revoked_clearTimeout (h : Tracked dropped events self) {id : ℤ} {token : ℕ}
    (heq : (Int32.ofInt id).toInt = token) (hpos : 0 < token) (hlt : token < self.id) :
    token ∈ (self.clearTimeout id).revoked := by
  have hcases := h.active_or_revoked token hpos hlt
  rw [TimerSystem.clearTimeout, heq, if_pos (by omega), clearInterval]
  simp only [Int.toNat_natCast]
  split
  · exact List.mem_cons_self
  · next hnot =>
      by_contra hrev
      exact hnot (mem_retainActive.mpr ⟨hcases.resolve_right hrev, hrev⟩)

/-- **What was cleared is not started any more**, whatever is done afterwards: neither a timeout
that is due nor an interval that runs. The id must be one that `to_i32` keeps. -/
theorem not_started_of_clearTimeout {before : List TimerAction}
    (hallows : start.AllowsAll before) {id : ℕ} (hpos : 0 < id) (hlt : id < 2 ^ 31)
    (hissued : id < (start.performAll before).1.id) (after : List TimerAction) :
    ∀ job ∈ startedJobs (((start.performAll before).1.clearTimeout id).performAll after).2,
      job.token ≠ id := by
  obtain ⟨-, htracked⟩ := performAll_start hallows
  exact performAll_revoked (htracked.revoked_clearTimeout
    (Int32.toInt_ofInt_of_le (by omega) (by omega)) hpos hissued) after

/-- The other ids, of which timers get the first half, turn negative and clear nothing. -/
theorem clearTimeout_of_ge (self : TimerSystem) {id : ℕ} (hge : 2 ^ 31 ≤ id) (hlt : id < 2 ^ 32) :
    self.clearTimeout id = self := by
  have hid : (Int32.ofInt id).toInt = id - 2 ^ 32 := by
    rw [Int32.toInt_ofInt, Int.bmod_def]
    simp only [Int32.size]
    omega
  rw [clearTimeout, hid, if_neg (by omega)]

theorem not_started_of_clearTimeout_timerActions :
    2 ∉ (startedJobs (((start.performAll timerActions).1.clearTimeout 2).performAll
      [.advance 20000000, .takeDue, .next, .finish, .next]).2).map ClockJob.token := by
  intro hmem
  obtain ⟨job, hjob, htoken⟩ := List.mem_map.mp hmem
  exact not_started_of_clearTimeout allowsAll_timerActions Nat.two_pos (by decide) (by decide) _
    job hjob htoken

/-- **Nothing is lost**: once the executor is done with the jobs it took, every job that was ever
enqueued was started or is not due yet, unless its timer was cleared or all jobs were dropped after
the timer was set. -/
theorem started_of_due (hallows : start.AllowsAll actions)
    (hrun : (start.performAll actions).1.jobsToRun = []) {job : ClockJob}
    (henqueued : .enqueued job ∈ (start.performAll actions).2)
    (hkept : ¬start.Dropped actions job.token) :
    job ∈ startedJobs (start.performAll actions).2 ∨
      job ∈ (start.performAll actions).1.clockJobs ∧
        (start.performAll actions).1.now ≤ job.deadline := by
  obtain ⟨hordered, htracked⟩ := performAll_start hallows
  rcases htracked.accounted job henqueued with hdrop | hstarted | hqueued
  · exact absurd hdrop hkept
  · exact .inl hstarted
  · rw [hrun, List.nil_append] at hqueued
    exact .inr ⟨hqueued, hordered.le_waiting job hqueued⟩

/-- The ids of timers that are not set yet are cleared, which says nothing about those timers. -/
def earlyClearActions : List TimerAction := .clearTimeout 1 :: .clearAll :: .stop :: timerActions

theorem started_of_due_earlyClearActions :
    (⟨5000000, 0, 1, none⟩ : ClockJob) ∈ startedJobs (start.performAll earlyClearActions).2 := by
  have hallows : start.AllowsAll earlyClearActions :=
    ⟨trivial, trivial, ⟨rfl, rfl⟩, allowsAll_timerActions⟩
  have hkept : ¬start.Dropped earlyClearActions 1 := by
    rintro (⟨-, h⟩ | ⟨-, h⟩ | ⟨-, h⟩ | ⟨⟨⟩, -⟩ | ⟨⟨⟩, -⟩ | ⟨⟨⟩, -⟩ | ⟨⟨⟩, -⟩ | ⟨⟨⟩, -⟩ | ⟨⟨⟩, -⟩ |
      ⟨⟨⟩, -⟩ | ⟨⟨⟩, -⟩ | ⟨⟨⟩, -⟩ | h)
    · exact absurd h (by decide)
    · exact absurd h (by decide)
    · exact absurd h (by decide)
    · exact h
  refine (started_of_due hallows (by decide) (by decide) hkept).resolve_right ?_
  exact fun h => absurd h.2 (by decide)

end TimerSystem

end BoaLigero
