import BoaLigero.Wintertc.TimerRuns
import Mathlib.Data.List.Range

/-!
# What Is Asked of Timers

While no job fails, a program may expect of its timers that no two have one id, that nothing runs
after it was cleared, that a timeout runs once and an interval stays until it is cleared, and that
the executor is done when no timer is left. An id from `2 ^ 31` on is a negative number to
`clearTimeout`, so that a timer with such an id cannot be cleared. All of it holds of the programs
that do not try to.

## Main results

* `TimerSystem.timers_conform` — what is asked of timers, in every run that clears no active timer
  by an id that turns negative.
* `TimerSystem.not_timers_conform` — a run that does.
-/

namespace BoaLigero

/-- Whether an action clears a timer: it is given its id, or a number that `to_i32` makes its
id. -/
def TimerAction.Clears (token : ℕ) : TimerAction → Prop
  | .clearTimeout id => id = token ∨ (Int32.ofInt id).toInt = token
  | .clearAll => True
  | _ => False

/-- Whether no job fails, and the executor is not told to stop. -/
def TimerAction.IsRegular : TimerAction → Prop
  | .fail | .stop => False
  | _ => True

/-- What takes the jobs of a timer away in a run without failures clears it. -/
theorem TimerAction.clears_of_drops {action : TimerAction} {token : ℕ}
    (hregular : action.IsRegular) (h : action.Drops token) : action.Clears token := by
  cases action with
  | clearTimeout id => exact .inr h
  | clearAll => exact trivial
  | fail | stop => exact hregular.elim
  | setTimer | advance | takeDue | next | finish => exact h.elim

namespace TimerSystem

variable {self : TimerSystem} {events : List TimerEvent} {actions : List TimerAction}
  {dropped : ℕ → Prop}

/-! ### What is asked of timers -/

/-- The id that a call returns. -/
def issuedId (self : TimerSystem) : TimerAction → Option ℕ
  | .setTimer _ _ => if self.id + 1 < 2 ^ 32 then some self.id else none
  | _ => none

/-- The ids that are returned one after the other. -/
def issuedIds (self : TimerSystem) : List TimerAction → List ℕ
  | [] => []
  | action :: actions =>
      (self.issuedId action).toList ++ (self.perform action).1.issuedIds actions

/-- Whether a timer is cleared once its id was handed out. -/
def Cleared (self : TimerSystem) : List TimerAction → ℕ → Prop
  | [], _ => False
  | action :: actions, token =>
      action.Clears token ∧ token < self.id ∨ (self.perform action).1.Cleared actions token

/-- A pass of the executor in which no code of the program runs: it turns to each of the jobs that
it takes. -/
def quietPass (self : TimerSystem) : TimerSystem × List TimerEvent :=
  self.takeDue.performAll (List.replicate self.takeDue.jobsToRun.length .next)

/-- **What holds between two passes**, given which timers were cleared and what happened so far. -/
structure Settled (cleared : ℕ → Prop) (events : List TimerEvent) (system : TimerSystem) :
    Prop where
  /-- A timeout ran once, in the first pass that read a time past its deadline. -/
  timeouts : ∀ job, .enqueued job ∈ events → job.interval = none → ¬cleared job.token →
    (startedJobs events).filter (·.token = job.token) =
      if job.deadline < system.now then [job] else []
  /-- An interval has one job. -/
  intervals : ∀ job, .enqueued job ∈ events → job.interval ≠ none → ¬cleared job.token →
    (system.clockJobs.map ClockJob.token).count job.token = 1
  /-- The map holds the timers whose job is queued and not cancelled. -/
  active : ∀ t, t ∈ system.activeMap ↔
    ∃ job ∈ system.clockJobs, job.token = t ∧ t ∉ system.revoked
  /-- Without a timer the next pass starts nothing and leaves nothing. -/
  finishes : system.activeMap = [] → system.quietPass.2 = [] ∧ system.quietPass.1.pending = []

/-- **What is asked of timers** in a run. -/
structure Conforms (actions : List TimerAction) : Prop where
  ids : (start.issuedIds actions).Nodup
  /-- What was cleared is not started any more. -/
  cleared : ∀ before action after token, actions = before ++ action :: after → 0 < token →
    token < (start.performAll before).1.id → action.Clears token →
    ∀ job ∈ startedJobs (((start.performAll before).1.perform action).1.performAll after).2,
      job.token ≠ token
  /-- Between two passes of the executor all timers are where they belong. -/
  settled : ∀ before after, actions = before ++ after →
    (start.performAll before).1.jobsToRun = [] → (start.performAll before).1.running = none →
    Settled (start.Cleared before) (start.performAll before).2 (start.performAll before).1
  /-- No timer runs twice in a pass. -/
  once : ∀ before pass after, actions = before ++ pass ++ after → .takeDue ∉ pass →
    ((startedJobs ((start.performAll before).1.performAll pass).2).map ClockJob.token).Nodup
  /-- Jobs run by their deadlines, and in the order in which they were enqueued. -/
  ordered : (startedJobs (start.performAll actions).2).Pairwise ClockJob.Before

/-- Whether an action does not try to clear an active timer by an id that turns negative. -/
def Recognizes (self : TimerSystem) : TimerAction → Prop
  | .clearTimeout id => 2 ^ 31 ≤ id → id.toNat ∉ self.activeMap
  | _ => True

/-- Whether no action of a run does. -/
def RecognizesAll (self : TimerSystem) : List TimerAction → Prop
  | [] => True
  | action :: actions =>
      self.Recognizes action ∧ (self.perform action).1.RecognizesAll actions

/-! ### Runs in parts -/

/-- A run of two parts is the run of the second part from where the first one ended, with what
happened in both. -/
theorem performAll_append (before after : List TimerAction) :
    self.performAll (before ++ after) =
      (((self.performAll before).1.performAll after).1,
        (self.performAll before).2 ++ ((self.performAll before).1.performAll after).2) := by
  induction before generalizing self with
  | nil => rfl
  | cons action before ih =>
      simp only [List.cons_append, performAll, ih, List.append_assoc]

/-- What a run of two parts needs is what each of them needs where it begins. -/
theorem allowsAll_append {before after : List TimerAction} :
    self.AllowsAll (before ++ after) ↔
      self.AllowsAll before ∧ (self.performAll before).1.AllowsAll after := by
  induction before generalizing self with
  | nil => exact (true_and _).to_iff.symm
  | cons action before ih =>
      rw [List.cons_append, AllowsAll, AllowsAll, ih, and_assoc]
      rfl

/-- The same for the calls that clear timers by their ids. -/
theorem recognizesAll_append {before after : List TimerAction} :
    self.RecognizesAll (before ++ after) ↔
      self.RecognizesAll before ∧ (self.performAll before).1.RecognizesAll after := by
  induction before generalizing self with
  | nil => exact (true_and _).to_iff.symm
  | cons action before ih =>
      rw [List.cons_append, RecognizesAll, RecognizesAll, ih, and_assoc]
      rfl

/-- In a run without failures the jobs of a timer are taken away only if it is cleared. -/
theorem cleared_of_dropped (hregular : ∀ action ∈ actions, action.IsRegular) {token : ℕ}
    (h : self.Dropped actions token) : self.Cleared actions token := by
  induction actions generalizing self with
  | nil => exact h
  | cons action actions ih =>
      obtain ⟨hhead, htail⟩ := List.forall_mem_cons.mp hregular
      rcases h with ⟨hdrops, hlt⟩ | h
      · exact .inl ⟨TimerAction.clears_of_drops hhead hdrops, hlt⟩
      · exact .inr (ih htail h)

/-! ### Ids -/

/-- A new timer while there is an id for it. -/
theorem setTimer_of_lt (hlt : self.id + 1 < 2 ^ 32) (delayI32 : ℤ) (repeats : Bool) :
    self.setTimer delayI32 repeats =
      enqueue { self.retainActive with
        id := self.id + 1, activeMap := self.id :: self.retainActive.activeMap }
        (self.clock + nanosPerMilli * delayI32.toNat) self.id
        (if repeats then some (nanosPerMilli * delayI32.toNat) else none) :=
  if_pos hlt

/-- The call that has no id for a new timer. -/
theorem setTimer_of_ge (hge : ¬self.id + 1 < 2 ^ 32) (delayI32 : ℤ) (repeats : Bool) :
    self.setTimer delayI32 repeats = (self.retainActive, []) :=
  if_neg hge

/-- The next id goes up by one with each id that is returned. -/
theorem perform_id (self : TimerSystem) (action : TimerAction) :
    (self.perform action).1.id = self.id + (self.issuedId action).toList.length := by
  cases action with
  | setTimer delayI32 repeats =>
      rw [perform, issuedId]
      split
      · next hlt => rw [setTimer_of_lt hlt]; rfl
      · next hge => rw [setTimer_of_ge hge]; rfl
  | clearTimeout id =>
      rw [perform, clearTimeout]
      split
      · rw [clearInterval]
        simp only
        split <;> rfl
      · rfl
  | clearAll | advance | takeDue | stop => rfl
  | next =>
      rw [perform, next]
      split
      · rfl
      · split <;> rfl
  | finish =>
      rw [perform, finish]
      split
      · rfl
      · split <;> rfl
  | fail =>
      rw [perform, fail]
      split <;> rfl

/-- **The ids are returned in their order**, none of them twice. -/
theorem issuedIds_eq (self : TimerSystem) (actions : List TimerAction) :
    self.issuedIds actions = List.range' self.id (self.issuedIds actions).length := by
  induction actions generalizing self with
  | nil => rfl
  | cons action actions ih =>
      have hrest := ih (self.perform action).1
      rw [perform_id] at hrest
      rw [issuedIds, List.length_append, ← List.range'_append_1, ← hrest]
      refine congrArg (· ++ _) ?_
      cases action with
      | setTimer delayI32 repeats =>
          rw [issuedId]
          split <;> rfl
      | clearTimeout | clearAll | advance | takeDue | next | finish | fail | stop => rfl

/-! ### What is active is there -/

/-- **A timer in the map has a job and is not cancelled**, and what is cancelled was cleared or is a
timeout. A timer is a timeout or an interval for good, and a timeout has one job only. -/
structure Steady (dropped : ℕ → Prop) (events : List TimerEvent) (system : TimerSystem) : Prop where
  active : ∀ t ∈ system.activeMap,
    t ∉ system.revoked ∧ ∃ job ∈ system.pending, job.token = t
  revoked : ∀ t ∈ system.revoked,
    dropped t ∨ ∃ job, .enqueued job ∈ events ∧ job.token = t ∧ job.interval = none
  issued : ∀ job, .enqueued job ∈ events → 0 < job.token ∧ job.token < system.id
  pending_enqueued : ∀ job ∈ system.pending, .enqueued job ∈ events
  started_enqueued : ∀ job ∈ startedJobs events, .enqueued job ∈ events
  same : ∀ job other, .enqueued job ∈ events → .enqueued other ∈ events →
    job.token = other.token → job = other ∨ job.interval ≠ none ∧ other.interval ≠ none

/-- Before any timer is set, nothing is active and nothing was enqueued. -/
theorem steady_start : Steady (fun _ => False) [] start where
  active _ h := by cases h
  revoked _ h := by cases h
  issued _ h := by cases h
  pending_enqueued _ h := by cases h
  started_enqueued _ h := by cases h
  same _ _ h := by cases h

/-- What is steady with more timers that may have been cleared. -/
theorem Steady.mono (h : Steady dropped events self) {dropped' : ℕ → Prop}
    (hmono : ∀ t, dropped t → dropped' t) : Steady dropped' events self where
  active := h.active
  revoked t ht := (h.revoked t ht).imp_left (hmono t)
  issued := h.issued
  pending_enqueued := h.pending_enqueued
  started_enqueued := h.started_enqueued
  same := h.same

/-- An action that enqueues nothing and keeps the jobs of the timers in the map. -/
theorem Steady.shrink (h : Steady dropped events self) (self' : TimerSystem)
    (more : List TimerEvent) (hid : self'.id = self.id)
    (hmore : ∀ job, .enqueued job ∉ more)
    (hactive : ∀ t ∈ self'.activeMap, t ∈ self.activeMap ∧ t ∉ self'.revoked ∧
      ∀ job ∈ self.pending, job.token = t → job ∈ self'.pending)
    (hrevoked : ∀ t ∈ self'.revoked, t ∈ self.revoked ∨ dropped t ∨
      ∃ job ∈ self.pending, job.token = t ∧ job.interval = none)
    (hpending : ∀ job ∈ self'.pending, job ∈ self.pending)
    (hstarted : ∀ job ∈ startedJobs more, job ∈ self.pending) :
    Steady dropped (events ++ more) self' := by
  have hevents : ∀ job, .enqueued job ∈ events ++ more ↔ .enqueued job ∈ events := by
    intro job
    rw [List.mem_append]
    exact or_iff_left (hmore job)
  refine ⟨fun t ht => ?_, fun t ht => ?_, fun job hjob => ?_, fun job hjob => ?_,
    fun job hjob => ?_, fun job other hjob hother => ?_⟩
  · obtain ⟨hold, hnot, hkept⟩ := hactive t ht
    obtain ⟨-, job, hjob, htoken⟩ := h.active t hold
    exact ⟨hnot, job, hkept job hjob htoken, htoken⟩
  · rcases hrevoked t ht with hold | hdrop | ⟨job, hjob, htoken, hnone⟩
    · rcases h.revoked t hold with hdrop | ⟨job, hjob, htoken, hnone⟩
      · exact .inl hdrop
      · exact .inr ⟨job, (hevents job).mpr hjob, htoken, hnone⟩
    · exact .inl hdrop
    · exact .inr ⟨job, (hevents job).mpr (h.pending_enqueued job hjob), htoken, hnone⟩
  · exact hid ▸ h.issued job ((hevents job).mp hjob)
  · exact (hevents job).mpr (h.pending_enqueued job (hpending job hjob))
  · rw [startedJobs_append] at hjob
    rcases List.mem_append.mp hjob with hjob | hjob
    · exact (hevents job).mpr (h.started_enqueued job hjob)
    · exact (hevents job).mpr (h.pending_enqueued job (hstarted job hjob))
  · exact h.same job other ((hevents job).mp hjob) ((hevents other).mp hother)

/-- An action after which the same jobs are there, and more timers may be cancelled. -/
theorem Steady.keep (h : Steady dropped events self) {self' : TimerSystem}
    (hid : self'.id = self.id)
    (hactive : ∀ t ∈ self'.activeMap, t ∈ self.activeMap ∧ t ∉ self'.revoked)
    (hrevoked : ∀ t ∈ self'.revoked, t ∈ self.revoked ∨ dropped t)
    (hpending : self'.pending = self.pending) : Steady dropped events self' := by
  have h' := h.shrink self' [] hid (fun _ hmem => by cases hmem)
    (fun t ht => ⟨(hactive t ht).1, (hactive t ht).2, fun job hjob _ => hpending ▸ hjob⟩)
    (fun t ht => (hrevoked t ht).imp_right .inl) (fun job hjob => hpending ▸ hjob)
    (fun job hjob => by cases hjob)
  rwa [List.append_nil] at h'

/-- **A job is enqueued** for a new timer, or for an interval that ran. -/
theorem Steady.enqueue (h : Steady dropped events self) (base : TimerSystem) {token : ℕ}
    (hpos : 0 < token) (hlt : token < base.id) (hid : self.id ≤ base.id)
    (hactive : ∀ t ∈ base.activeMap, t ∉ base.revoked ∧
      (t = token ∨ ∃ job ∈ base.pending, job.token = t))
    (hrevoked : base.revoked = self.revoked) (hpending : ∀ job ∈ base.pending, job ∈ self.pending)
    {interval : Option ℕ} (hsame : ∀ job, .enqueued job ∈ events → job.token = token →
      job.interval ≠ none ∧ interval ≠ none) (deadline : ℕ) :
    Steady dropped (events ++ (base.enqueue deadline token interval).2)
      (base.enqueue deadline token interval).1 := by
  set job : ClockJob := ⟨deadline, base.enqueued, token, interval⟩ with hjob
  have hmem : ∀ j, j ∈ (base.enqueue deadline token interval).1.pending ↔
      j = job ∨ j ∈ base.pending := fun j => by
    rw [(pending_enqueue_perm base deadline token interval).mem_iff, List.mem_cons]
  have hevents : ∀ j, .enqueued j ∈ events ++ (base.enqueue deadline token interval).2 ↔
      .enqueued j ∈ events ∨ j = job := by
    intro j
    rw [List.mem_append]
    refine or_congr_right ⟨fun hin => ?_, fun heq => ?_⟩
    · cases List.mem_singleton.mp hin
      rfl
    · exact heq ▸ List.mem_singleton_self _
  have hstarted : startedJobs (events ++ (base.enqueue deadline token interval).2) =
      startedJobs events := (startedJobs_append ..).trans (List.append_nil _)
  refine ⟨fun t ht => ?_, fun t ht => ?_, fun j hj => ?_, fun j hj => ?_, fun j hj => ?_,
    fun j other hj hother heq => ?_⟩
  · obtain ⟨hnot, rfl | ⟨j, hj, htoken⟩⟩ := hactive t ht
    · exact ⟨hnot, job, (hmem job).mpr (.inl rfl), rfl⟩
    · exact ⟨hnot, j, (hmem j).mpr (.inr hj), htoken⟩
  · rcases h.revoked t (hrevoked ▸ ht) with hdrop | ⟨j, hj, htoken, hnone⟩
    · exact .inl hdrop
    · exact .inr ⟨j, (hevents j).mpr (.inl hj), htoken, hnone⟩
  · rcases (hevents j).mp hj with hj | rfl
    · exact ⟨(h.issued j hj).1, Nat.lt_of_lt_of_le (h.issued j hj).2 hid⟩
    · exact ⟨hpos, hlt⟩
  · rcases (hmem j).mp hj with rfl | hj
    · exact (hevents job).mpr (.inr rfl)
    · exact (hevents j).mpr (.inl (h.pending_enqueued j (hpending j hj)))
  · exact (hevents j).mpr (.inl (h.started_enqueued j (hstarted ▸ hj)))
  · rcases (hevents j).mp hj with hj | rfl
    · rcases (hevents other).mp hother with hother | rfl
      · exact h.same j other hj hother heq
      · exact .inr (hsame j hj heq)
    · rcases (hevents other).mp hother with hother | rfl
      · exact .inr (hsame other hother heq.symm).symm
      · exact .inl rfl

/-- A new timer enters the map with its first job; its id was never seen before. -/
theorem Steady.setTimer (h : Steady dropped events self) (htracked : Tracked dropped events self)
    (delayI32 : ℤ) (repeats : Bool) :
    Steady dropped (events ++ (self.setTimer delayI32 repeats).2)
      (self.setTimer delayI32 repeats).1 := by
  have hkept : ∀ t ∈ self.retainActive.activeMap, t ∈ self.activeMap ∧ t ∉ self.revoked :=
    fun t ht => mem_retainActive.mp ht
  by_cases hlt : self.id + 1 < 2 ^ 32
  · rw [setTimer_of_lt hlt]
    refine h.enqueue { self.retainActive with
      id := self.id + 1, activeMap := self.id :: self.retainActive.activeMap } htracked.id_pos
      (Nat.lt_succ_self _) (Nat.le_succ _) (fun t ht => ?_) rfl (fun job hjob => hjob)
      (fun job hjob htoken => ?_) _
    · obtain rfl | ht := List.mem_cons.mp ht
      · exact ⟨fun hrev => absurd (htracked.revoked_lt _ hrev) (Nat.lt_irrefl _), .inl rfl⟩
      · exact ⟨(hkept t ht).2, .inr (h.active t (hkept t ht).1).2⟩
    · exact absurd (h.issued job hjob).2 (htoken ▸ Nat.lt_irrefl _)
  · rw [setTimer_of_ge hlt, List.append_nil]
    exact h.keep rfl hkept (fun t ht => .inl ht) rfl

/-- A timer that is cleared by an id leaves the map and is cancelled; all the others stay as they
were. -/
theorem Steady.clearTimeout (h : Steady dropped events self) (id : ℤ)
    (hdrops : ∀ t ∈ self.activeMap, (Int32.ofInt id).toInt = t → dropped t) :
    Steady dropped events (self.clearTimeout id) := by
  rw [TimerSystem.clearTimeout]
  split
  · next hpos =>
      rw [clearInterval]
      split
      · next hmem =>
          refine h.keep rfl (fun t ht => ?_) (fun t ht => ?_) rfl
          · obtain ⟨ht, hne⟩ := List.mem_filter.mp ht
            obtain ⟨hactive, hrev⟩ := mem_retainActive.mp ht
            exact ⟨hactive, List.not_mem_cons_of_ne_of_not_mem (of_decide_eq_true hne) hrev⟩
          · obtain rfl | ht := List.mem_cons.mp ht
            · exact .inr (hdrops _ (mem_retainActive.mp hmem).1
                (Int.toNat_of_nonneg (Int.le_of_lt hpos)).symm)
            · exact .inl ht
      · exact h.keep rfl (fun t ht => mem_retainActive.mp ht) (fun t ht => .inl ht) rfl
  · exact h

/-- The timers in the map keep their job when the executor takes what is due. -/
theorem Steady.takeDue (h : Steady dropped events self) (hrun : self.jobsToRun = [])
    (hrunning : self.running = none) : Steady dropped events self.takeDue := by
  have hpending : self.pending = self.clockJobs := by
    rw [pending, hrunning, hrun]
    rfl
  have hpending' : self.takeDue.pending = self.takeDue.jobsToRun ++ self.takeDue.clockJobs := by
    rw [pending, TimerSystem.takeDue, hrunning]
    rfl
  have h' := h.shrink self.takeDue [] rfl (fun _ hmem => by cases hmem)
    (fun t ht => ⟨ht, (h.active t ht).1, fun job hjob htoken => ?_⟩) (fun t ht => .inl ht)
    (fun job hjob => ?_) (fun job hjob => by cases hjob)
  · rwa [List.append_nil] at h'
  · rw [hpending] at hjob
    rw [hpending']
    by_cases hlt : job.deadline < self.clock
    · exact List.mem_append_left _ (List.mem_filter.mpr ⟨hjob, decide_eq_true hlt⟩)
    · refine List.mem_append_right _ (List.mem_filter.mpr ⟨hjob, ?_⟩)
      exact decide_eq_true ⟨Nat.not_lt.mp hlt, htoken ▸ (h.active t ht).1⟩
  · rw [hpending'] at hjob
    rw [hpending]
    rcases List.mem_append.mp hjob with hjob | hjob
    · exact List.mem_of_mem_filter hjob
    · exact List.mem_of_mem_filter hjob

/-- A job that was cancelled is skipped; the timer of any other one stays in the map. -/
theorem Steady.next (h : Steady dropped events self) (hrunning : self.running = none) :
    Steady dropped (events ++ self.next.2) self.next.1 := by
  rw [TimerSystem.next]
  split
  · rw [List.append_nil]
    exact h
  · next job rest hrun =>
      have hpending : self.pending = job :: (rest ++ self.clockJobs) := by
        rw [pending, hrunning, hrun]
        rfl
      split
      · next hrev =>
          have hpending' : pending { self with jobsToRun := rest } = rest ++ self.clockJobs := by
            rw [pending, hrunning]
            rfl
          refine h.shrink _ _ rfl (fun _ hmem => by cases hmem)
            (fun t ht => ⟨ht, (h.active t ht).1, fun j hj htoken => ?_⟩) (fun t ht => .inl ht)
            (fun j hj => ?_) (fun j hj => by cases hj)
          · rw [hpending] at hj
            rw [hpending']
            obtain rfl | hj := List.mem_cons.mp hj
            · exact absurd (htoken ▸ hrev) (h.active t ht).1
            · exact hj
          · rw [hpending'] at hj
            rw [hpending]
            exact List.mem_cons_of_mem _ hj
      · have hsame : pending { self with
            jobsToRun := rest, running := some (job, self.clock) } = self.pending := by
          rw [hpending]
          rfl
        refine h.shrink _ _ rfl (fun j hmem => ?_)
          (fun t ht => ⟨ht, (h.active t ht).1, fun j hj _ => hsame ▸ hj⟩) (fun t ht => .inl ht)
          (fun j hj => hsame ▸ hj) (fun j hj => ?_)
        · cases List.mem_singleton.mp hmem
        · rw [hpending, List.mem_singleton.mp hj]
          exact List.mem_cons_self

/-- A timeout leaves the map when it returns; an interval gets its next job. -/
theorem Steady.finish (h : Steady dropped events self) (htracked : Tracked dropped events self) :
    Steady dropped (events ++ self.finish.2) self.finish.1 := by
  rw [TimerSystem.finish]
  split
  · rw [List.append_nil]
    exact h
  · next job startedAt hrunning =>
      have hpending : self.pending = job :: (self.jobsToRun ++ self.clockJobs) := by
        rw [pending, hrunning]
        rfl
      have hmem : job ∈ self.pending := hpending ▸ List.mem_cons_self
      have henqueued := h.pending_enqueued job hmem
      have hcases : ∀ j ∈ self.pending, j = job ∨ j ∈ self.jobsToRun ++ self.clockJobs :=
        fun j hj => List.mem_cons.mp (hpending ▸ hj)
      have hrest : ∀ j ∈ self.jobsToRun ++ self.clockJobs, j ∈ self.pending :=
        fun j hj => hpending ▸ List.mem_cons_of_mem _ hj
      rcases hinterval : job.interval with _ | interval
      · refine h.shrink _ _ rfl (fun _ hmem => by cases hmem) (fun t ht => ?_)
          (fun t ht => ?_) hrest (fun j hj => by cases hj)
        · obtain ⟨ht, hne⟩ := List.mem_filter.mp ht
          have hne : t ≠ job.token := of_decide_eq_true hne
          refine ⟨ht, List.not_mem_cons_of_ne_of_not_mem hne (h.active t ht).1,
            fun j hj htoken => ?_⟩
          obtain rfl | hj := hcases j hj
          · exact absurd htoken.symm hne
          · exact hj
        · obtain rfl | ht := List.mem_cons.mp ht
          · exact .inr (.inr ⟨job, hmem, rfl, hinterval⟩)
          · exact .inl ht
      · refine h.enqueue { self with running := none } (h.issued job henqueued).1
          (htracked.pending_lt job hmem) (Nat.le_refl _)
          (fun t ht => ⟨(h.active t ht).1, ?_⟩) rfl hrest (fun j hj htoken => ?_) _
        · obtain ⟨-, j, hj, htoken⟩ := h.active t ht
          obtain rfl | hj := hcases j hj
          · exact .inl htoken.symm
          · exact .inr ⟨j, hj, htoken⟩
        · refine ⟨fun hnone => ?_, Option.some_ne_none _⟩
          rcases h.same j job hj henqueued htoken with rfl | ⟨hsome, -⟩
          · rw [hinterval] at hnone
            cases hnone
          · exact hsome hnone

/-- **Every action of a run without failures keeps what is active there.** -/
theorem Steady.perform (h : Steady dropped events self) (htracked : Tracked dropped events self)
    {action : TimerAction} (hallows : self.Allows action) (hregular : action.IsRegular) :
    Steady (self.afterDrop action dropped) (events ++ (self.perform action).2)
      (self.perform action).1 := by
  have hnone := List.append_nil events
  have hmono : ∀ t, dropped t → self.afterDrop action dropped t := fun t => .inl
  cases action with
  | setTimer delayI32 repeats => exact (h.setTimer htracked delayI32 repeats).mono hmono
  | clearTimeout id =>
      exact hnone.symm ▸ (h.mono hmono).clearTimeout id fun t ht heq =>
        .inr ⟨heq, htracked.active_lt t ht⟩
  | clearAll =>
      refine hnone.symm ▸ (h.mono hmono).keep rfl (fun t ht => by cases ht) (fun t ht => ?_) rfl
      rcases List.mem_append.mp ht with ht | ht
      · exact .inr (.inr ⟨trivial, htracked.active_lt t ht⟩)
      · exact .inl ht
  | advance time =>
      exact hnone.symm ▸ (h.mono hmono).keep rfl (fun t ht => ⟨ht, (h.active t ht).1⟩)
        (fun t ht => .inl ht) rfl
  | takeDue => exact hnone.symm ▸ (h.takeDue hallows.1 hallows.2).mono hmono
  | next => exact (h.next hallows).mono hmono
  | finish => exact (h.finish htracked).mono hmono
  | fail | stop => exact hregular.elim

/-! ### Runs -/

/-- **Along a run without failures** the three invariants hold. -/
theorem performAll_steady (hordered : Ordered events self) (htracked : Tracked dropped events self)
    (hsteady : Steady dropped events self) {more : List TimerAction} (hallows : self.AllowsAll more)
    (hregular : ∀ action ∈ more, action.IsRegular) :
    Steady (fun t => dropped t ∨ self.Dropped more t) (events ++ (self.performAll more).2)
      (self.performAll more).1 := by
  induction more generalizing self events dropped with
  | nil =>
      rw [performAll, List.append_nil]
      exact hsteady.mono fun _ => .inl
  | cons action more ih =>
      obtain ⟨hhead, htail⟩ := List.forall_mem_cons.mp hregular
      have hsteady' := ih (hordered.perform hallows.1) (htracked.perform hallows.1)
        (hsteady.perform htracked hallows.1 hhead) hallows.2 htail
      rw [List.append_assoc] at hsteady'
      exact hsteady'.mono fun _ => or_assoc.mp

/-- In every run without failures, what is active has a job, and what is cancelled was cleared or is
a timeout. -/
theorem steady_performAll (hallows : start.AllowsAll actions)
    (hregular : ∀ action ∈ actions, action.IsRegular) :
    Steady (start.Dropped actions) (start.performAll actions).2 (start.performAll actions).1 :=
  (performAll_steady ordered_start tracked_start steady_start hallows hregular).mono
    fun _ h => h.resolve_left not_false

/-- **What is cleared is cancelled**, unless its id turns negative while it is active. -/
theorem revoked_of_clears (htracked : Tracked dropped events self) {token : ℕ} (hpos : 0 < token)
    (hlt : token < self.id) {action : TimerAction} (hclears : action.Clears token)
    (hrecognizes : self.Recognizes action) : token ∈ (self.perform action).1.revoked := by
  have hcases := htracked.active_or_revoked token hpos hlt
  cases action with
  | clearAll => exact List.mem_append.mpr hcases
  | clearTimeout id =>
      rw [perform]
      rcases hclears with rfl | heq
      · rcases Nat.lt_or_ge token (2 ^ 31) with hsmall | hlarge
        · exact htracked.revoked_clearTimeout
            (Int32.toInt_ofInt_of_le (by omega) (by omega)) hpos hlt
        · have hnot : token ∉ self.activeMap := hrecognizes (Int.ofNat_le.mpr hlarge)
          exact (perform_revoked (hcases.resolve_left hnot) (.clearTimeout token)).1
      · exact htracked.revoked_clearTimeout heq hpos hlt
  | setTimer | advance | takeDue | next | finish | fail | stop => exact hclears.elim

/-- What a pass starts is what the executor took. -/
theorem startedJobs_sublist {pass : List TimerAction} (hpass : .takeDue ∉ pass) :
    (startedJobs (self.performAll pass).2).Sublist self.jobsToRun := by
  induction pass generalizing self with
  | nil => exact List.nil_sublist _
  | cons action pass ih =>
      have htail : .takeDue ∉ pass := fun hmem => hpass (List.mem_cons_of_mem _ hmem)
      rw [performAll, startedJobs_append]
      refine (List.Sublist.append_left (ih htail) _).trans ?_
      cases action with
      | setTimer delayI32 repeats =>
          rw [perform, setTimer]
          split <;> exact .refl _
      | clearTimeout id =>
          rw [perform, clearTimeout]
          split
          · rw [clearInterval]
            simp only
            split <;> exact .refl _
          · exact .refl _
      | clearAll | advance | stop => exact .refl _
      | takeDue => exact absurd List.mem_cons_self hpass
      | next =>
          rw [perform, TimerSystem.next]
          split
          · exact .refl _
          · next job rest hrun =>
              rw [hrun]
              split
              · exact List.sublist_cons_self job rest
              · exact .refl _
      | finish =>
          rw [perform, TimerSystem.finish]
          split
          · exact .refl _
          · split <;> exact .refl _
      | fail =>
          rw [perform, TimerSystem.fail]
          split
          · exact .refl _
          · exact List.nil_sublist _

/-- Jobs that were cancelled are skipped. -/
theorem performAll_next_of_revoked (hrev : ∀ job ∈ self.jobsToRun, job.token ∈ self.revoked) :
    self.performAll (List.replicate self.jobsToRun.length .next) =
      ({ self with jobsToRun := [] }, []) := by
  rcases hself : self with ⟨id, activeMap, revoked, clockJobs, jobsToRun, running, clock, now, n⟩
  subst hself
  simp only at hrev ⊢
  induction jobsToRun with
  | nil => rfl
  | cons job rest ih =>
      obtain ⟨hhead, htail⟩ := List.forall_mem_cons.mp hrev
      rw [List.length_cons, List.replicate_succ, performAll, perform, TimerSystem.next]
      simp only [if_pos hhead, ih htail, List.append_nil]

/-- **Between two passes** of a run without failures. -/
theorem settled_of_run (hallows : start.AllowsAll actions)
    (hregular : ∀ action ∈ actions, action.IsRegular)
    (hrun : (start.performAll actions).1.jobsToRun = [])
    (hrunning : (start.performAll actions).1.running = none) :
    Settled (start.Cleared actions) (start.performAll actions).2 (start.performAll actions).1 := by
  obtain ⟨hordered, htracked⟩ := performAll_start hallows
  have hsteady := steady_performAll hallows hregular
  have hkept : ∀ t, ¬start.Cleared actions t → ¬start.Dropped actions t :=
    fun t hnot hdrop => hnot (cleared_of_dropped hregular hdrop)
  generalize (start.performAll actions).1 = self at *
  generalize (start.performAll actions).2 = events at *
  have hpending : self.pending = self.clockJobs := by
    rw [pending, hrunning, hrun]
    rfl
  have hactive : ∀ t, t ∈ self.activeMap ↔
      ∃ job ∈ self.clockJobs, job.token = t ∧ t ∉ self.revoked := by
    refine fun t => ⟨fun ht => ?_, ?_⟩
    · obtain ⟨hnot, job, hjob, htoken⟩ := hsteady.active t ht
      exact ⟨job, hpending ▸ hjob, htoken, hnot⟩
    · rintro ⟨job, hjob, rfl, hnot⟩
      obtain ⟨hpos, hlt⟩ := hsteady.issued job (hsteady.pending_enqueued job (hpending ▸ hjob))
      exact (htracked.active_or_revoked _ hpos hlt).resolve_right hnot
  refine ⟨fun job hjob hnone hnot => ?_, fun job hjob hsome hnot => ?_, hactive, fun hempty => ?_⟩
  · -- every job of the timeout that was started is this one
    have hfilter : (startedJobs events).filter (·.token = job.token) =
        (startedJobs events).filter (· = job) := by
      refine List.filter_congr fun other hother => ?_
      refine decide_eq_decide.mpr ⟨fun heq => ?_, fun heq => heq ▸ rfl⟩
      rcases hsteady.same other job (hsteady.started_enqueued other hother) hjob heq with
        heq | ⟨-, hsome⟩
      · exact heq
      · exact absurd hnone hsome
    have hnodup : (startedJobs events).Nodup := by
      have htaken := (List.pairwise_append.mp hordered.taken).1
      refine htaken.imp fun hbefore heq => ?_
      rcases hbefore with hlt | ⟨-, hlt⟩
      · exact absurd hlt (heq ▸ Nat.lt_irrefl _)
      · exact absurd hlt (heq ▸ Nat.lt_irrefl _)
    rw [hfilter, List.filter_eq]
    split
    · next hlt =>
        have hstarted : job ∈ startedJobs events := by
          rcases htracked.accounted job hjob with hdrop | hstarted | hqueued
          · exact absurd hdrop (hkept _ hnot)
          · exact hstarted
          · rw [hrun, List.nil_append] at hqueued
            exact absurd hlt (Nat.not_lt.mpr (hordered.le_waiting job hqueued))
        rw [List.count_eq_one_of_mem hnodup hstarted]
        rfl
    · next hlt =>
        have hstarted : job ∉ startedJobs events :=
          fun hmem => hlt (hordered.taken_lt job (List.mem_append_left _ hmem))
        rw [List.count_eq_zero_of_not_mem hstarted]
        rfl
  · have hrev : job.token ∉ self.revoked := by
      intro hrev
      rcases hsteady.revoked _ hrev with hdrop | ⟨other, hother, htoken, hnone⟩
      · exact hkept _ hnot hdrop
      · rcases hsteady.same other job hother hjob htoken with rfl | ⟨hsome', -⟩
        · exact hsome hnone
        · exact hsome' hnone
    obtain ⟨hpos, hlt⟩ := hsteady.issued job hjob
    have hmem := (htracked.active_or_revoked _ hpos hlt).resolve_right hrev
    obtain ⟨other, hother, htoken, -⟩ := (hactive _).mp hmem
    exact List.count_eq_one_of_mem (hpending ▸ htracked.pending_nodup)
      (htoken ▸ List.mem_map_of_mem hother)
  · -- every job that is queued was cancelled
    have hrev : ∀ job ∈ self.clockJobs, job.token ∈ self.revoked := by
      intro job hjob
      by_contra hnot
      have hmem := (hactive _).mpr ⟨job, hjob, rfl, hnot⟩
      rw [hempty] at hmem
      cases hmem
    have hclock : self.takeDue.clockJobs = [] := by
      refine List.filter_eq_nil_iff.mpr fun job hjob hkeep => ?_
      exact (of_decide_eq_true hkeep).2 (hrev job hjob)
    have hpass : self.quietPass = ({ self.takeDue with jobsToRun := [] }, []) :=
      performAll_next_of_revoked fun job hjob => hrev job (List.mem_of_mem_filter hjob)
    rw [hpass]
    refine ⟨rfl, ?_⟩
    have hnone : self.takeDue.running = none := hrunning
    simp only [pending, hclock, hnone]
    rfl

/-- **What is asked of timers holds in every run** without failures that does not try to clear an
active timer by an id from `2 ^ 31` on: ids, what is cleared, what runs when and how often, and
what is left between two passes of the executor. -/
theorem timers_conform (hallows : start.AllowsAll actions)
    (hregular : ∀ action ∈ actions, action.IsRegular)
    (hrecognizes : start.RecognizesAll actions) : Conforms actions where
  ids := by
    rw [issuedIds_eq]
    exact List.nodup_range'
  cleared := by
    rintro before action after token rfl hpos hlt hclears
    have hbefore := allowsAll_append.mp hallows
    have hrecognizes' := (recognizesAll_append.mp hrecognizes).2
    exact performAll_revoked (revoked_of_clears (performAll_start hbefore.1).2 hpos hlt hclears
      hrecognizes'.1) after
  settled := by
    rintro before after rfl hrun hrunning
    exact settled_of_run (allowsAll_append.mp hallows).1
      (fun action hmem => hregular action (List.mem_append_left _ hmem)) hrun hrunning
  once := by
    rintro before pass after rfl hpass
    have hbefore := (allowsAll_append.mp (allowsAll_append.mp hallows).1).1
    have htracked := (performAll_start hbefore).2
    have hrun : (start.performAll before).1.jobsToRun.Sublist (start.performAll before).1.pending :=
      (List.sublist_append_left _ _).trans (List.sublist_append_right _ _)
    exact htracked.pending_nodup.sublist (((startedJobs_sublist hpass).trans hrun).map _)
  ordered := (List.pairwise_append.mp (performAll_start hallows).1.taken).1

/-- A timeout is cleared before it is due, and an interval while it runs. -/
def clearingActions : List TimerAction :=
  [.setTimer 5 false, .setTimer 3 true, .setTimer 9 false, .clearTimeout 3, .advance 6000000,
    .takeDue, .next, .clearTimeout 2, .finish, .next, .finish, .advance 20000000, .takeDue, .next]

/-- Whether an action is allowed can be computed, so that a run can be checked by evaluation. -/
instance decidableAllows (self : TimerSystem) :
    (action : TimerAction) → Decidable (self.Allows action)
  | .advance time => inferInstanceAs (Decidable (self.clock ≤ time))
  | .takeDue | .stop => inferInstanceAs (Decidable (self.jobsToRun = [] ∧ self.running = none))
  | .next => inferInstanceAs (Decidable (self.running = none))
  | .setTimer _ _ | .clearTimeout _ | .clearAll | .finish | .fail => isTrue trivial

/-- Whether a call tries to clear an active timer by an id that turns negative can be computed, too.
-/
instance decidableRecognizes (self : TimerSystem) :
    (action : TimerAction) → Decidable (self.Recognizes action)
  | .clearTimeout id => inferInstanceAs (Decidable (2 ^ 31 ≤ id → id.toNat ∉ self.activeMap))
  | .setTimer _ _ | .clearAll | .advance _ | .takeDue | .next | .finish | .fail | .stop =>
      isTrue trivial

/-- Whether a run is allowed can be computed, one action after the other. -/
instance decidableAllowsAll (self : TimerSystem) :
    (actions : List TimerAction) → Decidable (self.AllowsAll actions)
  | [] => isTrue trivial
  | action :: actions =>
      have := decidableAllowsAll (self.perform action).1 actions
      inferInstanceAs (Decidable (self.Allows action ∧ (self.perform action).1.AllowsAll actions))

/-- The same for the calls of a run that clear timers by their ids. -/
instance decidableRecognizesAll (self : TimerSystem) :
    (actions : List TimerAction) → Decidable (self.RecognizesAll actions)
  | [] => isTrue trivial
  | action :: actions =>
      have := decidableRecognizesAll (self.perform action).1 actions
      inferInstanceAs
        (Decidable (self.Recognizes action ∧ (self.perform action).1.RecognizesAll actions))

/-- The timeout and the interval run once each: the interval was cleared inside its own callback,
and the other timeout before it was due. -/
theorem timers_conform_clearingActions :
    Conforms clearingActions ∧
      (startedJobs (start.performAll clearingActions).2).map ClockJob.token = [2, 1] :=
  ⟨timers_conform (by decide) (by simp [clearingActions, TimerAction.IsRegular]) (by decide),
    by decide⟩

/-! ### Ids that turn negative -/

/-- A timer is set and all are cleared, a number of times. -/
def idleRounds (n : ℕ) : List TimerAction :=
  (List.replicate n [.setTimer 1000 false, .clearAll, .takeDue]).flatten

/-- No timer is left of those that were set. -/
structure Idle (n : ℕ) (system : TimerSystem) : Prop where
  id : system.id = n + 1
  clock : system.clock = 0
  activeMap : system.activeMap = []
  clockJobs : system.clockJobs = []
  jobsToRun : system.jobsToRun = []
  running : system.running = none
  revoked : ∀ t ∈ system.revoked, t < n + 1

/-- A round leaves no timer, only an id that is used up. -/
theorem Idle.round {n : ℕ} (h : Idle n self) (hlt : n + 2 < 2 ^ 32) :
    Idle (n + 1) (self.performAll [.setTimer 1000 false, .clearAll, .takeDue]).1 ∧
      self.AllowsAll [.setTimer 1000 false, .clearAll, .takeDue] := by
  rcases self with ⟨id, activeMap, revoked, clockJobs, jobsToRun, running, clock, now, enqueued⟩
  obtain ⟨rfl, rfl, rfl, rfl, rfl, rfl, hrevoked⟩ := h
  have hset : setTimer ⟨n + 1, [], revoked, [], [], none, 0, now, enqueued⟩ 1000 false =
      (⟨n + 2, [n + 1], revoked, [⟨nanosPerMilli * 1000, enqueued, n + 1, none⟩], [], none, 0, now,
        enqueued + 1⟩, [.enqueued ⟨nanosPerMilli * 1000, enqueued, n + 1, none⟩]) := by
    rw [setTimer_of_lt (show n + 1 + 1 < 2 ^ 32 from hlt)]
    simp [retainActive, enqueue, enqueueClockJob]
  refine ⟨?_, trivial, trivial, ?_, trivial⟩
  · simp only [performAll, perform, hset, TimerSystem.takeDue]
    refine ⟨rfl, rfl, rfl, ?_, ?_, rfl, ?_⟩
    · simp
    · simp
    · intro t ht
      obtain rfl | ht := List.mem_cons.mp ht
      · exact Nat.lt_succ_self _
      · exact Nat.lt_succ_of_lt (hrevoked t ht)
  · simp only [perform, hset, Allows]
    exact ⟨trivial, trivial⟩

/-- After a number of rounds, each of which is allowed, as many ids are used up. -/
theorem idle_idleRounds {n : ℕ} (hlt : n + 1 < 2 ^ 32) :
    Idle n (start.performAll (idleRounds n)).1 ∧ start.AllowsAll (idleRounds n) := by
  induction n with
  | zero => exact ⟨⟨rfl, rfl, rfl, rfl, rfl, rfl, fun _ h => by cases h⟩, trivial⟩
  | succ n ih =>
      obtain ⟨hidle, hallows⟩ := ih (Nat.lt_of_succ_lt hlt)
      obtain ⟨hidle', hallows'⟩ := hidle.round hlt
      have hrounds : idleRounds (n + 1) =
          idleRounds n ++ [.setTimer 1000 false, .clearAll, .takeDue] := by
        rw [idleRounds, List.replicate_succ', List.flatten_concat]
        rfl
      rw [hrounds, performAll_append, allowsAll_append]
      exact ⟨hidle', hallows, hallows'⟩

/-- After some rounds a timer is set that is due at once, and cleared by its id. -/
def lateClearActions (n : ℕ) : List TimerAction :=
  idleRounds n ++ [.setTimer 0 false] ++
    .clearTimeout (n + 1 : ℕ) :: [.advance 1, .takeDue, .next]

/-- The timer gets an id that turns negative, and is started. -/
theorem Idle.late {n : ℕ} (h : Idle n self) (hge : 2 ^ 31 ≤ n + 1) (hlt : n + 2 < 2 ^ 32) :
    self.AllowsAll (.setTimer 0 false :: .clearTimeout (n + 1 : ℕ) ::
        [.advance 1, .takeDue, .next]) ∧
      ∃ job ∈ startedJobs ((((self.perform (.setTimer 0 false)).1.perform
          (.clearTimeout (n + 1 : ℕ))).1.performAll [.advance 1, .takeDue, .next]).2),
        job.token = n + 1 := by
  rcases self with ⟨id, activeMap, revoked, clockJobs, jobsToRun, running, clock, now, enqueued⟩
  obtain ⟨rfl, rfl, rfl, rfl, rfl, rfl, hrevoked⟩ := h
  have hset : setTimer ⟨n + 1, [], revoked, [], [], none, 0, now, enqueued⟩ 0 false =
      (⟨n + 2, [n + 1], revoked, [⟨0, enqueued, n + 1, none⟩], [], none, 0, now, enqueued + 1⟩,
        [.enqueued ⟨0, enqueued, n + 1, none⟩]) := by
    rw [setTimer_of_lt (show n + 1 + 1 < 2 ^ 32 from hlt)]
    simp [retainActive, enqueue, enqueueClockJob]
  have hnot : n + 1 ∉ revoked := fun hmem => absurd (hrevoked _ hmem) (Nat.lt_irrefl _)
  simp only [AllowsAll, Allows, performAll, perform, hset,
    clearTimeout_of_ge _ hge (Nat.lt_of_succ_lt hlt)]
  refine ⟨⟨trivial, trivial, Nat.zero_le _, ⟨trivial, trivial⟩, rfl, trivial⟩,
    ⟨0, enqueued, n + 1, none⟩, ?_, rfl⟩
  simp [TimerSystem.takeDue, TimerSystem.next, hnot, startedJobs]

/-- The run that clears the timer late is allowed from the start. -/
theorem allowsAll_lateClearActions {n : ℕ} (hge : 2 ^ 31 ≤ n + 1) (hlt : n + 2 < 2 ^ 32) :
    start.AllowsAll (lateClearActions n) := by
  obtain ⟨hidle, hallows⟩ := idle_idleRounds (Nat.lt_of_succ_lt hlt)
  rw [lateClearActions, List.append_assoc, allowsAll_append]
  exact ⟨hallows, (hidle.late hge hlt).1⟩

/-- No job fails in it, and the executor is never told to stop. -/
theorem isRegular_lateClearActions {n : ℕ} :
    ∀ action ∈ lateClearActions n, action.IsRegular := by
  intro action hmem
  rcases List.mem_append.mp hmem with hmem | hmem
  · rcases List.mem_append.mp hmem with hmem | hmem
    · obtain ⟨round, hround, hmem⟩ := List.mem_flatten.mp hmem
      rw [List.eq_of_mem_replicate hround] at hmem
      simp only [List.mem_cons, List.not_mem_nil, or_false] at hmem
      rcases hmem with rfl | rfl | rfl <;> exact trivial
    · rw [List.mem_singleton.mp hmem]
      exact trivial
  · simp only [List.mem_cons, List.not_mem_nil, or_false] at hmem
    rcases hmem with rfl | rfl | rfl | rfl <;> exact trivial

/-- **A timer whose id turns negative is not cleared**: the run gets the id `2 ^ 31` and clears it,
and the timer runs. -/
theorem not_timers_conform :
    ¬∀ actions, start.AllowsAll actions → (∀ action ∈ actions, action.IsRegular) →
      Conforms actions := by
  intro h
  obtain ⟨n, hge, hlt⟩ : ∃ n, 2 ^ 31 ≤ n + 1 ∧ n + 2 < 2 ^ 32 :=
    ⟨2147483647, by decide, by decide⟩
  obtain ⟨hidle, -⟩ := idle_idleRounds (Nat.lt_of_succ_lt hlt)
  have hcleared := (h _ (allowsAll_lateClearActions hge hlt) isRegular_lateClearActions).cleared
    (idleRounds n ++ [.setTimer 0 false]) (.clearTimeout (n + 1 : ℕ)) _ (n + 1) rfl
    (Nat.succ_pos n)
  have hset : (start.performAll (idleRounds n ++ [.setTimer 0 false])).1 =
      ((start.performAll (idleRounds n)).1.perform (.setTimer 0 false)).1 := by
    rw [performAll_append]
    rfl
  rw [hset, perform_id, issuedId, hidle.id, if_pos hlt] at hcleared
  obtain ⟨job, hjob, htoken⟩ := (hidle.late hge hlt).2
  exact hcleared (Nat.lt_succ_self _) (.inl rfl) job hjob htoken

end TimerSystem

end BoaLigero
