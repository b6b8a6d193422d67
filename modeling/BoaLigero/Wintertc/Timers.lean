import Mathlib.Algebra.Ring.Int.Defs
import Mathlib.Algebra.Ring.Nat
import Mathlib.Data.List.Basic

/-!
# Timers

`setTimeout`, `setInterval` and `clearTimeout` with the part of the job executor that runs the
jobs with a deadline. The executor takes all jobs whose deadline is past at once and runs them one
after the other; each runs code of the program, which sets and clears timers, and the clock goes
on. A job knows by its cancellation token, here the id of its timer, whether it was cancelled.

Code of the program that runs the executor itself, from within a job, is left out, and so are
deadlines past the end of a `Duration`.

## Main definitions

* `TimerSystem.perform` — one action of the program, the clock or the executor.
-/

namespace BoaLigero

/-- A job with a deadline. Jobs are numbered as they are enqueued; nothing reads the number. -/
structure ClockJob where
  deadline : ℕ
  number : ℕ
  token : ℕ
  /-- The time between two runs; a timeout has none. -/
  interval : Option ℕ
deriving DecidableEq

/-- The state of the timers and of the executor. Times are in nanoseconds. -/
structure TimerSystem where
  /-- The id of the next timer. -/
  id : ℕ
  activeMap : List ℕ
  /-- The tokens that were cancelled or whose job is gone. -/
  revoked : List ℕ
  /-- The jobs by their deadlines, and in the order in which they were enqueued. -/
  clockJobs : List ClockJob
  /-- The jobs to run, which the executor took when it last read the clock. -/
  jobsToRun : List ClockJob
  /-- The job that runs, and when it was started. -/
  running : Option (ClockJob × ℕ)
  clock : ℕ
  /-- What the executor last read from the clock. -/
  now : ℕ
  enqueued : ℕ

/-- An action of the program, the clock or the executor. -/
inductive TimerAction
  /-- `setTimeout`, or `setInterval` if it repeats, with the delay as an integer of 32 bits. -/
  | setTimer (delayI32 : ℤ) (repeats : Bool)
  /-- `clearTimeout` or `clearInterval`, with the id as an integer before `to_i32`. -/
  | clearTimeout (id : ℤ)
  | clearAll
  | advance (time : ℕ)
  /-- The executor reads the clock and takes the jobs that are due. -/
  | takeDue
  /-- The executor turns to the next of the jobs it took. -/
  | next
  /-- The job that runs returns. -/
  | finish
  /-- The job that runs returns an error. -/
  | fail
  /-- The executor is told to stop. -/
  | stop

/-- What happens to jobs. -/
inductive TimerEvent
  | enqueued (job : ClockJob)
  /-- A job is started that the executor took at a time. -/
  | started (job : ClockJob) (now : ℕ)
deriving DecidableEq

/-- Nanoseconds in a millisecond. -/
def nanosPerMilli : ℕ := 1000000

/-- Adds a job behind those with the same or an earlier deadline. -/
def enqueueClockJob (job : ClockJob) : List ClockJob → List ClockJob
  | [] => [job]
  | j :: jobs =>
      if j.deadline ≤ job.deadline then j :: enqueueClockJob job jobs else job :: j :: jobs

namespace TimerSystem

/-- No timers. -/
def start : TimerSystem := ⟨1, [], [], [], [], none, 0, 0, 0⟩

/-- Adds a job with a deadline. -/
def enqueue (self : TimerSystem) (deadline token : ℕ) (interval : Option ℕ) :
    TimerSystem × List TimerEvent :=
  let job : ClockJob := ⟨deadline, self.enqueued, token, interval⟩
  ({ self with
    clockJobs := enqueueClockJob job self.clockJobs
    enqueued := self.enqueued + 1 }, [.enqueued job])

/-- Forgets the timers whose token is revoked. -/
def retainActive (self : TimerSystem) : TimerSystem :=
  { self with activeMap := self.activeMap.filter (· ∉ self.revoked) }

/-- `setTimeout` and `setInterval`; with the last id they throw. -/
def setTimer (self : TimerSystem) (delayI32 : ℤ) (repeats : Bool) :
    TimerSystem × List TimerEvent :=
  let delay := nanosPerMilli * delayI32.toNat
  let self := self.retainActive
  let id := self.id
  if id + 1 < 2 ^ 32 then
    { self with id := id + 1, activeMap := id :: self.activeMap }.enqueue (self.clock + delay) id
      (if repeats then some delay else none)
  else (self, [])

/-- `clear_interval`, which also forgets the timers that are gone, and the cancellation of the token
that it finds. -/
def clearInterval (self : TimerSystem) (id : ℕ) : TimerSystem :=
  let self := self.retainActive
  if id ∈ self.activeMap then
    { self with
      activeMap := self.activeMap.filter (· ≠ id)
      revoked := id :: self.revoked }
  else self

/-- `clearTimeout` and `clearInterval` of the program. The id is converted to an integer of 32 bits
with a sign, and only a positive one is looked up. -/
def clearTimeout (self : TimerSystem) (id : ℤ) : TimerSystem :=
  let id := Int32.ofInt id
  if 0 < id.toInt then self.clearInterval id.toInt.toNat else self

/-- The jobs that are due, and the others that were not cancelled. -/
def takeDue (self : TimerSystem) : TimerSystem :=
  { self with
    now := self.clock
    jobsToRun := self.clockJobs.filter (·.deadline < self.clock)
    clockJobs := self.clockJobs.filter fun job =>
      self.clock ≤ job.deadline ∧ job.token ∉ self.revoked }

/-- The next of the jobs to run is started unless it was cancelled. -/
def next (self : TimerSystem) : TimerSystem × List TimerEvent :=
  match self.jobsToRun with
  | [] => (self, [])
  | job :: jobsToRun =>
      if job.token ∈ self.revoked then ({ self with jobsToRun }, [])
      else ({ self with jobsToRun, running := some (job, self.clock) }, [.started job self.now])

/-- A timeout is gone; an interval is enqueued again, from when it was started. -/
def finish (self : TimerSystem) : TimerSystem × List TimerEvent :=
  match self.running with
  | none => (self, [])
  | some (job, startedAt) =>
      let self := { self with running := none }
      match job.interval with
      | none =>
          ({ self with
            activeMap := self.activeMap.filter (· ≠ job.token)
            revoked := job.token :: self.revoked }, [])
      | some interval => self.enqueue (startedAt + interval) job.token (some interval)

/-- All jobs are dropped. -/
def fail (self : TimerSystem) : TimerSystem :=
  match self.running with
  | none => self
  | some (job, _) =>
      { self with
        running := none
        jobsToRun := []
        clockJobs := []
        activeMap :=
          if job.interval.isNone then self.activeMap.filter (· ≠ job.token) else self.activeMap
        revoked := job.token ::
          (self.jobsToRun.map ClockJob.token ++ self.clockJobs.map ClockJob.token ++
            self.revoked) }

/-- All jobs that wait are dropped. -/
def stop (self : TimerSystem) : TimerSystem :=
  { self with
    clockJobs := []
    revoked := self.clockJobs.map ClockJob.token ++ self.revoked }

/-- Performs an action. -/
def perform (self : TimerSystem) : TimerAction → TimerSystem × List TimerEvent
  | .setTimer delayI32 repeats => self.setTimer delayI32 repeats
  | .clearTimeout id => (self.clearTimeout id, [])
  | .clearAll =>
      ({ self with activeMap := [], revoked := self.activeMap ++ self.revoked }, [])
  | .advance time => ({ self with clock := time }, [])
  | .takeDue => (self.takeDue, [])
  | .next => self.next
  | .finish => self.finish
  | .fail => (self.fail, [])
  | .stop => (self.stop, [])

/-- What an action needs: the clock does not go back, and the executor does one thing after the
other. -/
def Allows (self : TimerSystem) : TimerAction → Prop
  | .advance time => self.clock ≤ time
  | .takeDue | .stop => self.jobsToRun = [] ∧ self.running = none
  | .next => self.running = none
  | _ => True

/-- Performs actions one after the other. -/
def performAll (self : TimerSystem) : List TimerAction → TimerSystem × List TimerEvent
  | [] => (self, [])
  | action :: actions =>
      let (self, events) := self.perform action
      let (self, rest) := self.performAll actions
      (self, events ++ rest)

/-- What a sequence of actions needs. -/
def AllowsAll (self : TimerSystem) : List TimerAction → Prop
  | [] => True
  | action :: actions => self.Allows action ∧ (self.perform action).1.AllowsAll actions

end TimerSystem

end BoaLigero
