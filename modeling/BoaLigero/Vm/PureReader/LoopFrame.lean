import Mathlib.Logic.Function.Basic
import BoaLigero.Vm.PureReader.Decline

/-!
# The Frame of a Summarised Loop

What all loop summaries read and write: the limits of the context, the registers and the
counters of the frame. Feature gates are fields that say whether the loop is being observed.
-/

namespace BoaLigero

/-- `BindingLocatorScope`. -/
inductive BindingLocatorScope where
  | globalObject
  | globalDeclarative
  | stack (environmentIndex : ℕ)
  deriving DecidableEq, Repr

/-- `BindingLocator`, without the name. -/
structure BindingLocator where
  scope : BindingLocatorScope
  bindingIndex : ℕ
  deriving DecidableEq, Repr

/-- The limits of the context and the state of the frame. -/
structure LoopFrame where
  pureLoopGuardMisses : UInt8
  instructionBudgetRemaining : Option UInt64
  hasExecutionDeadline : Bool
  loopIterationLimit : UInt64
  loopIterationCount : UInt64
  activeJitObservesInterpretedSites : Bool
  traced : Bool
  registers : ℕ → VmValue
  pureRangeLoopObserved : Bool

namespace LoopFrame

/-- The limit that stands for none (`u64::MAX`). -/
def unlimited : UInt64 := UInt64.ofNat (2 ^ 64 - 1)

/-- `check_loop_iterations` and `consume_loop_iterations`. -/
def consumeLoopIterations (frame : LoopFrame) (count : UInt64) : Option LoopFrame :=
  if frame.loopIterationLimit ≠ unlimited ∧
      frame.loopIterationLimit.toNat - frame.loopIterationCount.toNat < count.toNat then none
  else some { frame with loopIterationCount := frame.loopIterationCount + count }

/-- `set_register`. -/
def setRegister (frame : LoopFrame) (r : ℕ) (value : VmValue) : LoopFrame :=
  { frame with registers := Function.update frame.registers r value }

/-- What every plan checks first: no attempt failed for good in this frame, nothing limits the
number of iterations, and nobody observes them. -/
def guard (frame : LoopFrame) (guardMiss : UInt8) : Except Decline Unit := do
  declineIf .retry (frame.pureLoopGuardMisses &&& guardMiss != 0)
  declineIf .retry (frame.instructionBudgetRemaining.isSome || frame.hasExecutionDeadline ||
    frame.loopIterationLimit != unlimited)
  declineIf .retry frame.activeJitObservesInterpretedSites
  declineIf .retry frame.traced

/-- `suppress_for_frame`. -/
def suppressForFrame (frame : LoopFrame) (guardMiss : UInt8) : LoopFrame :=
  { frame with pureLoopGuardMisses := frame.pureLoopGuardMisses ||| guardMiss }

variable {frame : LoopFrame} {guardMiss : UInt8}

/-- Where a plan is tried, the number of iterations is not limited. -/
theorem unlimited_of_guard {u : Unit} (h : frame.guard guardMiss = .ok u) :
    frame.loopIterationLimit = unlimited := by
  simp only [guard, declineIf_bind_eq_ok] at h
  have := h.2.1
  simp_all

/-- Without a limit iterations are only counted. -/
theorem consumeLoopIterations_eq (h : frame.loopIterationLimit = unlimited) (count : UInt64) :
    frame.consumeLoopIterations count =
      some { frame with loopIterationCount := frame.loopIterationCount + count } := by
  simp [consumeLoopIterations, h]

end LoopFrame

end BoaLigero
