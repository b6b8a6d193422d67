import BoaLigero.Vm.PureReader.LoopFrame

/-!
# The Summary of a Loop over an Affine Closure

`PureClosureAffineLoopPlan::apply`: the loop `acc = (acc + step(i)) | 0` whose function
advances a captured binding by a constant and returns `(x + base) + state` is taken to its
exit in one step. The function is found through its binding, its two captured bindings in
the environments it closes over.

Reading the function's binding and decoding its code are done elsewhere: the context holds
what they give.
-/

namespace BoaLigero

/-! ### Functions and environments -/

/-- `DeclarativeEnvironment`. -/
structure DeclarativeEnvironment where
  isWith : Bool
  poisoned : Bool
  isDeletedBinding : ℕ → Bool
  bindings : ℕ → Option VmValue

/-- `Environment`. -/
inductive VmEnvironment where
  | declarative (env : DeclarativeEnvironment)
  | object

/-- The environments in use, by their addresses. -/
abbrev Environments := ℕ → VmEnvironment

/-- A binding: the address of its environment and its index there. -/
structure BindingPlace where
  environment : ℕ
  index : ℕ
  deriving DecidableEq, Repr

/-- `DeclarativeEnvironment::get`. -/
def Environments.get (envs : Environments) (place : BindingPlace) : Option VmValue :=
  match envs place.environment with
  | .declarative env => env.bindings place.index
  | .object => none

/-- `DeclarativeEnvironment::set`. -/
def Environments.set (envs : Environments) (place : BindingPlace) (value : VmValue) :
    Environments :=
  match envs place.environment with
  | .declarative env =>
      Function.update envs place.environment (.declarative
        { env with bindings := Function.update env.bindings place.index (some value) })
  | .object => envs

/-- `PureClosureAffineStepPlan`. -/
structure PureClosureAffineStepPlan where
  stateBindingIndex : ℕ
  baseBindingIndex : ℕ
  delta : Int32
  deriving DecidableEq, Repr

/-- What a summary reads of an `OrdinaryFunction` and its code. The chain of environments is
given from the root; an environment is pushed on it once. -/
structure OrdinaryFunction where
  isOrdinary : Bool
  isClassConstructor : Bool
  hasBindingIdentifier : Bool
  hasFunctionScope : Bool
  traceable : Bool
  pureClosureAffineStep : Option PureClosureAffineStepPlan
  bindings : List BindingLocator
  environments : List ℕ
  /-- The declarative environment of the function's realm. -/
  realmEnvironment : DeclarativeEnvironment
  environments_nodup : environments.Nodup

/-- `current_declarative_ref`: the innermost environment, if it is a declarative one. -/
def OrdinaryFunction.currentDeclarativeRef (f : OrdinaryFunction) (envs : Environments) :
    Option DeclarativeEnvironment :=
  match f.environments.getLast? with
  | some addr =>
      match envs addr with
      | .declarative env => some env
      | .object => none
  | none => some f.realmEnvironment

/-! ### The context -/

/-- The part of the context that the summary reads and writes. -/
structure LoopContext extends LoopFrame where
  pc : ℕ
  /-- What `binding_data_value` reads for a binding of the running code. -/
  bindingDataValue : ℕ → Option ℕ → Option VmValue
  /-- The ordinary functions among the objects. -/
  ordinaryFunction : ℕ → Option OrdinaryFunction
  environments : Environments

/-- `PureClosureAffineLoopPlan`. The parser rejects a loop that uses one register twice. -/
structure PureClosureAffineLoopPlan where
  exitPc : ℕ
  functionBindingIndex : ℕ
  functionIcIndex : Option ℕ
  index : ℕ
  limit : ℕ
  accumulator : ℕ
  registers_nodup : [index, limit, accumulator].Nodup

/-- `PURE_CLOSURE_AFFINE_GUARD_MISS`. -/
def pureClosureAffineGuardMiss : UInt8 := (1 : UInt8) <<< (4 : UInt8)

/-! ### The closed form -/

/-- What a summary writes. -/
structure AffineSummary where
  finalState : Int32
  reduced : Int32
  totalIterations : UInt64
  deriving DecidableEq, Repr

/-- The arithmetic of `apply`. -/
def affineSummary (remaining : ℤ) (index accumulator base state delta : Int32) :
    Except Decline AffineSummary := do
  let count := remaining
  let index := index.toInt
  let base := base.toInt
  let state := state.toInt
  let delta := delta.toInt
  let finalState ← checkedI128 (state + (← checkedI128 (delta * count)))
  let _ ← tryI32 finalState
  let firstArgument ← checkedI128 (index + 1)
  let lastArgument ← checkedI128 (index + count)
  let _ ← tryI32 (← checkedI128 (firstArgument + base))
  let _ ← tryI32 (← checkedI128 (lastArgument + base))
  let returnConstant ← checkedI128 ((← checkedI128 (index + base)) + state)
  let returnScale ← checkedI128 (1 + delta)
  let firstReturn ← checkedI128 (returnConstant + returnScale)
  let lastReturn ← checkedI128 (returnConstant + (← checkedI128 (returnScale * count)))
  declineIf .suppress (¬InI32 firstReturn ∨ ¬InI32 lastReturn)
  let triangular ← checkedI128 ((← checkedI128 (count * (← checkedI128 (count + 1)))) / 2)
  let contribution ← checkedI128
    ((← checkedI128 (count * returnConstant)) + (← checkedI128 (returnScale * triangular)))
  let wrapped := (← checkedI128 (accumulator.toInt + contribution)) % 2 ^ 32
  let reduced := (UInt32.ofNat wrapped.toNat).toInt32
  let finalState ← tryI32 finalState
  let totalIterations ← checkedU64 ((← checkedU64 remaining).toNat + 1)
  return { finalState, reduced, totalIterations }

/-! ### Applying a plan -/

/-- The captured bindings of a function, and the constant its state advances by. -/
structure ClosureSite where
  state : BindingPlace
  base : BindingPlace
  delta : Int32
  deriving DecidableEq, Repr

/-- The environment of a captured binding: it is on the stack, declarative, and the binding
is as the compiler saw it. -/
def OrdinaryFunction.capturedPlace (f : OrdinaryFunction) (envs : Environments)
    (binding : BindingLocator) : Except Decline (BindingPlace × DeclarativeEnvironment) :=
  match binding.scope with
  | .stack environmentIndex =>
      match f.environments[environmentIndex]? with
      | some addr =>
          match envs addr with
          | .declarative env => .ok (⟨addr, binding.bindingIndex⟩, env)
          | .object => .error .suppress
      | none => .error .suppress
  | _ => .error .suppress

/-- The part of `apply` that finds the function and its captured bindings. -/
def PureClosureAffineLoopPlan.resolve (plan : PureClosureAffineLoopPlan)
    (context : LoopContext) : Except Decline ClosureSite := do
  let function ← orSuppress
    (context.bindingDataValue plan.functionBindingIndex plan.functionIcIndex)
  let object ← orSuppress (match function with | .object addr => some addr | _ => none)
  let ordinary ← orSuppress (context.ordinaryFunction object)
  declineIf .suppress (!ordinary.isOrdinary || ordinary.isClassConstructor ||
    ordinary.hasBindingIdentifier || ordinary.hasFunctionScope)
  declineIf .retry ordinary.traceable
  let currentEnvironment ← orSuppress (ordinary.currentDeclarativeRef context.environments)
  declineIf .suppress (currentEnvironment.isWith || currentEnvironment.poisoned)
  let step ← orSuppress ordinary.pureClosureAffineStep
  let stateBinding ← orRetry ordinary.bindings[step.stateBindingIndex]?
  let baseBinding ← orRetry ordinary.bindings[step.baseBindingIndex]?
  let (state, stateEnvironment) ← ordinary.capturedPlace context.environments stateBinding
  let (base, baseEnvironment) ← ordinary.capturedPlace context.environments baseBinding
  declineIf .suppress (stateEnvironment.isWith || stateEnvironment.poisoned ||
    baseEnvironment.isWith || baseEnvironment.poisoned ||
    stateEnvironment.isDeletedBinding stateBinding.bindingIndex ||
    baseEnvironment.isDeletedBinding baseBinding.bindingIndex ||
    (stateBinding.scope = baseBinding.scope &&
      stateBinding.bindingIndex = baseBinding.bindingIndex))
  return { state, base, delta := step.delta }

/-- `PureClosureAffineLoopPlan::apply` up to the mark it leaves when it gives up. -/
def PureClosureAffineLoopPlan.tryApply (plan : PureClosureAffineLoopPlan)
    (context : LoopContext) : Except Decline LoopContext := do
  context.guard pureClosureAffineGuardMiss
  let index ← orSuppress (asI32 (context.registers plan.index))
  let limit ← orSuppress (asI32 (context.registers plan.limit))
  let accumulator ← orSuppress (asI32 (context.registers plan.accumulator))
  let remaining ← checkedI64 ((← checkedI64 (limit.toInt - index.toInt)) - 1)
  declineIf .retry (remaining ≤ 0)
  let site ← plan.resolve context
  let state ← orSuppress ((context.environments.get site.state).bind asI32)
  let base ← orSuppress ((context.environments.get site.base).bind asI32)
  let summary ← affineSummary remaining index accumulator base state site.delta
  let frame ← orRetry (context.consumeLoopIterations summary.totalIterations)
  let environments := context.environments.set site.state (ofI32 summary.finalState)
  let frame := frame.setRegister plan.accumulator (ofI32 summary.reduced)
  let frame := frame.setRegister plan.index (ofI32 limit)
  let frame := { frame with pureRangeLoopObserved := true }
  return { context with toLoopFrame := frame, environments, pc := plan.exitPc }

/-- `PureClosureAffineLoopPlan::apply`. -/
def PureClosureAffineLoopPlan.apply (plan : PureClosureAffineLoopPlan) (context : LoopContext) :
    Option Unit × LoopContext :=
  match plan.tryApply context with
  | .ok context => (some (), context)
  | .error .retry => (none, context)
  | .error .suppress =>
      (none, { context with toLoopFrame := context.suppressForFrame pureClosureAffineGuardMiss })

end BoaLigero
