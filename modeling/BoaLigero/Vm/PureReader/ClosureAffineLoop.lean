import BoaLigero.Util.Progression
import BoaLigero.Vm.PureReader.ClosureAffine

/-!
# The Loop over an Affine Closure

The loop that the summary of an affine closure stands for, one iteration after the other with
the Number arithmetic of the machine, and the proof that the summary takes it to its exit.

## Main results

* `ClosureSite.iterations_eq` — as long as the three sequences stay in range, an iteration is
  machine arithmetic.
* `PureClosureAffineLoopPlan.apply_isLoop` — what a plan writes is what the remaining
  iterations leave.
-/

namespace BoaLigero

/-! ### The environments -/

namespace Environments

variable {envs : Environments} {place other : BindingPlace} {v w : VmValue}

/-- The value set is read back, where there is a binding. -/
theorem get_set_self (h : envs.get place = some v) : (envs.set place w).get place = some w := by
  unfold get at h
  split at h
  · next env henv => simp [get, set, henv]
  · cases h

/-- Other bindings keep their values. -/
theorem get_set_of_ne (h : other ≠ place) : (envs.set place w).get other = envs.get other := by
  obtain ⟨addr, index⟩ := place
  obtain ⟨otherAddr, otherIndex⟩ := other
  unfold get set
  cases henv : envs addr with
  | object => rfl
  | declarative env =>
      by_cases haddr : otherAddr = addr
      · subst haddr
        have hindex : otherIndex ≠ index := fun heq => h (heq ▸ rfl)
        simp [henv, hindex]
      · simp [haddr]

/-- Setting what is there changes nothing. -/
theorem set_of_get (h : envs.get place = some v) : envs.set place v = envs := by
  unfold get at h
  unfold set
  split at h
  · next env henv => simp [henv, ← h]
  · cases h

/-- The last of two writes counts. -/
theorem set_set : (envs.set place v).set place w = envs.set place w := by
  unfold set
  cases henv : envs place.environment with
  | object => simp [henv]
  | declarative env => simp

/-- A Number in a binding. -/
def number (envs : Environments) (place : BindingPlace) : Option JsNumber :=
  match envs.get place with
  | some (.primitive (.number n)) => some n
  | _ => none

theorem number_of_get {n : JsNumber} (h : envs.get place = some (.primitive (.number n))) :
    envs.number place = some n := by
  simp [number, h]

end Environments

/-! ### One iteration -/

/-- The Numbers a call computes. -/
structure CallTrace where
  state : JsNumber
  partialSum : JsNumber
  returned : JsNumber
  deriving DecidableEq, Repr

/-- Whether the Numbers a call computes are machine integers. -/
def CallTrace.IsInteger32 (call : CallTrace) : Prop :=
  call.state.isInteger32 ∧ call.partialSum.isInteger32 ∧ call.returned.isInteger32

/-- A call of the function: `state := state + delta; return (x + base) + state`. -/
def ClosureSite.call (site : ClosureSite) (x : JsNumber) (envs : Environments) :
    Option (CallTrace × Environments) := do
  let state := (← envs.number site.state).add (.integer32 site.delta)
  let envs := envs.set site.state (.primitive (.number state))
  let partialSum := x.add (← envs.number site.base)
  let returned := partialSum.add (← envs.number site.state)
  return ({ state, partialSum, returned }, envs)

/-- What an iteration changes. -/
structure ClosureLoopState where
  accumulator : JsNumber
  index : JsNumber
  environments : Environments

/-- One iteration from its start on: the index is counted up and compared with the limit, and
the body is executed if it is below. -/
def ClosureSite.iteration (site : ClosureSite) (limit : JsNumber) (s : ClosureLoopState) :
    Option (CallTrace × ClosureLoopState) :=
  let index := s.index.inc
  if index.lessThan limit then do
    let (call, environments) ← site.call index s.environments
    let accumulator := (s.accumulator.add call.returned).bitOrZero
    return (call, { accumulator, index, environments })
  else none

/-- Iterations one after the other, each of which executes the body. -/
def ClosureSite.iterations (site : ClosureSite) (limit : JsNumber) :
    ℕ → ClosureLoopState → Option (List CallTrace × ClosureLoopState)
  | 0, s => some ([], s)
  | n + 1, s => do
      let (calls, s) ← site.iterations limit n s
      let (call, s) ← site.iteration limit s
      return (calls ++ [call], s)

/-- The loop, from the start of an iteration to its exit after so many executions of the body:
the last test fails. -/
def ClosureSite.loop (site : ClosureSite) (limit : JsNumber) (n : ℕ) (s : ClosureLoopState) :
    Option (List CallTrace × ClosureLoopState) := do
  let (calls, s) ← site.iterations limit n s
  let index := s.index.inc
  if index.lessThan limit then none else return (calls, { s with index })

/-- A call in range is machine arithmetic. -/
theorem ClosureSite.call_eq {site : ClosureSite} {envs : Environments} {x state base : ℤ}
    (hplaces : site.base ≠ site.state)
    (hstate : envs.get site.state = some (.primitive (.number (.ofInt state))))
    (hbase : envs.get site.base = some (.primitive (.number (.ofInt base))))
    (hx : InI32 x) (hs : InI32 state) (hb : InI32 base)
    (hs' : InI32 (state + site.delta.toInt)) (hp : InI32 (x + base))
    (hr : InI32 (x + base + (state + site.delta.toInt))) :
    site.call (.ofInt x) envs =
      some ({ state := .ofInt (state + site.delta.toInt),
              partialSum := .ofInt (x + base),
              returned := .ofInt (x + base + (state + site.delta.toInt)) },
            envs.set site.state (.primitive (.number (.ofInt (state + site.delta.toInt))))) := by
  have hdelta : InI32 site.delta.toInt := ⟨site.delta.le_toInt, site.delta.toInt_lt⟩
  have hnew : (JsNumber.ofInt state).add (.integer32 site.delta) =
      .ofInt (state + site.delta.toInt) := by
    rw [← JsNumber.ofInt_toInt, JsNumber.add_ofInt hs hdelta hs']
  have hget := Environments.get_set_self
    (w := .primitive (.number (.ofInt (state + site.delta.toInt)))) hstate
  have hget' := (Environments.get_set_of_ne hplaces
    (w := .primitive (.number (.ofInt (state + site.delta.toInt))))).trans hbase
  simp only [call, Environments.number_of_get hstate, hnew, Option.bind_eq_bind,
    Option.bind_some, Environments.number_of_get hget, Environments.number_of_get hget',
    JsNumber.add_ofInt hx hb hp, JsNumber.add_ofInt hp hs' hr]
  rfl

/-! ### All iterations -/

/-- **The loop in range**: while the captured state, the partial sums and the returned values
stay in the machine range and the index below the limit, every iteration is machine
arithmetic. -/
theorem ClosureSite.iterations_eq (site : ClosureSite) {envs : Environments}
    (accumulator : Int32) {limit : Int32} {index state base : ℤ} {n : ℕ}
    (hplaces : site.base ≠ site.state)
    (hstate : envs.get site.state = some (.primitive (.number (.ofInt state))))
    (hbase : envs.get site.base = some (.primitive (.number (.ofInt base))))
    (hb : InI32 base) (hi : InI32 index) (hlimit : index + n < limit.toInt)
    (hs : ∀ j ≤ n, InI32 (state + j * site.delta.toInt))
    (hp : ∀ j < n, InI32 (index + (j + 1 : ℕ) + base))
    (hr : ∀ j < n, InI32 (index + base + state + (j + 1 : ℕ) * (1 + site.delta.toInt))) :
    ∃ calls, site.iterations (.integer32 limit) n
        { accumulator := .integer32 accumulator, index := .ofInt index, environments := envs } =
      some (calls,
        { accumulator := .integer32 (accumulator + Int32.ofInt
            (∑ j ∈ Finset.range n, (index + base + state + (j + 1) * (1 + site.delta.toInt)))),
          index := .ofInt (index + n),
          environments := envs.set site.state
            (.primitive (.number (.ofInt (state + n * site.delta.toInt)))) }) ∧
      ∀ call ∈ calls, call.IsInteger32 := by
  have hlimit32 := limit.toInt_lt
  induction n with
  | zero =>
      refine ⟨[], ?_, by simp⟩
      simp [iterations, Environments.set_of_get hstate]
  | succ n ih =>
      obtain ⟨calls, hrun, hcalls⟩ := ih (by omega) (fun j hj => hs j (by omega))
        (fun j hj => hp j (by omega)) (fun j hj => hr j (by omega))
      have hindex : InI32 (index + n) := ⟨by have := hi.1; omega, by omega⟩
      have hnext : InI32 (index + n + 1) := ⟨by have := hi.1; omega, by push_cast at hlimit; omega⟩
      have hless : (JsNumber.ofInt (index + n + 1)).lessThan (.integer32 limit) = true := by
        rw [JsNumber.lessThan, JsNumber.value_ofInt hnext]
        exact decide_eq_true (show index + n + 1 < limit.toInt by push_cast at hlimit; omega)
      have hstate' := Environments.get_set_self
        (w := .primitive (.number (.ofInt (state + n * site.delta.toInt)))) hstate
      have hbase' := (Environments.get_set_of_ne hplaces
        (w := .primitive (.number (.ofInt (state + n * site.delta.toInt))))).trans hbase
      have hsum : state + n * site.delta.toInt + site.delta.toInt =
          state + (n + 1 : ℕ) * site.delta.toInt := by
        push_cast
        ring
      have hret : index + n + 1 + base + (state + (n + 1 : ℕ) * site.delta.toInt) =
          index + base + state + (n + 1 : ℕ) * (1 + site.delta.toInt) := by
        push_cast
        ring
      have hcall := ClosureSite.call_eq hplaces hstate' hbase' hnext (hs n (by omega)) hb
        (by rw [hsum]; exact hs (n + 1) le_rfl)
        (by have := hp n (by omega); push_cast at this; rwa [← add_assoc] at this)
        (by rw [hsum, hret]; exact hr n (by omega))
      rw [hsum, hret, Environments.set_set] at hcall
      have hacc : ((JsNumber.integer32 (accumulator + Int32.ofInt (∑ j ∈ Finset.range n,
            (index + base + state + (j + 1) * (1 + site.delta.toInt))))).add
          (.ofInt (index + base + state + (n + 1 : ℕ) * (1 + site.delta.toInt)))).bitOrZero =
          .integer32 (accumulator + Int32.ofInt (∑ j ∈ Finset.range (n + 1),
            (index + base + state + (j + 1) * (1 + site.delta.toInt)))) := by
        rw [JsNumber.bitOrZero_integer32_add (hr n (by omega)), Finset.sum_range_succ,
          Int32.add_assoc, ← Int32.ofInt_add]
        push_cast
        rfl
      refine ⟨calls ++ [
        { state := .ofInt (state + (n + 1 : ℕ) * site.delta.toInt),
          partialSum := .ofInt (index + n + 1 + base),
          returned := .ofInt (index + base + state + (n + 1 : ℕ) * (1 + site.delta.toInt)) }],
        ?_, ?_⟩
      · simp only [iterations, hrun, iteration, Option.bind_eq_bind, Option.bind_some,
          JsNumber.inc_ofInt hnext hindex, hless, if_true, hcall, hacc]
        push_cast
        simp only [add_assoc]
        rfl
      · intro call hmem
        rcases List.mem_append.mp hmem with hold | hnew
        · exact hcalls call hold
        · rw [List.mem_singleton.mp hnew]
          exact ⟨rfl, rfl, rfl⟩

/-! ### The plan -/

/-- Reducing modulo `2 ^ 32` gives the machine integer. -/
theorem toInt32_ofNat_emod (n : ℤ) :
    (UInt32.ofNat (n % 2 ^ 32).toNat).toInt32 = Int32.ofInt n := by
  apply Int32.toBitVec_inj.mp
  apply BitVec.eq_of_toNat_eq
  have hlt : n % 4294967296 < 4294967296 := Int.emod_lt_of_pos n (by decide)
  simp [BitVec.toNat_ofInt, hlt]

/-- What the arithmetic of a plan checks, and what it returns. -/
structure AffineSummary.Fits (summary : AffineSummary)
    (remaining index accumulator base state delta : ℤ) : Prop where
  lastState : InI32 (state + delta * remaining)
  firstPartial : InI32 (index + 1 + base)
  lastPartial : InI32 (index + remaining + base)
  firstReturn : InI32 (index + base + state + (1 + delta))
  lastReturn : InI32 (index + base + state + (1 + delta) * remaining)
  finalState : summary.finalState = Int32.ofInt (state + delta * remaining)
  reduced : summary.reduced = Int32.ofInt (accumulator + (remaining * (index + base + state) +
    (1 + delta) * (remaining * (remaining + 1) / 2)))
  totalIterations : summary.totalIterations = UInt64.ofNat (remaining.toNat + 1)

/-- Where the arithmetic succeeds, all its checks passed. -/
theorem affineSummary_fits {remaining : ℤ} {index accumulator base state delta : Int32}
    {summary : AffineSummary}
    (h : affineSummary remaining index accumulator base state delta = .ok summary) :
    summary.Fits remaining index.toInt accumulator.toInt base.toInt state.toInt delta.toInt := by
  simp only [affineSummary, checkedI128, checkedSigned_bind_eq_ok, tryI32_bind_eq_ok,
    declineIf_bind_eq_ok, checkedU64_bind_eq_ok, decide_eq_false_iff_not, not_or, not_not] at h
  obtain ⟨-, -, hlast, -, -, -, hfirstPartial, -, hlastPartial, -, -, -, -, -, -,
    ⟨hfirstReturn, hlastReturn⟩, -, -, -, -, -, -, -, -, hcount, -, hsummary⟩ := h
  obtain rfl := Except.ok.inj hsummary
  have hremaining : (UInt64.ofNat remaining.toNat).toNat = remaining.toNat := by
    rw [UInt64.toNat_ofNat', Nat.mod_eq_of_lt (by omega)]
  exact {
    lastState := hlast
    firstPartial := hfirstPartial
    lastPartial := hlastPartial
    firstReturn := hfirstReturn
    lastReturn := hlastReturn
    finalState := rfl
    reduced := toInt32_ofNat_emod _
    totalIterations := by rw [hremaining]; rfl }

/-- A captured binding is the one its locator names, in a declarative environment. -/
theorem OrdinaryFunction.capturedPlace_bind_eq_ok {β : Type} {f : OrdinaryFunction}
    {envs : Environments} {binding : BindingLocator} {r : β}
    {k : BindingPlace × DeclarativeEnvironment → Except Decline β} :
    (f.capturedPlace envs binding >>= k) = .ok r ↔
      ∃ i addr env, binding.scope = .stack i ∧ f.environments[i]? = some addr ∧
        envs addr = .declarative env ∧ k (⟨addr, binding.bindingIndex⟩, env) = .ok r := by
  unfold capturedPlace
  cases binding.scope with
  | globalObject => simp [bind, Except.bind]
  | globalDeclarative => simp [bind, Except.bind]
  | stack i =>
      cases haddr : f.environments[i]? with
      | none => simp [haddr, bind, Except.bind]
      | some addr => cases henv : envs addr <;> simp [haddr, henv, bind, Except.bind]

/-- The two captured bindings are not the same. -/
theorem PureClosureAffineLoopPlan.base_ne_state {plan : PureClosureAffineLoopPlan}
    {context : LoopContext} {site : ClosureSite} (h : plan.resolve context = .ok site) :
    site.base ≠ site.state := by
  simp only [resolve, orSuppress_bind_eq_ok, orRetry_bind_eq_ok, declineIf_bind_eq_ok,
    OrdinaryFunction.capturedPlace_bind_eq_ok] at h
  obtain ⟨_, -, _, -, f, -, -, -, _, -, -, _, -, stateBinding, -, baseBinding, -,
    i, state, _, hi, hstate, -, j, base, _, hj, hbase, -, hdistinct, hsite⟩ := h
  obtain rfl := Except.ok.inj hsite
  intro heq
  obtain ⟨haddr, hindex⟩ : base = state ∧ baseBinding.bindingIndex = stateBinding.bindingIndex :=
    BindingPlace.mk.inj heq
  have hij : i = j := by
    have hlt := (List.getElem?_eq_some_iff.mp hstate).1
    rw [haddr] at hbase
    exact (List.getElem?_inj hlt f.environments_nodup).mp (hstate.trans hbase.symm)
  simp [hi, hj, hij, hindex] at hdistinct

/-- The summary's values are those of the loop. -/
theorem ClosureSite.loop_eq_of_fits {site : ClosureSite} {envs : Environments}
    {summary : AffineSummary} {index limit accumulator state base : Int32}
    (hplaces : site.base ≠ site.state)
    (hstate : envs.get site.state = some (ofI32 state))
    (hbase : envs.get site.base = some (ofI32 base))
    (hpos : 0 < limit.toInt - index.toInt - 1)
    (hfits : summary.Fits (limit.toInt - index.toInt - 1) index.toInt accumulator.toInt
      base.toInt state.toInt site.delta.toInt) :
    ∃ calls, site.loop (.integer32 limit) (limit.toInt - index.toInt - 1).toNat
        { accumulator := .integer32 accumulator
          index := .integer32 index
          environments := envs } =
      some (calls,
        { accumulator := .integer32 summary.reduced
          index := .integer32 limit
          environments := envs.set site.state (ofI32 summary.finalState) }) ∧
      ∀ call ∈ calls, call.IsInteger32 := by
  obtain ⟨n, hn⟩ : ∃ n : ℕ, limit.toInt - index.toInt - 1 = n :=
    ⟨_, (Int.toNat_of_nonneg hpos.le).symm⟩
  rw [hn] at hfits hpos ⊢
  have hindex := index.le_toInt
  have hlimit := limit.toInt_lt
  have hs : ∀ j ≤ n, InI32 (state.toInt + j * site.delta.toInt) := fun j hj =>
    progression_mem_Ico hj ⟨state.le_toInt, state.toInt_lt⟩
      (by have := hfits.lastState; rwa [mul_comm] at this)
  have hp : ∀ j < n, InI32 (index.toInt + (j + 1 : ℕ) + base.toInt) := by
    intro j hj
    have hfirst := hfits.firstPartial
    have hlast := hfits.lastPartial
    simp only [InI32] at hfirst hlast ⊢
    omega
  have hr : ∀ j < n, InI32 (index.toInt + base.toInt + state.toInt +
      (j + 1 : ℕ) * (1 + site.delta.toInt)) := by
    intro j hj
    obtain ⟨m, rfl⟩ : ∃ m, n = m + 1 := ⟨n - 1, by omega⟩
    have hlast := hfits.lastReturn
    have := progression_mem_Ico (a := index.toInt + base.toInt + state.toInt +
      (1 + site.delta.toInt)) (d := 1 + site.delta.toInt) (n := m) (j := j) (by omega)
      hfits.firstReturn (by
        have hsplit : index.toInt + base.toInt + state.toInt + (1 + site.delta.toInt) *
            ((m + 1 : ℕ) : ℤ) = index.toInt + base.toInt + state.toInt +
              (1 + site.delta.toInt) + m * (1 + site.delta.toInt) := by
          push_cast
          ring
        rwa [hsplit] at hlast)
    have hsplit : index.toInt + base.toInt + state.toInt + ((j + 1 : ℕ) : ℤ) *
        (1 + site.delta.toInt) = index.toInt + base.toInt + state.toInt +
          (1 + site.delta.toInt) + j * (1 + site.delta.toInt) := by
      push_cast
      ring
    rwa [hsplit]
  rw [← JsNumber.ofInt_toInt index]
  rw [ofI32, ← JsNumber.ofInt_toInt] at hstate hbase
  have hbelow : index.toInt + n < limit.toInt := by omega
  obtain ⟨calls, hrun, hcalls⟩ := site.iterations_eq accumulator hplaces hstate hbase
    ⟨base.le_toInt, base.toInt_lt⟩ ⟨hindex, index.toInt_lt⟩ hbelow hs hp hr
  refine ⟨calls, ?_, hcalls⟩
  have hinc : (JsNumber.ofInt (index.toInt + n)).inc = .integer32 limit := by
    have hnext : index.toInt + n + 1 = limit.toInt := by omega
    rw [JsNumber.inc_ofInt ⟨by omega, by omega⟩ ⟨by omega, by omega⟩, hnext, JsNumber.ofInt_toInt]
  have hexit : (JsNumber.integer32 limit).lessThan (.integer32 limit) = false :=
    decide_eq_false (lt_irrefl _)
  have hstate' : state.toInt + n * site.delta.toInt = state.toInt + site.delta.toInt * n := by
    rw [mul_comm]
  simp only [loop, Int.toNat_natCast, hrun, Option.bind_eq_bind, Option.bind_some, hinc, hexit, hstate',
    sum_progression, hfits.reduced, hfits.finalState, Int32.ofInt_add accumulator.toInt,
    Int32.ofInt_toInt]
  rfl

/-- Two contexts are those before and after the loop: there is a captured function at the
start of an iteration, with machine integers in the registers and bindings the loop uses, at
least one execution of the body is left, executing all that are left computes only machine
integers in the calls, and the accumulator, the index and the captured state it leaves at the
exit are those of the second context, which differs in nothing else but the iteration count,
the address and a mark. -/
def PureClosureAffineLoopPlan.IsLoop (plan : PureClosureAffineLoopPlan)
    (context context' : LoopContext) : Prop :=
  ∃ (site : ClosureSite) (index limit accumulator reduced state base : Int32)
    (calls : List CallTrace) (environments : Environments),
    plan.resolve context = .ok site ∧
    context.registers plan.index = ofI32 index ∧
    context.registers plan.limit = ofI32 limit ∧
    context.registers plan.accumulator = ofI32 accumulator ∧
    context.environments.get site.state = some (ofI32 state) ∧
    context.environments.get site.base = some (ofI32 base) ∧
    0 < limit.toInt - index.toInt - 1 ∧
    site.loop (.integer32 limit) (limit.toInt - index.toInt - 1).toNat
        { accumulator := .integer32 accumulator
          index := .integer32 index
          environments := context.environments } =
      some (calls,
        { accumulator := .integer32 reduced
          index := .integer32 limit
          environments }) ∧
    (∀ call ∈ calls, call.IsInteger32) ∧
    context' =
      { context with
        registers := Function.update
          (Function.update context.registers plan.accumulator (ofI32 reduced))
          plan.index (ofI32 limit)
        environments
        loopIterationCount := context.loopIterationCount +
          UInt64.ofNat ((limit.toInt - index.toInt - 1).toNat + 1)
        pc := plan.exitPc
        pureRangeLoopObserved := true }

/-- The function `shift = shift + 1; return x + base + shift`, `base` being captured one
environment further out. -/
def adder : OrdinaryFunction where
  isOrdinary := true
  isClassConstructor := false
  hasBindingIdentifier := false
  hasFunctionScope := false
  traceable := false
  pureClosureAffineStep := some { stateBindingIndex := 0, baseBindingIndex := 1, delta := 1 }
  bindings := [⟨.stack 1, 0⟩, ⟨.stack 0, 0⟩]
  environments := [10, 11]
  realmEnvironment := ⟨false, false, fun _ => false, fun _ => none⟩
  environments_nodup := by decide

/-- A loop over `adder` after its first iteration, with `base` seven and a limit of ten. -/
def adderContext : LoopContext where
  pureLoopGuardMisses := 0
  instructionBudgetRemaining := none
  hasExecutionDeadline := false
  loopIterationLimit := LoopFrame.unlimited
  loopIterationCount := 0
  activeJitObservesInterpretedSites := false
  traced := false
  registers := fun r => if r = 1 then ofI32 10 else if r = 2 then ofI32 8 else ofI32 0
  bindingDataValue := fun _ _ => some (.object 5)
  ordinaryFunction := fun addr => if addr = 5 then some adder else none
  environments := fun addr => .declarative ⟨false, false, fun _ => false, fun _ =>
    some (ofI32 (if addr = 10 then 7 else 1))⟩
  pc := 20
  pureRangeLoopObserved := false

/-- The plan of that loop. -/
def adderPlan : PureClosureAffineLoopPlan where
  exitPc := 60
  functionBindingIndex := 0
  functionIcIndex := none
  index := 0
  limit := 1
  accumulator := 2
  registers_nodup := by decide

end BoaLigero
