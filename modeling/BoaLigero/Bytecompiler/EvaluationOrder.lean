import BoaLigero.Bytecompiler.ExpressionCode

/-!
# Evaluation Order of Compiled Expressions

Running the code emitted for an expression, and for a condition with its branch, against the
left-to-right evaluation. An operand that names a local binding is handed out as the register
of the binding, so an assignment inside the right operand changes the left one; and the
update of a lexical binding copies the old value before it is converted, and loses it when
the conversion throws. Where none of this happens the code is right.

## Main results

* `evaluatesLeftToRight` — the code agrees with the evaluation as long as no operand is
  disturbed.
* `not_evaluatesLeftToRight` — an operand overwritten by its sibling, an old value returned
  unconverted, and a binding lost.
-/

namespace BoaLigero

open Machine ByteCompiler

section Agreement

variable {B V W : Type} [DecidableEq B]

/-- A run and an evaluation agree: both end with a result that is `delivered`, or both throw
the same error; and the registers hold the values of the bindings. -/
def Agrees (scope : LocalScope B) (delivered : V → Nat → Frame V W → Prop) :
    EStateM.Result V (Frame V W) Nat → EStateM.Result V (Store B V W) V → Prop
  | .ok pc f, .ok v s => delivered v pc f ∧ Reflects scope s f
  | .error e f, .error e' s => e = e' ∧ Reflects scope s f
  | _, _ => False

/-- Running the code of `compile_expr` leaves the value of the expression in `dst` and the
values the bindings have after its evaluation in their registers. -/
def EvaluatesLeftToRight (ops : Operators V W) (scope : LocalScope B) (c : ByteCompiler (Instruction V))
    (dst : Register) (e : Expression B V) (s : Store B V W) (f : Frame V W) : Prop :=
  let code := (compileExpr scope e dst c).bytecode
  ∃ fuel r, run (Instruction.operation ops) code fuel c.nextOpcodeLocation f = some r ∧
    Agrees scope (fun v pc f => pc = code.length ∧ f.registers dst = v) r ((eval ops scope e).run s)

/-- Running the code of `compile_condition_and_branch`, its label patched to a target behind
the code, goes on behind the code when the condition is true and at the target when it is
false. -/
def BranchesLeftToRight (ops : Operators V W) (scope : LocalScope B) (c : ByteCompiler (Instruction V))
    (target : Nat) (e : Expression B V) (s : Store B V W) (f : Frame V W) : Prop :=
  let branch := compileConditionAndBranch (compileExpr scope e) (comparison scope e) c
  let code := (branch.2.patchJumpWithTarget branch.1 target).bytecode
  ∃ fuel r, run (Instruction.operation ops) code fuel c.nextOpcodeLocation f = some r ∧
    Agrees scope (fun v pc _ => pc = if ops.toBoolean v then code.length else target) r
      ((eval ops scope e).run s)

omit [DecidableEq B] in
/-- Code that tracks an evaluation and delivers its result outside agrees with it. -/
theorem agrees_of_tracks {scope : LocalScope B} {exec : Semantics (Instruction V) V (Frame V W)}
    {code : List (Instruction V)} {pc : Nat} {f : Frame V W}
    {x : EStateM.Result V (Store B V W) V} {Q : V → Store B V W → Nat → Frame V W → Prop}
    {delivered : V → Nat → Frame V W → Prop} (h : Tracks exec code (Reflects scope) pc f x Q)
    (hQ : ∀ v s pc f, Q v s pc f → delivered v pc f ∧ code.length ≤ pc) :
    ∃ fuel r, run exec code fuel pc f = some r ∧ Agrees scope delivered r x := by
  cases x with
  | ok v s' =>
      obtain ⟨pc', f', hrun, hR, hq⟩ := h
      obtain ⟨hdelivered, hout⟩ := hQ v s' pc' f' hq
      obtain ⟨fuel, hfuel⟩ := hrun.run_ok hout
      exact ⟨fuel, _, hfuel, hdelivered, hR⟩
  | error e s' =>
      obtain ⟨f', hrun, hR⟩ := h
      obtain ⟨fuel, hfuel⟩ := hrun.run_error
      exact ⟨fuel, _, hfuel, rfl, hR⟩

/-- **Compiled expressions evaluate from left to right** as long as no operand is disturbed:
from any contents of the registers of the bindings, the code of an expression delivers its
value and the final values of the bindings, and the code of a condition branches on its
value. -/
theorem evaluatesLeftToRight (ops : Operators V W) (scope : LocalScope B) (c : ByteCompiler (Instruction V))
    (dst : Register) (hc : LocalsAllocated scope c.flags) (hdst : IsTarget scope c.flags dst)
    (e : Expression B V) (s : Store B V W) (f : Frame V W) (hR : Reflects scope s f)
    (hund : Undisturbed ops scope e true s) :
    EvaluatesLeftToRight ops scope c dst e s f ∧
      ∀ target, (compileConditionAndBranch (compileExpr scope e) (comparison scope e) c
        ).2.nextOpcodeLocation ≤ target → BranchesLeftToRight ops scope c target e s f := by
  obtain ⟨he, hcomparison⟩ := evaluates_compileExpr ops scope e
  constructor
  · refine agrees_of_tracks ((he c dst hc hdst).emits.holds true s f hR hund) ?_
    rintro v s' pc f' ⟨rfl, hval, -⟩
    exact ⟨⟨rfl, hval rfl⟩, Nat.le_refl _⟩
  · intro target htarget
    have hbranch := compiles_conditionAndBranch he hcomparison hc
    refine agrees_of_tracks (hbranch.opens.holds target s f hR hund) ?_
    rintro v s' pc f' ⟨rfl, -⟩
    simp only [patchJumpWithTarget, List.length_modify, nextOpcodeLocation] at htarget ⊢
    exact ⟨trivial, by split <;> omega⟩

end Agreement

/-! ### Inputs on which the code is wrong -/

/-- Some values; a number is an integer or not a number. -/
inductive Primitive
  | undefined
  | boolean (b : Bool)
  | number (n : Option Int)
  | symbol
  | typeError
  deriving DecidableEq, Repr

namespace Primitive

/-- Every value but a symbol or an error converts to a number. -/
def toNumber : Primitive → EStateM Primitive Unit (Option Int)
  | .undefined => return none
  | .boolean b => return some b.toNat
  | .number n => return n
  | .symbol | .typeError => throw .typeError

/-- Integer arithmetic on the values converted to numbers. -/
def operators : Operators Primitive Unit where
  arithmetic op x y := do
    let m ← toNumber x
    let n ← toNumber y
    match op with
    | .add => return .number (do return (← m) + (← n))
    | .sub => return .number (do return (← m) - (← n))
    | .mul => return .number (do return (← m) * (← n))
    | .div | .exp | .mod => return .number none
  bitwise _ _ _ := return .number none
  relational op x y := do
    let m ← toNumber x
    let n ← toNumber y
    match op, m, n with
    | .lessThan, some m, some n => return decide (m < n)
    | _, _, _ => return false
  toNumeric x := return .number (← toNumber x)
  increment
    | .number n => .number (n.map (· + 1))
    | v => v
  decrement
    | .number n => .number (n.map (· - 1))
    | v => v
  toBoolean
    | .undefined => false
    | .boolean b => b
    | .number n => n.any (· != 0)
    | .symbol | .typeError => true
  isNullOrUndefined v := v == .undefined
  ofBool := .boolean
  undefined := .undefined
  mutateImmutable := .typeError
  toBoolean_ofBool _ := rfl

end Primitive

/-- Two lexical bindings, `false` and `true`, in the first two registers. -/
def sampleScope : LocalScope Bool where
  flags _ := .lexical
  localRegister b := b.toNat
  localRegister_injective := by
    rintro (- | -) (- | -) h <;> first | rfl | cases h

/-- A compiler that has the two bindings and one temporary allocated. -/
def sampleCompiler : ByteCompiler (Instruction Primitive) :=
  ⟨[], ⟨[.persistent, .persistent, .used]⟩⟩

/-- The first binding holds `v`, the second one the number zero. -/
def sampleStore (v : Primitive) : Store Bool Primitive Unit :=
  ⟨fun b => if b then .number (some 0) else v, ()⟩

def sampleFrame (v : Primitive) : Frame Primitive Unit :=
  ⟨fun r => if r = 0 then v else if r = 1 then .number (some 0) else .undefined, ()⟩

theorem sampleCompiler_localsAllocated : LocalsAllocated sampleScope sampleCompiler.flags := by
  rintro (- | -) <;> decide

theorem sampleCompiler_isTarget : IsTarget sampleScope sampleCompiler.flags 2 :=
  ⟨by decide, by rintro (- | -) <;> decide⟩

theorem sampleFrame_reflects (v : Primitive) :
    Reflects sampleScope (sampleStore v) (sampleFrame v) :=
  ⟨by rintro (- | -) <;> rfl, rfl⟩

/-- `x < (y = 5) ? x++ : y`, whose operands are not disturbed. -/
def undisturbedExample : Expression Bool Primitive :=
  .conditional
    (.binary (.relational .lessThan) (.identifier false)
      (.assign .assign true (.literal (.number (some 5)))))
    (.update .incrementPost false) (.identifier true)

theorem undisturbed_undisturbedExample : Undisturbed Primitive.operators sampleScope
    undisturbedExample true (sampleStore (.number (some 3))) := by
  refine ⟨⟨trivial, fun x s₁ h => ⟨fun _ => trivial, fun name hname r s₂ hr => ?_⟩⟩,
    fun x s₁ h => ?_⟩
  · cases h
    cases hname
    cases hr
    rfl
  · cases h
    exact fun _ => ⟨.number (some 3), (), rfl, fun _ _ => rfl⟩

theorem evaluatesLeftToRight_undisturbedExample :
    EvaluatesLeftToRight Primitive.operators sampleScope sampleCompiler 2 undisturbedExample
      (sampleStore (.number (some 3))) (sampleFrame (.number (some 3))) ∧
    ∀ target, (compileConditionAndBranch (compileExpr sampleScope undisturbedExample)
        (comparison sampleScope undisturbedExample) sampleCompiler).2.nextOpcodeLocation ≤ target →
      BranchesLeftToRight Primitive.operators sampleScope sampleCompiler target
        undisturbedExample (sampleStore (.number (some 3))) (sampleFrame (.number (some 3))) :=
  evaluatesLeftToRight Primitive.operators sampleScope sampleCompiler 2
    sampleCompiler_localsAllocated sampleCompiler_isTarget undisturbedExample _ _
    (sampleFrame_reflects _) undisturbed_undisturbedExample

/-- `x + (x = 5)`, `x` being the first binding. -/
def overwritten (op : BinaryOp) : Expression Bool Primitive :=
  .binary op (.identifier false) (.assign .assign false (.literal (.number (some 5))))

/-- One outcome of the executor that does not agree settles that none does. -/
theorem not_agrees {scope : LocalScope Bool} {code : List (Instruction Primitive)} {pc : Nat}
    {f : Frame Primitive Unit} {delivered : Primitive → Nat → Frame Primitive Unit → Prop}
    {x : EStateM.Result Primitive (Store Bool Primitive Unit) Primitive}
    {exec : Semantics (Instruction Primitive) Primitive (Frame Primitive Unit)} (fuel : Nat)
    {r : EStateM.Result Primitive (Frame Primitive Unit) Nat}
    (hrun : run exec code fuel pc f = some r) (hr : ¬ Agrees scope delivered r x) :
    ¬ ∃ fuel r, run exec code fuel pc f = some r ∧ Agrees scope delivered r x := by
  rintro ⟨fuel', r', hrun', hagrees⟩
  exact hr (run_unique hrun hrun' ▸ hagrees)

/-- **The code is wrong** for `x + (x = 5)`, which adds five to five; for the condition
`x < (x = 5)`, which compares five with itself; for `x++` where `x` is `true`, which is
returned unconverted; and for `x++` where `x` is a symbol, which is lost when the conversion
throws. -/
theorem not_evaluatesLeftToRight :
    (LocalsAllocated sampleScope sampleCompiler.flags ∧
      IsTarget sampleScope sampleCompiler.flags 2 ∧
      ∀ v, Reflects sampleScope (sampleStore v) (sampleFrame v)) ∧
    ¬ EvaluatesLeftToRight Primitive.operators sampleScope sampleCompiler 2
      (overwritten (.arithmetic .add)) (sampleStore (.number (some 3)))
      (sampleFrame (.number (some 3))) ∧
    ¬ BranchesLeftToRight Primitive.operators sampleScope sampleCompiler 9
      (overwritten (.relational .lessThan)) (sampleStore (.number (some 3)))
      (sampleFrame (.number (some 3))) ∧
    ¬ EvaluatesLeftToRight Primitive.operators sampleScope sampleCompiler 2
      (.update .incrementPost false) (sampleStore (.boolean true)) (sampleFrame (.boolean true)) ∧
    ¬ EvaluatesLeftToRight Primitive.operators sampleScope sampleCompiler 2
      (.update .incrementPost false) (sampleStore .symbol) (sampleFrame .symbol) := by
  refine ⟨⟨sampleCompiler_localsAllocated, sampleCompiler_isTarget, sampleFrame_reflects⟩,
    not_agrees 4 rfl ?_, not_agrees 4 rfl ?_, not_agrees 4 rfl ?_, not_agrees 4 rfl ?_⟩
  · rintro ⟨⟨-, h⟩, -⟩
    exact absurd h (by decide)
  · rintro ⟨h, -⟩
    exact absurd h (by decide)
  · rintro ⟨⟨-, h⟩, -⟩
    exact absurd h (by decide)
  · rintro ⟨-, h, -⟩
    exact absurd (h false) (by decide)

end BoaLigero
