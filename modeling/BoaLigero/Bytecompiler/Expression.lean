import BoaLigero.Bytecompiler.Emission
import BoaLigero.Bytecompiler.Instruction

/-!
# Compiling Expressions over Local Bindings

The expressions whose identifiers all name local bindings with a register of their own, and
the code the compiler emits for them. Operands are handed to the code that consumes them: an
identifier hands out the register of its binding, any other expression a temporary.
-/

namespace BoaLigero

/-! ### Bindings -/

/-- How a binding was created. A `var` binding or a parameter is not lexical; an immutable
binding is lexical, and assigning to it is an error unless it was created as not strict. -/
inductive BindingFlags
  | var
  | lexical
  | immutable (strict : Bool)
  deriving DecidableEq, Repr

/-- Why a binding cannot be set. -/
inductive BindingLocatorError
  | mutateImmutable
  | silent
  deriving DecidableEq, Repr

namespace BindingFlags

def isLexical : BindingFlags → Bool
  | .var => false
  | .lexical => true
  | .immutable _ => true

def setMutableBinding : BindingFlags → Except BindingLocatorError Unit
  | .var => .ok ()
  | .lexical => .ok ()
  | .immutable true => .error .mutateImmutable
  | .immutable false => .error .silent

end BindingFlags

/-- The local bindings an expression can name, each with the register that stores it. -/
structure LocalScope (B : Type) where
  flags : B → BindingFlags
  localRegister : B → Register
  localRegister_injective : Function.Injective localRegister

/-- Expressions, with literals denoting values `V` and identifiers resolved to bindings. -/
inductive Expression (B V : Type)
  | literal (value : V)
  | identifier (name : B)
  | parenthesized (expression : Expression B V)
  | assign (op : AssignOp) (lhs : B) (rhs : Expression B V)
  | update (op : UpdateOp) (target : B)
  | binary (op : BinaryOp) (lhs rhs : Expression B V)
  | conditional (condition ifTrue ifFalse : Expression B V)
  deriving DecidableEq, Repr

/-! ### Emitters -/

/-- Code that puts the value of an expression into a register. -/
abbrev Emitter (V : Type) := Register → ByteCompiler (Instruction V) → ByteCompiler (Instruction V)

/-- Code that hands the register of an operand to the code that consumes it. -/
abbrev OperandEmitter (V : Type) := Emitter V → ByteCompiler (Instruction V) → ByteCompiler (Instruction V)

open ByteCompiler

section Compile

variable {B V : Type} (scope : LocalScope B)

/-- `compile_expr_operand`: the register of a local binding itself, else a temporary that
the expression is compiled into. -/
def compileExprOperand (expr : Expression B V) (compileExpr : Emitter V) : OperandEmitter V :=
  fun inner c =>
    match expr with
    | .identifier name => inner (scope.localRegister name) c
    | _ => withRegister (fun reg c => inner reg (compileExpr reg c)) c

/-! ### Binary operators -/

def compileBinaryArithmetic (op : ArithmeticOp) (rhs : OperandEmitter V) (dst lhs : Register) :
    ByteCompiler (Instruction V) → ByteCompiler (Instruction V) :=
  rhs fun rhs c => c.emit (.arithmetic op dst lhs rhs)

def compileBinaryBitwise (op : BitwiseOp) (rhs : OperandEmitter V) (dst lhs : Register) :
    ByteCompiler (Instruction V) → ByteCompiler (Instruction V) :=
  rhs fun rhs c => c.emit (.bitwise op dst lhs rhs)

def compileBinaryRelational (op : RelationalOp) (rhs : OperandEmitter V) (dst lhs : Register) :
    ByteCompiler (Instruction V) → ByteCompiler (Instruction V) :=
  rhs fun rhs c => c.emit (.relational op dst lhs rhs)

/-- `compile_binary`, from the two operands compiled either way. -/
def compileBinary (op : BinaryOp) (lhs rhs : OperandEmitter V) (lhsExpr rhsExpr : Emitter V) :
    Emitter V := fun dst c =>
  match op with
  | .arithmetic op => lhs (fun lhs => compileBinaryArithmetic op rhs dst lhs) c
  | .bitwise op => lhs (fun lhs => compileBinaryBitwise op rhs dst lhs) c
  | .relational op => lhs (fun lhs => compileBinaryRelational op rhs dst lhs) c
  | .logical op =>
      let c := lhsExpr dst c
      let (exit, c) := c.emitLabel (.logical op dummyAddress dst)
      let c := rhsExpr dst c
      c.patchJump exit
  | .comma =>
      let c := lhs (fun _ c => c) c
      rhsExpr dst c

/-! ### Assignments and updates -/

/-- `emit_binding_access` for reading a local binding. -/
def emitGetName (name : B) (dst : Register) (c : ByteCompiler (Instruction V)) : ByteCompiler (Instruction V) :=
  c.emit (.move dst (scope.localRegister name))

/-- `emit_binding_access` for writing a local binding. -/
def emitSetName (name : B) (value : Register) (c : ByteCompiler (Instruction V)) : ByteCompiler (Instruction V) :=
  c.emit (.move (scope.localRegister name) value)

/-- Store to a binding: only a lexical one is asked whether it can be set. -/
def emitPutValue (name : B) (value : Register) (c : ByteCompiler (Instruction V)) : ByteCompiler (Instruction V) :=
  if (scope.flags name).isLexical then
    match (scope.flags name).setMutableBinding with
    | .ok () => emitSetName scope name value c
    | .error .mutateImmutable => c.emit .throwMutateImmutable
    | .error .silent => c
  else
    emitSetName scope name value c

/-- The instruction of a compound assignment that does not short-circuit. -/
def AssignOp.instruction (op : AssignOp) (dst lhs rhs : Register) : Option (Instruction V) :=
  match op with
  | .add => some (.arithmetic .add dst lhs rhs)
  | .sub => some (.arithmetic .sub dst lhs rhs)
  | .mul => some (.arithmetic .mul dst lhs rhs)
  | .div => some (.arithmetic .div dst lhs rhs)
  | .mod => some (.arithmetic .mod dst lhs rhs)
  | .exp => some (.arithmetic .exp dst lhs rhs)
  | .and => some (.bitwise .and dst lhs rhs)
  | .or => some (.bitwise .or dst lhs rhs)
  | .xor => some (.bitwise .xor dst lhs rhs)
  | .shl => some (.bitwise .shl dst lhs rhs)
  | .shr => some (.bitwise .shr dst lhs rhs)
  | .ushr => some (.bitwise .uShr dst lhs rhs)
  | .assign | .boolAnd | .boolOr | .coalesce => none

/-- The logical operator of an assignment that short-circuits. -/
def AssignOp.logical : AssignOp → Option LogicalOp
  | .boolAnd => some .and
  | .boolOr => some .or
  | .coalesce => some .coalesce
  | _ => none

/-- `compile_assign` for a binding. -/
def compileAssign (op : AssignOp) (name : B) (rhs : Emitter V) : Emitter V := fun dst c =>
  match op.logical with
  | some logical =>
      let c := emitGetName scope name dst c
      let (earlyExit, c) := c.emitLabel (.logical logical dummyAddress dst)
      let c := rhs dst c
      let c := emitPutValue scope name dst c
      let (skip, c) := c.jump
      (c.patchJump earlyExit).patchJump skip
  | none =>
      if op = .assign then
        -- The locator of a local binding is not needed; its register is given back at once.
        let c := withRegister (fun _ c => c) c
        emitPutValue scope name dst (rhs dst c)
      else
        let c := emitGetName scope name dst c
        let c := withRegister (fun reg c =>
          let c := rhs reg c
          match op.instruction dst dst reg with
          | some i => c.emit i
          | none => c) c
        emitPutValue scope name dst c

def UpdateOp.isPost : UpdateOp → Bool
  | .incrementPost | .decrementPost => true
  | .incrementPre | .decrementPre => false

/-- `Inc` or `Dec`. -/
def emitUpdate (op : UpdateOp) (dst src : Register) (c : ByteCompiler (Instruction V)) : ByteCompiler (Instruction V) :=
  match op with
  | .incrementPost | .incrementPre => c.emit (.inc dst src)
  | .decrementPost | .decrementPre => c.emit (.dec dst src)

/-- `compile_update` for a binding whose value is used. A lexical binding that can be set is
updated in its register. -/
def compileUpdate (op : UpdateOp) (name : B) : Emitter V := fun dst c =>
  let reg := scope.localRegister name
  if (scope.flags name).isLexical && (scope.flags name).setMutableBinding.isOk then
    if op.isPost then
      emitUpdate op reg reg (c.emit (.move dst reg))
    else
      (emitUpdate op dst reg c).emit (.move reg dst)
  else
    let c := emitGetName scope name dst c
    withRegister (fun value c =>
      let c := emitUpdate op value dst c
      let c := emitPutValue scope name value c
      if op.isPost then c else c.emit (.move dst value)) c

/-! ### Conditions -/

def jumpIfFalse (value : Register) (c : ByteCompiler (Instruction V)) : Label × ByteCompiler (Instruction V) :=
  c.emitLabel (.jumpIfFalse dummyAddress value)

/-- A condition that is a relational comparison, from its operands. -/
structure Comparison (V : Type) where
  op : RelationalOp
  lhs : OperandEmitter V
  rhs : OperandEmitter V

/-- `try_fused_comparison_branch` with nothing hoisted. -/
def tryFusedComparisonBranch (comparison : Comparison V) (c : ByteCompiler (Instruction V)) :
    Option (Label × ByteCompiler (Instruction V)) :=
  if comparison.op.isFused then
    let c := comparison.lhs (fun lhs => comparison.rhs fun rhs c =>
      c.emit (.jumpIfNot comparison.op dummyAddress lhs rhs)) c
    -- The branch is the last instruction emitted.
    some (c.nextOpcodeLocation - 1, c)
  else
    none

/-- `compile_condition_and_branch` with nothing hoisted: the branch is taken when the
condition is false. -/
def compileConditionAndBranch (condition : Emitter V) (comparison : Option (Comparison V))
    (c : ByteCompiler (Instruction V)) : Label × ByteCompiler (Instruction V) :=
  match comparison.bind fun comparison => tryFusedComparisonBranch comparison c with
  | some branch => branch
  | none =>
      let (value, registerAllocator) := c.registerAllocator.alloc
      let c := condition value { c with registerAllocator }
      let (label, c) := jumpIfFalse value c
      (label, { c with registerAllocator := c.registerAllocator.dealloc value })

/-- `compile_if_else`. -/
def compileIfElse (condition : Emitter V) (comparison : Option (Comparison V))
    (trueCase falseCase : ByteCompiler (Instruction V) → ByteCompiler (Instruction V)) (c : ByteCompiler (Instruction V)) :
    ByteCompiler (Instruction V) :=
  let (jumpFalse, c) := compileConditionAndBranch condition comparison c
  let c := trueCase c
  let (jumpToEnd, c) := c.jump
  let c := c.patchJump jumpFalse
  let c := falseCase c
  c.patchJump jumpToEnd

mutual

/-- `compile_expr`. -/
def compileExpr : Expression B V → Emitter V
  | .literal value, dst, c => c.emit (.store dst value)
  | .identifier name, dst, c => emitGetName scope name dst c
  | .parenthesized e, dst, c => compileExpr e dst c
  | .assign op lhs rhs, dst, c => compileAssign scope op lhs (compileExpr rhs) dst c
  | .update op target, dst, c => compileUpdate scope op target dst c
  | .binary op lhs rhs, dst, c =>
      compileBinary op (compileExprOperand scope lhs (compileExpr lhs))
        (compileExprOperand scope rhs (compileExpr rhs)) (compileExpr lhs) (compileExpr rhs) dst c
  | .conditional condition ifTrue ifFalse, dst, c =>
      compileIfElse (compileExpr condition) (comparison condition) (compileExpr ifTrue dst)
        (compileExpr ifFalse dst) c

/-- The comparison a condition is, outer parentheses stripped. -/
def comparison : Expression B V → Option (Comparison V)
  | .parenthesized e => comparison e
  | .binary (.relational op) lhs rhs =>
      some ⟨op, compileExprOperand scope lhs (compileExpr lhs),
        compileExprOperand scope rhs (compileExpr rhs)⟩
  | _ => none

end

end Compile

end BoaLigero
