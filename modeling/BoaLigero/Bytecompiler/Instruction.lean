import BoaLigero.Util.Machine
import BoaLigero.Bytecompiler.Emission

/-!
# Instructions on Registers

The opcodes that expressions over local bindings compile to, and what they do to the
registers of the frame. What an operator does with its operands is a parameter: it may run
user code, so it works on the rest of the world and may throw.
-/

namespace BoaLigero

/-! ### Operators of the syntax tree -/

/-- The arithmetic operators. -/
inductive ArithmeticOp
  | add | sub | div | mul | exp | mod
  deriving DecidableEq, Repr

/-- The bitwise operators. -/
inductive BitwiseOp
  | and | or | xor | shl | shr | uShr
  deriving DecidableEq, Repr

/-- The relational operators. -/
inductive RelationalOp
  | equal | notEqual | strictEqual | strictNotEqual
  | greaterThan | greaterThanOrEqual | lessThan | lessThanOrEqual
  | isIn | instanceOf
  deriving DecidableEq, Repr

/-- The comparisons that have an opcode fused with the branch. -/
def RelationalOp.isFused : RelationalOp → Bool
  | .lessThan | .lessThanOrEqual | .greaterThan | .greaterThanOrEqual => true
  | _ => false

/-- The logical operators, which may leave out their right operand. -/
inductive LogicalOp
  | and | or | coalesce
  deriving DecidableEq, Repr

/-- The binary operators. -/
inductive BinaryOp
  | arithmetic (op : ArithmeticOp)
  | bitwise (op : BitwiseOp)
  | relational (op : RelationalOp)
  | logical (op : LogicalOp)
  | comma
  deriving DecidableEq, Repr

/-- The assignment operators. -/
inductive AssignOp
  | assign
  | add | sub | mul | div | mod | exp
  | and | or | xor | shl | shr | ushr
  | boolAnd | boolOr | coalesce
  deriving DecidableEq, Repr

/-- The update operators, in front of or behind their operand. -/
inductive UpdateOp
  | incrementPost | incrementPre | decrementPost | decrementPre
  deriving DecidableEq, Repr

/-! ### Operators at run time -/

/-- What the operators do with values `V` in a world `W`. -/
structure Operators (V W : Type) where
  arithmetic : ArithmeticOp → V → V → EStateM V W V
  bitwise : BitwiseOp → V → V → EStateM V W V
  relational : RelationalOp → V → V → EStateM V W Bool
  /-- `ToNumeric`. -/
  toNumeric : V → EStateM V W V
  /-- A numeric value plus one. -/
  increment : V → V
  /-- A numeric value minus one. -/
  decrement : V → V
  toBoolean : V → Bool
  isNullOrUndefined : V → Bool
  ofBool : Bool → V
  undefined : V
  /-- The error an assignment to a constant throws. -/
  mutateImmutable : V
  toBoolean_ofBool : ∀ b, toBoolean (ofBool b) = b

namespace Operators

variable {V W : Type} (ops : Operators V W)

/-- Whether a logical operator leaves its right operand alone. -/
def shortCircuits (op : LogicalOp) (value : V) : Bool :=
  match op with
  | .and => !ops.toBoolean value
  | .or => ops.toBoolean value
  | .coalesce => !ops.isNullOrUndefined value

/-- The new value of an update. -/
def updated (op : UpdateOp) (value : V) : V :=
  match op with
  | .incrementPost | .incrementPre => ops.increment value
  | .decrementPost | .decrementPre => ops.decrement value

end Operators

/-! ### Instructions -/

/-- The opcodes. A condition fused with its branch jumps when the comparison is false. -/
inductive Instruction (V : Type)
  | store (dst : Register) (value : V)
  | move (dst src : Register)
  | arithmetic (op : ArithmeticOp) (dst lhs rhs : Register)
  | bitwise (op : BitwiseOp) (dst lhs rhs : Register)
  | relational (op : RelationalOp) (dst lhs rhs : Register)
  | inc (dst src : Register)
  | dec (dst src : Register)
  | logical (op : LogicalOp) (exit : Nat) (lhs : Register)
  | jump (address : Nat)
  | jumpIfFalse (address : Nat) (value : Register)
  | jumpIfNot (op : RelationalOp) (address : Nat) (lhs rhs : Register)
  | throwMutateImmutable
  deriving DecidableEq, Repr

/-- The instructions that hold an address of a jump can be patched. -/
instance {V : Type} : Patchable (Instruction V) where
  jump := .jump
  setAddress target
    | .logical op _ lhs => .logical op target lhs
    | .jump _ => .jump target
    | .jumpIfFalse _ value => .jumpIfFalse target value
    | .jumpIfNot op _ lhs rhs => .jumpIfNot op target lhs rhs
    | i => i

/-- The registers of a frame and the rest of the world. -/
structure Frame (V W : Type) where
  registers : Register → V
  world : W

namespace Frame

variable {V W : Type}

/-- Sets a register (`set_register`). -/
def setRegister (f : Frame V W) (reg : Register) (value : V) : Frame V W :=
  { f with registers := Function.update f.registers reg value }

/-- Setting a register leaves the rest of the machine alone. -/
@[simp] theorem setRegister_world (f : Frame V W) (reg : Register) (value : V) :
    (f.setRegister reg value).world = f.world := rfl

/-- The register that was set has the value. -/
@[simp] theorem setRegister_self (f : Frame V W) (reg : Register) (value : V) :
    (f.setRegister reg value).registers reg = value := by
  simp [setRegister]

/-- The other registers have the values that they had. -/
theorem setRegister_of_ne {f : Frame V W} {reg r : Register} (h : r ≠ reg) (value : V) :
    (f.setRegister reg value).registers r = f.registers r := by
  simp [setRegister, h]

/-- Run an operator on the world. -/
def onWorld {ε α : Type} (m : EStateM ε W α) : EStateM ε (Frame V W) α := fun f =>
  match m.run f.world with
  | .ok a w => .ok a { f with world := w }
  | .error e w => .error e { f with world := w }

end Frame

namespace Instruction

variable {V W : Type} (ops : Operators V W)

/-- Put a value into a register and go on. -/
def finish (dst : Register) (value : V) (next : Nat) : EStateM V (Frame V W) Nat := fun f =>
  .ok next (f.setRegister dst value)

/-- `Inc` and `Dec`: the operand is taken out of its register, converted, put back as the
converted value, and then the result is stored. -/
def update (op : UpdateOp) (dst src : Register) (next : Nat) :
    EStateM V (Frame V W) Nat := fun f =>
  let value := f.registers src
  match (Frame.onWorld (ops.toNumeric value)).run (f.setRegister src ops.undefined) with
  | .ok numeric f => .ok next ((f.setRegister src numeric).setRegister dst (ops.updated op numeric))
  | .error e f => .error e f

/-- What an opcode does; `next` is the address behind it. -/
def operation (i : Instruction V) (next : Nat) : EStateM V (Frame V W) Nat := do
  match i with
  | .store dst value => finish dst value next
  | .move dst src => finish dst ((← get).registers src) next
  | .arithmetic op dst lhs rhs =>
      let f ← get
      let value ← Frame.onWorld (ops.arithmetic op (f.registers lhs) (f.registers rhs))
      finish dst value next
  | .bitwise op dst lhs rhs =>
      let f ← get
      let value ← Frame.onWorld (ops.bitwise op (f.registers lhs) (f.registers rhs))
      finish dst value next
  | .relational op dst lhs rhs =>
      let f ← get
      let value ← Frame.onWorld (ops.relational op (f.registers lhs) (f.registers rhs))
      finish dst (ops.ofBool value) next
  | .inc dst src => update ops .incrementPre dst src next
  | .dec dst src => update ops .decrementPre dst src next
  | .logical op exit lhs =>
      return if ops.shortCircuits op ((← get).registers lhs) then exit else next
  | .jump address => return address
  | .jumpIfFalse address value =>
      return if ops.toBoolean ((← get).registers value) then next else address
  | .jumpIfNot op address lhs rhs =>
      let f ← get
      let value ← Frame.onWorld (ops.relational op (f.registers lhs) (f.registers rhs))
      return if value then next else address
  | .throwMutateImmutable => throw ops.mutateImmutable

variable (f : Frame V W) (next : Nat)

/-- A constant is stored in its register, and the next instruction follows. -/
theorem run_store (dst : Register) (value : V) :
    ((store dst value).operation ops next).run f = .ok next (f.setRegister dst value) := rfl

/-- A value is copied from one register to the other, and the next instruction follows. -/
theorem run_move (dst src : Register) :
    ((move dst src).operation ops next).run f
      = .ok next (f.setRegister dst (f.registers src)) := rfl

/-- A logical operator jumps exactly if its left operand is the result. -/
theorem run_logical (op : LogicalOp) (exit : Nat) (lhs : Register) :
    ((logical op exit lhs).operation ops next).run f
      = .ok (if ops.shortCircuits op (f.registers lhs) then exit else next) f := rfl

/-- A jump changes nothing but the address. -/
theorem run_jump (address : Nat) :
    ((jump address).operation ops next).run f = .ok address f := rfl

/-- A conditional jump is taken exactly if the value is false, read as a boolean. -/
theorem run_jumpIfFalse (address : Nat) (value : Register) :
    ((jumpIfFalse address value).operation ops next).run f
      = .ok (if ops.toBoolean (f.registers value) then next else address) f := rfl

/-- An assignment to a constant throws, and nothing is changed. -/
theorem run_throwMutateImmutable :
    (throwMutateImmutable.operation ops next).run f = .error ops.mutateImmutable f := rfl

end Instruction

end BoaLigero
