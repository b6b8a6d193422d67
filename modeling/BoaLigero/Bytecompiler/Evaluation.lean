import BoaLigero.Bytecompiler.Expression

/-!
# Left-to-Right Evaluation

The meaning the language gives to an expression over local bindings, as a computation on the
values of the bindings and the rest of the world, and the evaluations in which no operand is
disturbed between its own evaluation and its use.
-/

namespace BoaLigero

/-- The values of the local bindings and the rest of the world. -/
structure Store (B V W : Type) where
  locals : B → V
  world : W

namespace Store

variable {B V W : Type}

def setLocal [DecidableEq B] (s : Store B V W) (name : B) (value : V) : Store B V W :=
  { s with locals := Function.update s.locals name value }

/-- Run an operator on the world. -/
def onWorld {α : Type} (m : EStateM V W α) : EStateM V (Store B V W) α := fun s =>
  match m.run s.world with
  | .ok a w => .ok a { s with world := w }
  | .error e w => .error e { s with world := w }

end Store

/-- The binary operator of a compound assignment. -/
def AssignOp.apply {V W : Type} (ops : Operators V W) : AssignOp → Option (V → V → EStateM V W V)
  | .add => some (ops.arithmetic .add)
  | .sub => some (ops.arithmetic .sub)
  | .mul => some (ops.arithmetic .mul)
  | .div => some (ops.arithmetic .div)
  | .mod => some (ops.arithmetic .mod)
  | .exp => some (ops.arithmetic .exp)
  | .and => some (ops.bitwise .and)
  | .or => some (ops.bitwise .or)
  | .xor => some (ops.bitwise .xor)
  | .shl => some (ops.bitwise .shl)
  | .shr => some (ops.bitwise .shr)
  | .ushr => some (ops.bitwise .uShr)
  | .assign | .boolAnd | .boolOr | .coalesce => none

section Eval

variable {B V W : Type} [DecidableEq B] (ops : Operators V W) (scope : LocalScope B)

/-- The value of a binding. -/
def getValue (name : B) : EStateM V (Store B V W) V := fun s => .ok (s.locals name) s

/-- Assign to a binding: an immutable one throws, or keeps its value when it is not
strict. -/
def putValue (name : B) (value : V) : EStateM V (Store B V W) Unit := fun s =>
  match scope.flags name with
  | .var | .lexical => .ok () (s.setLocal name value)
  | .immutable true => .error ops.mutateImmutable s
  | .immutable false => .ok () s

/-- An assignment, given the evaluation of its right-hand side. -/
def evalAssign (op : AssignOp) (name : B) (rhs : EStateM V (Store B V W) V) :
    EStateM V (Store B V W) V :=
  match op.logical, op.apply ops with
  | some op, _ => do
      let old ← getValue name
      if ops.shortCircuits op old then
        return old
      else
        let value ← rhs
        putValue ops scope name value
        return value
  | none, some apply => do
      let old ← getValue name
      let value ← rhs
      let value ← Store.onWorld (apply old value)
      putValue ops scope name value
      return value
  | none, none => do
      let value ← rhs
      putValue ops scope name value
      return value

/-- An update: the old value is converted first, and a postfix operator returns it
converted. -/
def evalUpdate (op : UpdateOp) (name : B) : EStateM V (Store B V W) V := do
  let old ← getValue name
  let old ← Store.onWorld (ops.toNumeric old)
  putValue ops scope name (ops.updated op old)
  return if op.isPost then old else ops.updated op old

/-- A binary operator, given the evaluations of its operands. -/
def evalBinary (op : BinaryOp) (lhs rhs : EStateM V (Store B V W) V) :
    EStateM V (Store B V W) V := do
  let l ← lhs
  match op with
  | .arithmetic op => Store.onWorld (ops.arithmetic op l (← rhs))
  | .bitwise op => Store.onWorld (ops.bitwise op l (← rhs))
  | .relational op => return ops.ofBool (← Store.onWorld (ops.relational op l (← rhs)))
  | .logical op => if ops.shortCircuits op l then return l else rhs
  | .comma => rhs

/-- Evaluate an expression from left to right. -/
def eval : Expression B V → EStateM V (Store B V W) V
  | .literal value => return value
  | .identifier name => getValue name
  | .parenthesized e => eval e
  | .assign op name rhs => evalAssign ops scope op name (eval rhs)
  | .update op name => evalUpdate ops scope op name
  | .binary op lhs rhs => evalBinary ops op (eval lhs) (eval rhs)
  | .conditional condition ifTrue ifFalse => do
      if ops.toBoolean (← eval condition) then eval ifTrue else eval ifFalse

/-- What holds of a result unless it is an error. -/
def Ensures {ε σ α : Type} (r : EStateM.Result ε σ α) (P : α → σ → Prop) : Prop :=
  ∀ a s, r = .ok a s → P a s

/-- **No operand is disturbed** in the evaluation of the expression: when the left operand of
an arithmetic, bitwise or relational operator names a binding, the right operand leaves that
binding as it was; and when a lexical binding is updated, its value converts to a numeric
one, to itself when the old value is `used`. -/
def Undisturbed : Expression B V → Bool → Store B V W → Prop
  | .literal _, _, _ => True
  | .identifier _, _, _ => True
  | .parenthesized e, used, s => Undisturbed e used s
  | .assign op name rhs, _, s =>
      (∀ logical, op.logical = some logical → ¬ ops.shortCircuits logical (s.locals name)) →
        Undisturbed rhs true s
  | .update op name, used, s =>
      scope.flags name = .lexical → ∃ numeric w, (ops.toNumeric (s.locals name)).run s.world
        = .ok numeric w ∧ (used → op.isPost → numeric = s.locals name)
  | .binary (.logical op) lhs rhs, used, s =>
      Undisturbed lhs true s ∧ Ensures ((eval ops scope lhs).run s) fun l s =>
        ¬ ops.shortCircuits op l → Undisturbed rhs used s
  | .binary .comma lhs rhs, used, s =>
      Undisturbed lhs false s ∧ Ensures ((eval ops scope lhs).run s) fun _ s =>
        Undisturbed rhs used s
  | .binary _ lhs rhs, _, s =>
      Undisturbed lhs true s ∧ Ensures ((eval ops scope lhs).run s) fun l s =>
        Undisturbed rhs true s ∧ ∀ name, lhs = .identifier name →
          Ensures ((eval ops scope rhs).run s) fun _ s => s.locals name = l
  | .conditional condition ifTrue ifFalse, used, s =>
      Undisturbed condition true s ∧ Ensures ((eval ops scope condition).run s) fun c s =>
        if ops.toBoolean c then Undisturbed ifTrue used s else Undisturbed ifFalse used s

end Eval

end BoaLigero
