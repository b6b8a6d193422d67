import Mathlib.Algebra.Ring.Nat
import BoaLigero.Util.Assembler
import BoaLigero.Bytecompiler.Register

/-!
# The Emitter

The compiler's output and its register allocator, over any set of instructions, and what it
takes to put emitted code together from its parts: the output grows, labels are patched, and
every temporary is given back.
-/

namespace BoaLigero

open Machine

/-- Instructions with jumps among them. -/
class Patchable (ι : Type) where
  /-- An unconditional jump. -/
  jump : Nat → ι
  /-- Replace the address operand. -/
  setAddress : Nat → ι → ι

/-- The compiler's output so far and its register allocator. -/
structure ByteCompiler (ι : Type) where
  bytecode : List ι
  registerAllocator : RegisterAllocator
  deriving DecidableEq, Repr

/-- An instruction whose address is still to be filled in. -/
abbrev Label := Nat

variable {ι : Type}

namespace ByteCompiler

/-- The address of jumps that have not been patched. -/
def dummyAddress : Nat := 2 ^ 32 - 1

/-- Appends an instruction to the code (`emit_…`). -/
def emit (i : ι) (c : ByteCompiler ι) : ByteCompiler ι :=
  { c with bytecode := c.bytecode ++ [i] }

/-- The address of the instruction that is emitted next (`next_opcode_location`). -/
def nextOpcodeLocation (c : ByteCompiler ι) : Nat := c.bytecode.length

/-- Emit an instruction that is to be patched. -/
def emitLabel (i : ι) (c : ByteCompiler ι) : Label × ByteCompiler ι :=
  (c.nextOpcodeLocation, c.emit i)

/-- Allocate a register, use it, and give it back. -/
def withRegister (inner : Register → ByteCompiler ι → ByteCompiler ι) (c : ByteCompiler ι) :
    ByteCompiler ι :=
  let (reg, registerAllocator) := c.registerAllocator.alloc
  let c := inner reg { c with registerAllocator }
  { c with registerAllocator := c.registerAllocator.dealloc reg }

section Patch

variable [Patchable ι]

/-- Sets the address of an emitted jump (`patch_jump_with_target`). -/
def patchJumpWithTarget (label : Label) (target : Nat) (c : ByteCompiler ι) : ByteCompiler ι :=
  { c with bytecode := c.bytecode.modify label (Patchable.setAddress target) }

/-- Lets an emitted jump lead to the instruction that is emitted next (`patch_jump`). -/
def patchJump (label : Label) (c : ByteCompiler ι) : ByteCompiler ι :=
  c.patchJumpWithTarget label c.nextOpcodeLocation

/-- Emits a jump whose address is patched later (`jump`). -/
def jump (c : ByteCompiler ι) : Label × ByteCompiler ι :=
  c.emitLabel (Patchable.jump dummyAddress)

end Patch

/-! ### The registers of the compiler -/

/-- The state of a register in the allocator of the compiler. -/
abbrev flags (c : ByteCompiler ι) (r : Register) : RegisterFlags := c.registerAllocator.flags r

/-- The temporary allocated next. -/
def temporary (c : ByteCompiler ι) : Register := c.registerAllocator.alloc.1

/-- The compiler with that temporary allocated. -/
def allocated (c : ByteCompiler ι) : ByteCompiler ι :=
  { c with registerAllocator := c.registerAllocator.alloc.2 }

/-- The compiler with a temporary given back. -/
def dealloc (c : ByteCompiler ι) (reg : Register) : ByteCompiler ι :=
  { c with registerAllocator := c.registerAllocator.dealloc reg }

/-- The register that is allocated next is free. -/
theorem flags_temporary (c : ByteCompiler ι) : c.flags c.temporary = .free :=
  c.registerAllocator.flags_alloc_fst

/-- Allocating a register changes its own state only. -/
theorem flags_allocated (c : ByteCompiler ι) :
    c.allocated.flags = Function.update c.flags c.temporary .used :=
  c.registerAllocator.flags_alloc_snd

/-- The register that was allocated is in use. -/
theorem flags_allocated_temporary (c : ByteCompiler ι) : c.allocated.flags c.temporary ≠ .free := by
  rw [flags_allocated, Function.update_self]
  exact RegisterFlags.noConfusion

/-- A register that is in use is not the one that is allocated next. -/
theorem temporary_ne {c : ByteCompiler ι} {r : Register} (h : c.flags r ≠ .free) :
    c.temporary ≠ r :=
  RegisterAllocator.alloc_fst_ne h

/-- What was in use before a register was allocated is in use afterwards. -/
theorem flags_allocated_ne {c : ByteCompiler ι} {r : Register} (h : c.flags r ≠ .free) :
    c.allocated.flags r ≠ .free :=
  RegisterAllocator.flags_alloc_ne h

/-- A register that is given back leaves the registers as they were before it was allocated. -/
theorem flags_dealloc {c c' : ByteCompiler ι} (h : c'.flags = c.allocated.flags) :
    (c'.dealloc c.temporary).flags = c.flags :=
  c.registerAllocator.flags_dealloc_alloc h

end ByteCompiler

open ByteCompiler

/-- The compiler emitted code that does `P`, and its registers are as they were. -/
structure Compiles (c c' : ByteCompiler ι) (P : List ι → Nat → Nat → Prop) :
    Prop where
  emits : Emits c.bytecode c'.bytecode P
  flags : c'.flags = c.flags

/-- The compiler emitted code with an open label. -/
structure CompilesOpen [Patchable ι] (c c' : ByteCompiler ι) (label : Label)
    (P : List ι → Nat → Nat → Nat → Prop) : Prop where
  opens : Opens Patchable.setAddress c.bytecode c'.bytecode label P
  flags : c'.flags = c.flags

section Compiles

variable {c c₁ c₂ : ByteCompiler ι} {P Q : List ι → Nat → Nat → Prop}
  {P' Q' : List ι → Nat → Nat → Nat → Prop} {label label' : Label}

/-- Emitting nothing compiles to nothing: the code goes on where it was. -/
theorem compiles_nil (c : ByteCompiler ι) : Compiles c c fun _ a b => a = b :=
  ⟨.nil _, rfl⟩

/-- One instruction compiles to itself, and the code goes on behind it. -/
theorem compiles_emit (c : ByteCompiler ι) (i : ι) :
    Compiles c (c.emit i) fun code a b => code[a]? = some i ∧ b = a + 1 :=
  ⟨.singleton _ _, rfl⟩

/-- What is known of the compiled code may be weakened, whatever code it is a part of. -/
theorem Compiles.imp (h : Compiles c c₁ P) (himp : ∀ code a b, P code a b → Q code a b) :
    Compiles c c₁ Q :=
  ⟨h.emits.imp himp, h.flags⟩

/-- Code that is compiled after other code starts where that code ends. -/
theorem Compiles.trans (h : Compiles c c₁ P) (h' : Compiles c₁ c₂ Q) :
    Compiles c c₂ fun code a d => ∃ b, P code a b ∧ Q code b d :=
  ⟨h.emits.trans h'.emits, h'.flags.trans h.flags⟩

/-- Compiled code starts and ends at the locations that the compiler knows. -/
theorem Compiles.located (h : Compiles c c₁ P) : Compiles c c₁ fun code a b =>
    P code a b ∧ a = c.nextOpcodeLocation ∧ b = c₁.nextOpcodeLocation :=
  ⟨h.emits.located, h.flags⟩

/-- What a function compiles with a register of its own is what the whole compiles. -/
theorem compiles_withRegister {inner : Register → ByteCompiler ι → ByteCompiler ι}
    (h : Compiles c.allocated (inner c.temporary c.allocated) P) :
    Compiles c (withRegister inner c) P :=
  ⟨h.emits, flags_dealloc h.flags⟩

variable [Patchable ι]

/-- A jump that is emitted without an address can be patched to any one. -/
theorem compilesOpen_emitLabel (c : ByteCompiler ι) (i : ι) :
    CompilesOpen c (c.emit i) c.nextOpcodeLocation fun code target a b =>
      code[a]? = some (Patchable.setAddress target i) ∧ b = a + 1 :=
  ⟨.singleton _ _ _, rfl⟩

/-- What is known of code with an open jump may be weakened, whatever the address will be. -/
theorem CompilesOpen.imp (h : CompilesOpen c c₁ label P')
    (himp : ∀ code target a b, P' code target a b → Q' code target a b) :
    CompilesOpen c c₁ label Q' :=
  ⟨h.opens.imp himp, h.flags⟩

/-- Code with an open jump starts and ends at the locations that the compiler knows. -/
theorem CompilesOpen.located (h : CompilesOpen c c₁ label P') :
    CompilesOpen c c₁ label fun code target a b =>
      P' code target a b ∧ a = c.nextOpcodeLocation ∧ b = c₁.nextOpcodeLocation :=
  ⟨h.opens.located, h.flags⟩

/-- Code that follows on code with an open jump leaves the jump open. -/
theorem CompilesOpen.append (h : CompilesOpen c c₁ label P') (h' : Compiles c₁ c₂ Q) :
    CompilesOpen c c₂ label fun code target a d => ∃ b, P' code target a b ∧ Q code b d :=
  ⟨h.opens.append h'.emits, h'.flags.trans h.flags⟩

/-- Code with an open jump may follow on other code. -/
theorem Compiles.opens (h : Compiles c c₁ P) (h' : CompilesOpen c₁ c₂ label Q') :
    CompilesOpen c c₂ label fun code target a d => ∃ b, P code a b ∧ Q' code target b d :=
  ⟨h.emits.opens h'.opens, h'.flags.trans h.flags⟩

/-- Patching an open jump lets it lead to where the code ends. -/
theorem CompilesOpen.patch (h : CompilesOpen c c₁ label P') :
    Compiles c (c₁.patchJump label) fun code a b => P' code b a b :=
  ⟨h.opens.patch, h.flags⟩

/-- Patching one jump leaves another one open that was emitted after it. -/
theorem CompilesOpen.opens_patch (h : CompilesOpen c c₁ label P')
    (h' : CompilesOpen c₁ c₂ label' Q') :
    CompilesOpen c (c₂.patchJump label) label' fun code target a d =>
      ∃ b, P' code d a b ∧ Q' code target b d :=
  ⟨h.opens.opens h'.opens, h'.flags.trans h.flags⟩

end Compiles

end BoaLigero
