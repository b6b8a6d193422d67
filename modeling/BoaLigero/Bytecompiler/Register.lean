import Mathlib.Logic.Function.Basic

/-!
# The Register Allocator

The compiler hands out registers of the frame one at a time: the first one that is not in
use, or a new one behind the last. A temporary is given back when the code that needs it has
been emitted; the register of a local binding is persistent and never given back.

## Main results

* `RegisterAllocator.flags_alloc_fst` — an allocated register was not in use.
* `RegisterAllocator.flags_dealloc_alloc` — giving a temporary back undoes its allocation.
-/

namespace BoaLigero

/-- The index of a register in the frame's register file. -/
abbrev Register := Nat

/-- The flags of a register entry. The two flags of the source make three values: `alloc`
asserts that a persistent register is in use. -/
inductive RegisterFlags
  | free
  | used
  | persistent
  deriving DecidableEq, Repr

/-- The allocator: one entry for each register of the frame. -/
structure RegisterAllocator where
  registers : List RegisterFlags
  deriving DecidableEq, Repr

namespace RegisterAllocator

/-- The flags of a register; one that does not exist yet is free. -/
def flags (a : RegisterAllocator) (reg : Register) : RegisterFlags :=
  a.registers[reg]?.getD .free

/-- The first free register, marked with the given flags; a new one when none is free. -/
def allocWith (a : RegisterAllocator) (f : RegisterFlags) : Register × RegisterAllocator :=
  match a.registers.findIdx? (· = .free) with
  | some i => (i, ⟨a.registers.set i f⟩)
  | none => (a.registers.length, ⟨a.registers ++ [f]⟩)

def alloc (a : RegisterAllocator) : Register × RegisterAllocator := a.allocWith .used

def allocPersistent (a : RegisterAllocator) : Register × RegisterAllocator :=
  a.allocWith .persistent

/-- Give a temporary back. The source asserts that the register is in use and not
persistent. -/
def dealloc (a : RegisterAllocator) (reg : Register) : RegisterAllocator :=
  if a.flags reg = .used then ⟨a.registers.set reg .free⟩ else a

/-! ### What the operations do to the flags -/

/-- **An allocated register was not in use.** -/
theorem flags_allocWith_fst (a : RegisterAllocator) (f : RegisterFlags) :
    a.flags (a.allocWith f).1 = .free := by
  rw [allocWith]
  cases h : a.registers.findIdx? (· = .free) with
  | none => simp [flags]
  | some i =>
      obtain ⟨hlt, hfree, -⟩ := List.findIdx?_eq_some_iff_getElem.mp h
      simpa [flags, hlt] using hfree

/-- An allocation marks the register it returns and no other. -/
theorem flags_allocWith_snd (a : RegisterAllocator) (f : RegisterFlags) :
    (a.allocWith f).2.flags = Function.update a.flags (a.allocWith f).1 f := by
  funext r
  rw [allocWith]
  cases h : a.registers.findIdx? (· = .free) with
  | none =>
      simp only [flags, Function.update_apply, List.getElem?_append]
      grind
  | some i =>
      obtain ⟨hlt, -, -⟩ := List.findIdx?_eq_some_iff_getElem.mp h
      simp only [flags, Function.update_apply, List.getElem?_set]
      grind

theorem flags_alloc_fst (a : RegisterAllocator) : a.flags a.alloc.1 = .free :=
  a.flags_allocWith_fst .used

theorem flags_alloc_snd (a : RegisterAllocator) :
    a.alloc.2.flags = Function.update a.flags a.alloc.1 .used :=
  a.flags_allocWith_snd .used

/-- A temporary given back is free again; the other registers are as they were. -/
theorem flags_dealloc {a : RegisterAllocator} {reg : Register} (h : a.flags reg = .used) :
    (a.dealloc reg).flags = Function.update a.flags reg .free := by
  have hlt : reg < a.registers.length := by
    by_contra hge
    simp [flags, List.getElem?_eq_none (Nat.le_of_not_lt hge)] at h
  funext r
  rw [dealloc, if_pos h]
  simp only [flags, Function.update_apply, List.getElem?_set]
  grind

/-- **Giving a temporary back undoes its allocation**, whatever allocator with the same flags
it is given back to. -/
theorem flags_dealloc_alloc (a : RegisterAllocator) {a' : RegisterAllocator}
    (h : a'.flags = a.alloc.2.flags) : (a'.dealloc a.alloc.1).flags = a.flags := by
  have hused : a'.flags a.alloc.1 = .used := by
    rw [h, flags_alloc_snd, Function.update_self]
  rw [flags_dealloc hused, h, flags_alloc_snd, Function.update_idem]
  exact Function.update_eq_self_iff.mpr a.flags_alloc_fst.symm

/-- A register in use is not the one allocated next. -/
theorem alloc_fst_ne {a : RegisterAllocator} {r : Register} (h : a.flags r ≠ .free) :
    a.alloc.1 ≠ r := by
  rintro rfl
  exact h a.flags_alloc_fst

/-- An allocation leaves what is in use in use. -/
theorem flags_alloc_ne {a : RegisterAllocator} {r : Register} (h : a.flags r ≠ .free) :
    a.alloc.2.flags r ≠ .free := by
  rw [flags_alloc_snd, Function.update_of_ne (a.alloc_fst_ne h).symm]
  exact h

end RegisterAllocator

end BoaLigero
