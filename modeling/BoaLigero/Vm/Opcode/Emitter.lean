import BoaLigero.Vm.Opcode.Instruction

/-!
# Emitting Bytecode

The emitter appends the bytes of instructions. Locations are handed out as 32-bit addresses; a
jump emitted with a dummy address is patched in place later, and so is a jump table. A program is
the list of the instructions that were emitted, in which a patch changes one instruction. The
bytes are those of the program after every call, so that walking over them (`InstructionIterator`)
shows its instructions and nothing else.

## Main results

* `Emission.Encodes.perform` — one call of the emitter keeps to the program.
* `Program.address_performAll` — the addresses of instructions stay what they are.
* `instructions_performAll` — what any run of the emitter leaves is read as the program, each
  instruction at the address that was handed out for it.
-/

namespace BoaLigero.Bytecode

open ByteFormat Machine

/-- The compile time representation of bytecode. -/
structure BytecodeEmitter where
  bytes : List UInt8

namespace BytecodeEmitter

/-- Appends an instruction (`emit_*`). -/
def emit (self : BytecodeEmitter) (i : Instruction) : BytecodeEmitter :=
  ⟨self.bytes ++ i.encode⟩

/-- The location of the next opcode. -/
def nextOpcodeLocation (self : BytecodeEmitter) : Address := UInt32.ofNat self.bytes.length

/-- Patches the jump at a label; no result is a panic. -/
def patchJump (self : BytecodeEmitter) (label patch : Address) : Option BytecodeEmitter :=
  let pos := label.toNat
  if pos + 4 < self.bytes.length then
    some ⟨writeAt self.bytes (pos + 1) (toLeBytes 4 patch.toNat)⟩
  else none

/-- Copies addresses into the bytes from an offset on; no result is a panic. -/
def copyAddresses : List UInt8 → ℕ → List Address → Option (List UInt8)
  | bytes, _, [] => some bytes
  | bytes, offset, value :: patch =>
      if offset + 4 ≤ bytes.length then
        copyAddresses (writeAt bytes offset (toLeBytes 4 value.toNat)) (offset + 4) patch
      else none

/-- Patches the jump table behind a label; no result is a panic. -/
def patchJumpTable (self : BytecodeEmitter) (label : Address) (patch : List Address) :
    Option BytecodeEmitter := do
  let lengthOffset := label.toNat + 1
  let (length, firstOffset) ← (Argument.decode self.bytes lengthOffset : Option (UInt32 × ℕ))
  guard (length.toNat = patch.length)
  return ⟨← copyAddresses self.bytes firstOffset patch⟩

end BytecodeEmitter

/-- The instructions from a position on (`InstructionIterator`), each with its position; no
result is a panic. -/
def instructionsFrom (bytes : List UInt8) : ℕ → ℕ → Option (List (ℕ × Instruction))
  | 0, _ => some []
  | fuel + 1, pc =>
      if bytes.length ≤ pc then some []
      else do
        let (i, next) ← Instruction.decode bytes pc
        return (pc, i) :: (← instructionsFrom bytes fuel next)

/-- The instructions of a bytecode. Each of them takes a byte, so that there are not more. -/
def instructions (bytes : List UInt8) : Option (List (ℕ × Instruction)) :=
  instructionsFrom bytes bytes.length 0

/-! ### Programs -/

/-- The instructions that were emitted. -/
abbrev Program := List Instruction

/-- What the compiler asks of the emitter. Patches name the instruction they change and those
they lead to. -/
inductive EmitterCall
  | emit (i : Instruction)
  | patchJump (k target : ℕ)
  | patchJumpTable (k : ℕ) (targets : List ℕ)

namespace Program

/-- The bytes of a program. -/
def encode (p : Program) : List UInt8 := p.flatMap Instruction.encode

/-- Where an instruction starts. -/
def offset (p : Program) (k : ℕ) : ℕ := (Program.encode (p.take k)).length

/-- The address of an instruction. -/
def address (p : Program) (k : ℕ) : Address := UInt32.ofNat (p.offset k)

/-- The calls that are made: what is patched is a jump, or a jump table of this length, and the
targets are locations already reached. -/
def Allows (p : Program) : EmitterCall → Prop
  | .emit _ => True
  | .patchJump k target =>
      (∃ i, p[k]? = some i ∧ .address ∈ i.opcode.operands) ∧ target ≤ p.length
  | .patchJumpTable k targets =>
      (∃ i, p[k]? = some i ∧ i.opcode = .jumpTable ∧ i.addresses.length = targets.length) ∧
        ∀ target ∈ targets, target ≤ p.length

/-- What a call does to the program. -/
def perform (p : Program) : EmitterCall → Program
  | .emit i => p ++ [i]
  | .patchJump k target => p.modify k fun i => i.setAddress (p.address target)
  | .patchJumpTable k targets => p.modify k fun i => i.setAddresses (targets.map p.address)

/-- Every call is allowed when it is made. -/
def AllowsAll : Program → List EmitterCall → Prop
  | _, [] => True
  | p, call :: calls => p.Allows call ∧ AllowsAll (p.perform call) calls

/-- The instructions of a program with their positions. -/
def listing (p : Program) : List (ℕ × Instruction) :=
  p.zipIdx.map fun (i, k) => (p.offset k, i)

end Program

/-- An emitter and the locations it handed out, one for each instruction. -/
structure Emission where
  emitter : BytecodeEmitter
  labels : List Address

namespace Emission

/-- Nothing is emitted yet. -/
def new : Emission := ⟨⟨[]⟩, []⟩

/-- The location of an instruction, or the one of the next instruction. -/
def location (self : Emission) (k : ℕ) : Option Address :=
  (self.labels ++ [self.emitter.nextOpcodeLocation])[k]?

/-- A call; no result is a panic. The label of a jump table is behind its index operand. -/
def perform (self : Emission) : EmitterCall → Option Emission
  | .emit i => some ⟨self.emitter.emit i, self.labels ++ [self.emitter.nextOpcodeLocation]⟩
  | .patchJump k target => do
      let emitter ← self.emitter.patchJump (← self.labels[k]?) (← self.location target)
      return { self with emitter }
  | .patchJumpTable k targets => do
      let emitter ← self.emitter.patchJumpTable ((← self.labels[k]?) + 4)
        (← targets.mapM self.location)
      return { self with emitter }

/-- One call after the other. -/
def performAll : Emission → List EmitterCall → Option Emission
  | self, [] => some self
  | self, call :: calls => do performAll (← self.perform call) calls

end Emission

/-! ### Positions in a program -/

namespace Program

variable {p : Program} {k : ℕ} {i : Instruction} {f : Instruction → Instruction}

@[simp]
theorem encode_append (p q : Program) : Program.encode (p ++ q) = p.encode ++ q.encode :=
  List.flatMap_append

@[simp]
theorem encode_cons (i : Instruction) (p : Program) :
    Program.encode (i :: p) = i.encode ++ p.encode :=
  List.flatMap_cons

theorem offset_length (p : Program) : p.offset p.length = p.encode.length := by
  rw [offset, List.take_length]

theorem offset_append_left {p : Program} {k : ℕ} (hk : k ≤ p.length) (q : Program) :
    Program.offset (p ++ q) k = p.offset k := by
  rw [offset, offset, List.take_append_of_le_length hk]

theorem offset_le (p : Program) (k : ℕ) : p.offset k ≤ p.encode.length := by
  conv_rhs => rw [← List.take_append_drop k p, encode_append, List.length_append]
  exact Nat.le_add_right _ _

/-- A program around one of its instructions. -/
theorem encode_split (h : p[k]? = some i) :
    p.encode = Program.encode (p.take k) ++ (i.encode ++ Program.encode (p.drop (k + 1))) := by
  obtain ⟨hk, rfl⟩ := List.getElem?_eq_some_iff.mp h
  conv_lhs => rw [← List.take_append_drop k p, List.drop_eq_getElem_cons hk]
  rw [encode_append, encode_cons]

/-- The program after one of its instructions changed. -/
theorem encode_modify (h : p[k]? = some i) :
    Program.encode (p.modify k f) =
      Program.encode (p.take k) ++ ((f i).encode ++ Program.encode (p.drop (k + 1))) := by
  obtain ⟨hk, rfl⟩ := List.getElem?_eq_some_iff.mp h
  rw [List.modify_eq_take_cons_drop hk, encode_append, encode_cons]

/-- **A change that keeps the length** of an instruction keeps the positions of all. -/
theorem offset_modify (h : p[k]? = some i) (hlength : (f i).encode.length = i.encode.length)
    (j : ℕ) : Program.offset (p.modify k f) j = p.offset j := by
  rw [offset, offset, List.take_modify]
  by_cases hkj : k < j
  · have htake : (p.take j)[k]? = some i := by rw [List.getElem?_take_of_lt hkj, h]
    rw [encode_modify htake, encode_split htake]
    simp only [List.length_append, hlength]
  · rw [List.modify_eq_self (by rw [List.length_take]; omega)]

end Program

/-! ### One call -/

/-- Overwriting addresses in a row. -/
theorem BytecodeEmitter.copyAddresses_append (patch : List Address) (pre : List UInt8)
    {old : List UInt8} (post : List UInt8) (h : old.length = 4 * patch.length) :
    copyAddresses (pre ++ (old ++ post)) pre.length patch =
      some (pre ++ (patch.flatMap Argument.encode ++ post)) := by
  induction patch generalizing pre old with
  | nil =>
      obtain rfl := List.length_eq_zero_iff.mp h
      rfl
  | cons value patch ih =>
      rw [List.length_cons] at h
      have hfirst : (old.take 4).length = 4 := by
        rw [List.length_take]
        omega
      have hold : old = old.take 4 ++ old.drop 4 := (List.take_append_drop 4 old).symm
      have hbytes : (toLeBytes 4 value.toNat).length = 4 := length_toLeBytes ..
      have hwrite := writeAt_append pre (old.drop 4 ++ post)
        (hfirst.trans hbytes.symm)
      rw [hold, List.append_assoc, copyAddresses, if_pos (by simp only [List.length_append]; omega),
        hwrite, ← List.append_assoc pre]
      have hrest := @ih (pre ++ toLeBytes 4 value.toNat) (old.drop 4)
        (by rw [List.length_drop]; omega)
      rw [List.length_append, hbytes] at hrest
      rw [hrest, List.flatMap_cons, List.append_assoc, List.append_assoc]
      rfl

namespace Emission

/-- **The bytes are those of the program**, and each instruction's location was handed out. -/
structure Encodes (e : Emission) (p : Program) : Prop where
  bytes : e.emitter.bytes = p.encode
  labels : e.labels = (List.range p.length).map p.address

variable {e : Emission} {p : Program} {k : ℕ} {i : Instruction}

theorem Encodes.label (h : e.Encodes p) (hk : k < p.length) :
    e.labels[k]? = some (p.address k) := by
  rw [h.labels, List.getElem?_map, List.getElem?_range hk, Option.map_some]

theorem Encodes.nextOpcodeLocation (h : e.Encodes p) :
    e.emitter.nextOpcodeLocation = p.address p.length := by
  rw [BytecodeEmitter.nextOpcodeLocation, h.bytes, Program.address, Program.offset_length]

theorem Encodes.location (h : e.Encodes p) (hk : k ≤ p.length) :
    e.location k = some (p.address k) := by
  have hlength : e.labels.length = p.length := by
    rw [h.labels, List.length_map, List.length_range]
  rw [Emission.location]
  rcases Nat.lt_or_eq_of_le hk with hlt | rfl
  · rw [List.getElem?_append_left (by omega), h.label hlt]
  · rw [← hlength, List.getElem?_concat_length, h.nextOpcodeLocation, hlength]

theorem Encodes.locations (h : e.Encodes p) {targets : List ℕ}
    (htargets : ∀ k ∈ targets, k ≤ p.length) :
    targets.mapM e.location = some (targets.map p.address) := by
  induction targets with
  | nil => rfl
  | cons k targets ih =>
      have hrest := ih fun j hj => htargets j (List.mem_cons_of_mem k hj)
      rw [List.mapM_cons, h.location (htargets k List.mem_cons_self), hrest]
      rfl

/-- A change of an instruction that keeps its length keeps the locations. -/
theorem Encodes.modify (h : e.Encodes p) {f : Instruction → Instruction} (hi : p[k]? = some i)
    (hlength : (f i).encode.length = i.encode.length) {emitter : BytecodeEmitter}
    (hbytes : emitter.bytes = Program.encode (p.modify k f)) :
    Encodes { e with emitter } (p.modify k f) where
  bytes := hbytes
  labels := by
    rw [h.labels, List.length_modify]
    refine List.map_congr_left fun j _ => ?_
    rw [Program.address, Program.address, Program.offset_modify hi hlength]

theorem Encodes.emit (h : e.Encodes p) (i : Instruction) :
    Encodes ⟨e.emitter.emit i, e.labels ++ [e.emitter.nextOpcodeLocation]⟩ (p ++ [i]) where
  bytes := by
    rw [Program.encode_append, Program.encode_cons, ← h.bytes]
    exact congrArg (e.emitter.bytes ++ ·) (List.append_nil i.encode).symm
  labels := by
    have hkept : (List.range p.length).map p.address =
        (List.range p.length).map (Program.address (p ++ [i])) := by
      refine List.map_congr_left fun j hj => ?_
      rw [Program.address, Program.address,
        Program.offset_append_left (Nat.le_of_lt (List.mem_range.mp hj))]
    have hlast : p.address p.length = Program.address (p ++ [i]) p.length := by
      rw [Program.address, Program.address, Program.offset_append_left le_rfl]
    rw [h.labels, h.nextOpcodeLocation, List.length_append, List.length_singleton,
      List.range_succ, List.map_append, hkept, hlast, List.map_singleton]

/-- The address of an instruction is its position. -/
theorem toNat_address (hsize : p.encode.length < 2 ^ 32) (k : ℕ) :
    (p.address k).toNat = p.offset k := by
  rw [Program.address, UInt32.toNat_ofNat', Nat.mod_eq_of_lt]
  exact (p.offset_le k).trans_lt hsize

/-- A jump is patched in place. -/
theorem Encodes.patchJump (h : e.Encodes p) (hsize : p.encode.length < 2 ^ 32)
    (hi : p[k]? = some i) (haddress : .address ∈ i.opcode.operands) (target : Address) :
    e.emitter.patchJump (p.address k) target =
      some ⟨Program.encode (p.modify k fun i => i.setAddress target)⟩ := by
  obtain ⟨old, rest, hold, hencode, hset⟩ := Instruction.exists_encode_setAddress haddress
  have hbytes := h.bytes.trans (Program.encode_split hi)
  rw [hencode] at hbytes
  have hlength := congrArg List.length hbytes
  simp only [List.length_append, List.length_cons] at hlength
  have hpos : (p.address k).toNat = (Program.encode (p.take k)).length := toNat_address hsize k
  have hwrite := writeAt_append (Program.encode (p.take k) ++ [i.opcode.encode])
    (rest ++ Program.encode (p.drop (k + 1)))
    (hold.trans (length_toLeBytes 4 target.toNat).symm)
  rw [List.length_append, List.length_singleton] at hwrite
  simp only [BytecodeEmitter.patchJump]
  rw [if_pos (by omega), Program.encode_modify hi, hset, hpos, hbytes]
  simp only [List.append_assoc, List.cons_append, List.nil_append] at hwrite ⊢
  rw [hwrite]

/-- A jump table is patched in place. -/
theorem Encodes.patchJumpTable (h : e.Encodes p) (hsize : p.encode.length < 2 ^ 32)
    (hi : p[k]? = some i) (htable : i.opcode = .jumpTable) {targets : List Address}
    (hcount : i.addresses.length = targets.length) :
    e.emitter.patchJumpTable (p.address k + 4) targets =
      some ⟨Program.encode (p.modify k fun i => i.setAddresses targets)⟩ := by
  obtain ⟨front, hfront, hself, hencode⟩ := Instruction.exists_encode_setAddresses htable
  have hbytes := h.bytes.trans (Program.encode_split hi)
  rw [← hself, hencode] at hbytes
  set pre := Program.encode (p.take k) with hpre
  set post := Program.encode (p.drop (k + 1)) with hpost
  have hlen := length_encode_u32 (UInt32.ofNat i.addresses.length)
  have hvalues := length_flatMap_encode i.addresses
  have hlength := congrArg List.length hbytes
  rw [h.bytes] at hlength
  simp only [List.length_append] at hlength
  -- The length of the table stands behind the opcode and the index.
  have hpos : (p.address k + 4).toNat + 1 = (pre ++ front).length := by
    have hlabel : (p.address k).toNat = pre.length := toNat_address hsize k
    have hfour : (4 : UInt32).toNat = 4 := rfl
    rw [UInt32.toNat_add, hlabel, hfour, Nat.mod_eq_of_lt (by omega), List.length_append, hfront]
  have hread := LawfulArgument.readsBack (UInt32.ofNat i.addresses.length) trivial
    e.emitter.bytes (pre ++ front).length (by
      rw [hbytes]
      simp only [List.append_assoc]
      rw [← List.append_assoc pre]
      exact (fragmentAt_append_right (pre ++ front) _).append.1)
  have hnat : (UInt32.ofNat i.addresses.length).toNat = targets.length := by
    rw [UInt32.toNat_ofNat', hcount, Nat.mod_eq_of_lt]
    omega
  -- Its addresses are overwritten from there on.
  have hcopy := BytecodeEmitter.copyAddresses_append targets
    (pre ++ front ++ Argument.encode (UInt32.ofNat i.addresses.length)) post
    (hvalues.trans (by rw [hcount]))
  rw [List.length_append] at hcopy
  have hset := hencode targets
  rw [← hcount] at hset
  simp only [BytecodeEmitter.patchJumpTable]
  rw [hpos, hread, Program.encode_modify hi, hset, ← hpre, ← hpost, hbytes]
  simp only [List.append_assoc] at hcopy ⊢
  simp only [Option.bind_eq_bind, Option.bind_some, hnat, guard_true, Option.pure_def, hcopy]

end Emission

theorem Instruction.length_encode_setAddress {i : Instruction}
    (h : .address ∈ i.opcode.operands) (target : Address) :
    (i.setAddress target).encode.length = i.encode.length := by
  obtain ⟨old, rest, hold, hencode, hset⟩ := i.exists_encode_setAddress h
  rw [hencode, hset]
  simp only [List.length_cons, List.length_append, hold, length_toLeBytes]

theorem Instruction.length_encode_setAddresses {i : Instruction} (h : i.opcode = .jumpTable)
    {targets : List Address} (hcount : i.addresses.length = targets.length) :
    (i.setAddresses targets).encode.length = i.encode.length := by
  obtain ⟨front, -, hself, hencode⟩ := i.exists_encode_setAddresses h
  conv_rhs => rw [← hself]
  rw [hencode, hencode, hcount]
  simp only [List.length_append, length_flatMap_encode, hcount]

/-- A program does not shrink. -/
theorem Program.length_encode_perform {p : Program} {call : EmitterCall} (h : p.Allows call) :
    p.encode.length ≤ (p.perform call).encode.length := by
  cases call with
  | emit i =>
      rw [Program.perform, Program.encode_append, List.length_append]
      exact Nat.le_add_right _ _
  | patchJump k target =>
      obtain ⟨⟨i, hi, haddress⟩, -⟩ := h
      rw [Program.perform, Program.encode_modify hi, Program.encode_split hi]
      simp only [List.length_append, Instruction.length_encode_setAddress haddress, le_rfl]
  | patchJumpTable k targets =>
      obtain ⟨⟨i, hi, htable, hcount⟩, -⟩ := h
      rw [Program.perform, Program.encode_modify hi, Program.encode_split hi]
      rw [← List.length_map p.address] at hcount
      simp only [List.length_append, Instruction.length_encode_setAddresses htable hcount, le_rfl]

/-- **One call of the emitter** does to the bytes what it does to the program. -/
theorem Emission.Encodes.perform {e : Emission} {p : Program} {call : EmitterCall}
    (h : e.Encodes p) (hallowed : p.Allows call)
    (hsize : (p.perform call).encode.length < 2 ^ 32) :
    ∃ e', e.perform call = some e' ∧ e'.Encodes (p.perform call) := by
  have hsize' : p.encode.length < 2 ^ 32 :=
    (Program.length_encode_perform hallowed).trans_lt hsize
  cases call with
  | emit i => exact ⟨_, rfl, h.emit i⟩
  | patchJump k target =>
      obtain ⟨⟨i, hi, haddress⟩, htarget⟩ := hallowed
      have hk : k < p.length := (List.getElem?_eq_some_iff.mp hi).1
      have hpatch := h.patchJump hsize' hi haddress (p.address target)
      refine ⟨_, ?_, h.modify (f := fun i => i.setAddress (p.address target)) hi
        (i.length_encode_setAddress haddress _) rfl⟩
      simp only [Emission.perform, h.label hk, h.location htarget, hpatch, Option.bind_eq_bind,
        Option.bind_some, Option.pure_def]
      rfl
  | patchJumpTable k targets =>
      obtain ⟨⟨i, hi, htable, hcount⟩, htargets⟩ := hallowed
      have hk : k < p.length := (List.getElem?_eq_some_iff.mp hi).1
      rw [← List.length_map p.address] at hcount
      have hpatch := h.patchJumpTable hsize' hi htable hcount
      have hlocations := h.locations htargets
      refine ⟨_, ?_, h.modify (f := fun i => i.setAddresses (targets.map p.address)) hi
        (i.length_encode_setAddresses htable hcount) rfl⟩
      simp only [Emission.perform, h.label hk, hlocations, hpatch, Option.bind_eq_bind,
        Option.bind_some, Option.pure_def]
      rfl

/-! ### Whole runs -/

namespace Program

/-- One call after the other. -/
def performAll : Program → List EmitterCall → Program := List.foldl perform

theorem length_encode_performAll {p : Program} {calls : List EmitterCall}
    (h : p.AllowsAll calls) : p.encode.length ≤ (p.performAll calls).encode.length := by
  induction calls generalizing p with
  | nil => exact le_rfl
  | cons call calls ih => exact (length_encode_perform h.1).trans (ih h.2)

end Program

/-- **A run of the emitter** keeps to the program. -/
theorem Emission.Encodes.performAll {e : Emission} {p : Program} {calls : List EmitterCall}
    (h : e.Encodes p) (hallowed : p.AllowsAll calls)
    (hsize : (p.performAll calls).encode.length < 2 ^ 32) :
    ∃ e', e.performAll calls = some e' ∧ e'.Encodes (p.performAll calls) := by
  induction calls generalizing e p with
  | nil => exact ⟨e, rfl, h⟩
  | cons call calls ih =>
      have hfirst : (p.perform call).encode.length < 2 ^ 32 :=
        (Program.length_encode_performAll hallowed.2).trans_lt hsize
      obtain ⟨e₁, heq, h₁⟩ := h.perform hallowed.1 hfirst
      obtain ⟨e₂, heq', h₂⟩ := ih h₁ hallowed.2 hsize
      exact ⟨e₂, by rw [Emission.performAll, heq, Option.bind_eq_bind, Option.bind_some, heq'], h₂⟩

theorem Program.offset_perform {p : Program} {call : EmitterCall} (h : p.Allows call) {k : ℕ}
    (hk : k ≤ p.length) : (p.perform call).offset k = p.offset k := by
  cases call with
  | emit i => exact Program.offset_append_left hk [i]
  | patchJump j target =>
      obtain ⟨⟨i, hi, haddress⟩, -⟩ := h
      exact Program.offset_modify (f := fun i => i.setAddress (p.address target)) hi
        (i.length_encode_setAddress haddress _) k
  | patchJumpTable j targets =>
      obtain ⟨⟨i, hi, htable, hcount⟩, -⟩ := h
      rw [← List.length_map p.address] at hcount
      exact Program.offset_modify (f := fun i => i.setAddresses (targets.map p.address)) hi
        (i.length_encode_setAddresses htable hcount) k

theorem Program.length_le_perform (p : Program) (call : EmitterCall) :
    p.length ≤ (p.perform call).length := by
  cases call with
  | emit i => exact (List.length_append).symm ▸ Nat.le_add_right _ _
  | patchJump j target => exact (List.length_modify ..).symm.le
  | patchJumpTable j targets => exact (List.length_modify ..).symm.le

/-- **Addresses stay**: what jumps were patched to is where the run left the instruction. -/
theorem Program.address_performAll {p : Program} {calls : List EmitterCall}
    (h : p.AllowsAll calls) {k : ℕ} (hk : k ≤ p.length) :
    (p.performAll calls).address k = p.address k := by
  induction calls generalizing p with
  | nil => rfl
  | cons call calls ih =>
      have hrest := ih h.2 (hk.trans (p.length_le_perform call))
      rw [Program.performAll, List.foldl_cons]
      refine hrest.trans ?_
      rw [Program.address, Program.address, Program.offset_perform h.1 hk]

/-- An instruction takes a byte. -/
theorem Instruction.length_encode_pos (i : Instruction) : 0 < i.encode.length :=
  Nat.succ_pos _

/-- The instructions behind a part of a program. -/
theorem instructionsFrom_encode {p : Program} (pre : Program) {post : Program}
    (hp : p = pre ++ post) (hsize : p.encode.length < 2 ^ 32) {fuel : ℕ}
    (hfuel : post.encode.length ≤ fuel) :
    instructionsFrom p.encode fuel pre.encode.length =
      some ((post.zipIdx pre.length).map fun (i, k) => (p.offset k, i)) := by
  induction post generalizing pre fuel with
  | nil =>
      rw [List.append_nil] at hp
      subst hp
      cases fuel with
      | zero => rfl
      | succ fuel => rw [instructionsFrom, if_pos le_rfl, List.zipIdx_nil, List.map_nil]
  | cons i post ih =>
      have hencode : p.encode = pre.encode ++ (i.encode ++ Program.encode post) := by
        rw [hp, Program.encode_append, Program.encode_cons]
      have hlength := congrArg List.length hencode
      simp only [List.length_append] at hlength
      have hpos := i.length_encode_pos
      rw [Program.encode_cons, List.length_append] at hfuel
      obtain ⟨fuel, rfl⟩ : ∃ n, fuel = n + 1 := Nat.exists_eq_succ_of_ne_zero (by omega)
      have hat : FragmentAt p.encode pre.encode.length i.encode := by
        rw [hencode]
        exact (fragmentAt_append_right pre.encode _).append.1
      have hread := Instruction.readsBack (i := i) (by omega) _ _ hat
      have hfuel' : (Program.encode post).length ≤ fuel := by omega
      have hrest := ih (pre ++ [i]) (by rw [hp, List.append_assoc]; rfl) hfuel'
      have hnext : (Program.encode (pre ++ [i])).length = pre.encode.length + i.encode.length := by
        rw [Program.encode_append, List.length_append]
        exact congrArg _ (congrArg List.length (List.append_nil i.encode))
      have hoffset : p.offset pre.length = pre.encode.length := by
        rw [hp, Program.offset_append_left le_rfl, Program.offset_length]
      rw [hnext, List.length_append, List.length_singleton] at hrest
      rw [instructionsFrom, if_neg (by omega), hread]
      simp only [Option.bind_eq_bind, Option.bind_some, hrest, Option.pure_def, List.zipIdx_cons,
        List.map_cons, hoffset]

/-- **What a run of the emitter leaves is its program.** No call panics, walking over the bytes
shows the instructions, patched as they were, and each of them starts where the address that was
handed out for it points. -/
theorem instructions_performAll {calls : List EmitterCall} (hallowed : Program.AllowsAll [] calls)
    (hsize : (Program.performAll [] calls).encode.length < 2 ^ 32) :
    ∃ e, Emission.new.performAll calls = some e ∧
      instructions e.emitter.bytes = some (Program.performAll [] calls).listing ∧
      ∀ k < (Program.performAll [] calls).length, ∃ label,
        e.labels[k]? = some label ∧ label.toNat = (Program.performAll [] calls).offset k := by
  have hnew : Emission.new.Encodes [] := ⟨rfl, rfl⟩
  obtain ⟨e, heq, h⟩ := hnew.performAll hallowed hsize
  refine ⟨e, heq, ?_, fun k hk => ⟨_, h.label hk, Emission.toNat_address hsize k⟩⟩
  rw [instructions, h.bytes]
  exact instructionsFrom_encode [] rfl hsize le_rfl

/-- The address of a jump that is not patched yet. -/
def dummyAddress : Address := 0xFFFFFFFF

/-- A jump and a jump table, patched after the instruction behind them is emitted. -/
def patchedCalls : List EmitterCall :=
  [.emit ⟨.jump, (dummyAddress, ())⟩,
    .emit ⟨.jumpTable, ((3 : UInt32), [dummyAddress, dummyAddress], ())⟩, .emit ⟨.pop, ()⟩,
    .patchJump 0 2, .patchJumpTable 1 [3, 0]]

theorem instructions_patchedCalls :
    ∃ e, Emission.new.performAll patchedCalls = some e ∧
      instructions e.emitter.bytes = some (Program.performAll [] patchedCalls).listing ∧
      ∀ k < (Program.performAll [] patchedCalls).length, ∃ label,
        e.labels[k]? = some label ∧ label.toNat = (Program.performAll [] patchedCalls).offset k :=
  instructions_performAll
    ⟨trivial, trivial, trivial, ⟨⟨_, rfl, by decide⟩, by decide⟩,
      ⟨⟨_, rfl, rfl, rfl⟩, by decide⟩, trivial⟩ (by decide)

end BoaLigero.Bytecode
