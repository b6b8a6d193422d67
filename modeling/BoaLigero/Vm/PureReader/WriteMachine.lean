import BoaLigero.Vm.PureReader.PropertyWrite

/-!
# Executing Loops of Property Writes

The machine on the instructions of such a loop. Accesses that hit an inline cache, and reads
of initialised declarative bindings, are what the instructions do themselves; everything else
(misses, accessors, primitive bases) may call user code and is a parameter, that acts on all
but the frame. Operands of the loop's arithmetic other than Numbers do not occur.

## Main results

* `LoopCode.stepN_block` — contiguous instructions without jumps are executed in sequence.
-/

namespace BoaLigero

/-- What the instructions do where they leave the fast path. `none` is an exception. -/
structure SlowPaths where
  getName : ℕ → WriteWorld → Option (VmValue × WriteWorld)
  getNameGlobal : ℕ → ℕ → WriteWorld → Option (VmValue × WriteWorld)
  setProperty : ℕ → VmValue → VmValue → WriteWorld → Option WriteWorld

/-- A Number as a value. -/
def ofNumber (n : JsNumber) : VmValue := .primitive (.number n)

/-- The Number in a register. -/
def asNumber : VmValue → Option JsNumber
  | .primitive (.number n) => some n
  | _ => none

/-- A number that was put into a register is read from it again. -/
@[simp] theorem asNumber_ofNumber (n : JsNumber) : asNumber (ofNumber n) = some n := rfl

namespace WriteState

/-- `set_register`. -/
def set (s : WriteState) (r : ℕ) (value : VmValue) : WriteState :=
  { s with registers := Function.update s.registers r value }

end WriteState

/-- Where an instruction goes on. -/
inductive Control where
  | next
  | goto (address : ℕ)
  deriving DecidableEq, Repr

section Machine

variable (code : LoopCode) (slow : SlowPaths)

/-- `GetName` and `GetNameGlobal`: reading a binding. -/
def readBinding (w : WriteWorld) : VmInstruction → Option (VmValue × WriteWorld)
  | .getName _ bindingIndex =>
      match w.bindingDataValue code bindingIndex none with
      | some v => some (v, w)
      | none => slow.getName bindingIndex w
  | .getNameGlobal _ bindingIndex icIndex =>
      match w.bindingDataValue code bindingIndex (some icIndex) with
      | some v => some (v, w)
      | none => slow.getNameGlobal bindingIndex icIndex w
  | _ => none

/-- `SetPropertyByName`: writing a property. -/
def writeProperty (w : WriteWorld) (icIndex : ℕ) (target value : VmValue) :
    Option WriteWorld :=
  match target with
  | .object obj =>
      match w.cachedCell icIndex obj with
      | some cell => (w.heap.writeCell cell value).map fun heap => { w with heap }
      | none => slow.setProperty icIndex target value w
  | _ => slow.setProperty icIndex target value w

/-- The operation of an instruction. -/
def VmInstruction.exec (i : VmInstruction) (s : WriteState) : Option (Control × WriteState) :=
  match i with
  | .incrementLoopIteration =>
      (s.consumeLoopIterations 1).map fun frame => (.next, { s with toLoopFrame := frame })
  | .jump address => some (.goto address, s)
  | .inc dst src => do
      let n ← asNumber (s.registers src)
      return (.next, (s.set src (ofNumber n)).set dst (ofNumber n.inc))
  | .jumpIfNotLessThan address lhs rhs => do
      let x ← asNumber (s.registers lhs)
      let y ← asNumber (s.registers rhs)
      return (if x.lessThan y then .next else .goto address, s)
  | .getName dst _ | .getNameGlobal dst _ _ => do
      let (v, world) ← readBinding code slow s.world i
      return (.next, { s with world }.set dst v)
  | .move dst src => some (.next, s.set dst (s.registers src))
  | .storeInt dst value => some (.next, s.set dst (ofI32 value))
  | .add dst lhs rhs => do
      let x ← asNumber (s.registers lhs)
      let y ← asNumber (s.registers rhs)
      return (.next, s.set dst (ofNumber (x.add y)))
  | .setPropertyByName value object icIndex => do
      let world ← writeProperty slow s.world icIndex (s.registers object) (s.registers value)
      return (.next, { s with world })
  | .other _ => none

/-- The instruction at an address. -/
def LoopCode.fetch (pc : ℕ) : Option DecodedInstruction :=
  code.instructions.find? fun d => d.pc = pc

/-- One step: the address and the state. -/
def LoopCode.step (c : ℕ × WriteState) : Option (ℕ × WriteState) := do
  let d ← code.fetch c.1
  let (control, s) ← d.instruction.exec code slow c.2
  match control with
  | .next => return (d.nextPc, s)
  | .goto address => return (address, s)

/-- Several steps. -/
def LoopCode.stepN : ℕ → ℕ × WriteState → Option (ℕ × WriteState)
  | 0, c => some c
  | n + 1, c => (code.step slow c).bind (LoopCode.stepN n)

end Machine

/-! ### Steps in sequence -/

section Steps

variable {code : LoopCode} {slow : SlowPaths}

/-- Taking steps twice is taking the sum of them. -/
theorem LoopCode.stepN_add (m n : ℕ) (c : ℕ × WriteState) :
    code.stepN slow (m + n) c = (code.stepN slow m c).bind (code.stepN slow n) := by
  induction m generalizing c with
  | zero => simp [stepN]
  | succ m ih =>
      rw [Nat.succ_add, stepN, stepN, Option.bind_assoc]
      congr 1
      funext c'
      exact ih c'

/-- Taking one step is a step. -/
theorem LoopCode.stepN_one (c : ℕ × WriteState) : code.stepN slow 1 c = code.step slow c := by
  simp [stepN]

/-- Addresses are unique. -/
theorem LoopCode.fetch_eq {d : DecodedInstruction} (h : d ∈ code.instructions) :
    code.fetch d.pc = some d := by
  have hunique : ∀ (l : List DecodedInstruction), (l.Pairwise fun d d' => d.pc < d'.pc) →
      d ∈ l → l.find? (fun d' => d'.pc = d.pc) = some d := by
    intro l hl hmem
    induction l with
    | nil => cases hmem
    | cons d' l ih =>
        obtain ⟨hlt, hl⟩ := List.pairwise_cons.mp hl
        rcases List.mem_cons.mp hmem with rfl | hmem
        · simp
        · have hne : d'.pc ≠ d.pc := (hlt d hmem).ne
          simp [hne, ih hl hmem]
  exact hunique _ code.pcs_increasing h

/-- A step at an instruction of the code. -/
theorem LoopCode.step_eq {d : DecodedInstruction} (h : d ∈ code.instructions) (s : WriteState) :
    code.step slow (d.pc, s) = (d.instruction.exec code slow s).map fun r =>
      (match r.1 with | .next => d.nextPc | .goto address => address, r.2) := by
  rw [step, fetch_eq h]
  simp only [Option.bind_eq_bind, Option.bind_some]
  cases d.instruction.exec code slow s with
  | none => rfl
  | some r =>
      obtain ⟨control, s'⟩ := r
      cases control <;> rfl

/-- The operations of instructions one after the other. -/
def execAll (code : LoopCode) (slow : SlowPaths) :
    List VmInstruction → WriteState → Option WriteState
  | [], s => some s
  | i :: is, s => (i.exec code slow s).bind fun r => execAll code slow is r.2

/-- Two pieces of straight code are executed one after the other. -/
theorem execAll_append (is js : List VmInstruction) (s : WriteState) :
    execAll code slow (is ++ js) s =
      (execAll code slow is s).bind (execAll code slow js) := by
  induction is generalizing s with
  | nil => rfl
  | cons i is ih =>
      rw [List.cons_append, execAll, execAll, Option.bind_assoc]
      congr 1
      funext r
      exact ih r.2

/-- Whether an instruction always goes on behind itself. -/
def VmInstruction.IsStraight : VmInstruction → Prop
  | jump _ | jumpIfNotLessThan _ _ _ => False
  | _ => True

/-- Straight code never jumps: control goes on to the next instruction. -/
theorem VmInstruction.IsStraight.control_eq {i : VmInstruction} (h : i.IsStraight)
    {s : WriteState} {r : Control × WriteState} (heq : i.exec code slow s = some r) :
    r.1 = .next := by
  cases i with
  | jump address => cases h
  | jumpIfNotLessThan address lhs rhs => cases h
  | incrementLoopIteration =>
      obtain ⟨frame, -, rfl⟩ := Option.map_eq_some_iff.mp heq
      rfl
  | inc dst src =>
      obtain ⟨n, -, h⟩ := Option.bind_eq_some_iff.mp heq
      rw [← Option.some.inj h]
  | getName dst b =>
      obtain ⟨v, -, h⟩ := Option.bind_eq_some_iff.mp heq
      rw [← Option.some.inj h]
  | getNameGlobal dst b ic =>
      obtain ⟨v, -, h⟩ := Option.bind_eq_some_iff.mp heq
      rw [← Option.some.inj h]
  | move dst src => rw [← Option.some.inj heq]
  | storeInt dst value => rw [← Option.some.inj heq]
  | add dst lhs rhs =>
      obtain ⟨x, -, h⟩ := Option.bind_eq_some_iff.mp heq
      obtain ⟨y, -, h⟩ := Option.bind_eq_some_iff.mp h
      rw [← Option.some.inj h]
  | setPropertyByName value object ic =>
      obtain ⟨w, -, h⟩ := Option.bind_eq_some_iff.mp heq
      rw [← Option.some.inj h]
  | other targets => cases heq

/-- The address of the first instruction of a block in front of another one. -/
def entryOf (block : List DecodedInstruction) (stop : DecodedInstruction) : ℕ :=
  (block.head?.getD stop).pc

/-- **Straight code**: instructions that stand one behind the other in front of an instruction
`stop` are executed in sequence. -/
theorem LoopCode.stepN_block {block : List DecodedInstruction} {stop : DecodedInstruction}
    (hmem : ∀ d ∈ block, d ∈ code.instructions)
    (hchain : (block ++ [stop]).IsChain fun d d' => d.nextPc = d'.pc)
    (hstraight : ∀ d ∈ block, d.instruction.IsStraight) (s : WriteState) :
    code.stepN slow block.length (entryOf block stop, s) =
      (execAll code slow (block.map DecodedInstruction.instruction) s).map (stop.pc, ·) := by
  induction block generalizing s with
  | nil => rfl
  | cons d block ih =>
      have hd := hmem d List.mem_cons_self
      have hentry : d.nextPc = entryOf block stop := by
        cases block with
        | nil => exact (List.isChain_cons_cons.mp hchain).1
        | cons d' block => exact (List.isChain_cons_cons.mp hchain).1
      rw [List.length_cons, stepN, entryOf, List.head?_cons, Option.getD_some, step_eq hd,
        List.map_cons, execAll]
      cases hexec : d.instruction.exec code slow s with
      | none => rfl
      | some r =>
          have hcontrol := (hstraight d List.mem_cons_self).control_eq hexec
          simp only [Option.map_some, Option.bind_some, hcontrol, hentry]
          exact ih (fun d' h => hmem d' (List.mem_cons_of_mem _ h)) hchain.of_cons
            (fun d' h => hstraight d' (List.mem_cons_of_mem _ h)) r.2

/-! ### What holds along a run -/

/-- Instructions one after the other, with a property of the world before each and at the
end. -/
inductive Passes (code : LoopCode) (slow : SlowPaths) (P : WriteWorld → Prop) :
    List VmInstruction → WriteState → WriteState → Prop
  | nil {s : WriteState} (h : P s.world) : Passes code slow P [] s s
  | cons {i : VmInstruction} {is : List VmInstruction} {s s' : WriteState}
      {r : Control × WriteState} (h : P s.world) (heq : i.exec code slow s = some r)
      (rest : Passes code slow P is r.2 s') : Passes code slow P (i :: is) s s'

section Passes

variable {P : WriteWorld → Prop} {is js : List VmInstruction} {s s' s'' : WriteState}

/-- Two pieces of code that pass through good states do so together. -/
theorem Passes.append (h : Passes code slow P is s s') (h' : Passes code slow P js s' s'') :
    Passes code slow P (is ++ js) s s'' := by
  induction h with
  | nil _ => exact h'
  | cons hP heq _ ih => exact .cons hP heq (ih h')

/-- The last state that is passed is a good one. -/
theorem Passes.last (h : Passes code slow P is s s') : P s'.world := by
  induction h with
  | nil hP => exact hP
  | cons _ _ _ ih => exact ih

/-- Instructions that leave the world alone keep its property. -/
theorem Passes.of_quiet (hP : P s.world) (heq : execAll code slow is s = some s')
    (hquiet : ∀ i ∈ is, ∀ t r, t.world = s.world → i.exec code slow t = some r →
      r.2.world = s.world) : Passes code slow P is s s' ∧ s'.world = s.world := by
  suffices h : ∀ t, t.world = s.world → execAll code slow is t = some s' →
      Passes code slow P is t s' ∧ s'.world = s.world from h s rfl heq
  clear heq
  induction is with
  | nil =>
      rintro t ht heq
      obtain rfl := Option.some.inj heq
      exact ⟨.nil (ht ▸ hP), ht⟩
  | cons i is ih =>
      intro t ht heq
      obtain ⟨r, hr, hrest⟩ := Option.bind_eq_some_iff.mp heq
      obtain ⟨hpasses, hworld⟩ := ih (fun j hj => hquiet j (List.mem_cons_of_mem _ hj)) r.2
        (hquiet i List.mem_cons_self t r ht hr) hrest
      exact ⟨.cons (ht ▸ hP) hr hpasses, hworld⟩

end Passes

/-- Steps of the machine, with a property of the world before each and at the end. -/
def LoopCode.Through (code : LoopCode) (slow : SlowPaths) (P : WriteWorld → Prop) :
    ℕ → ℕ × WriteState → ℕ × WriteState → Prop
  | 0, c, c' => P c.2.world ∧ c = c'
  | n + 1, c, c' => P c.2.world ∧ ∃ c₁, code.step slow c = some c₁ ∧
      LoopCode.Through code slow P n c₁ c'

namespace LoopCode.Through

variable {P : WriteWorld → Prop} {m n : ℕ} {c c' c'' : ℕ × WriteState}

/-- Two stretches of a run through good states are one. -/
theorem trans (h : code.Through slow P m c c') (h' : code.Through slow P n c' c'') :
    code.Through slow P (m + n) c c'' := by
  induction m generalizing c with
  | zero =>
      obtain ⟨-, rfl⟩ := h
      simpa using h'
  | succ m ih =>
      obtain ⟨hP, c₁, hstep, hrest⟩ := h
      rw [Nat.succ_add]
      exact ⟨hP, c₁, hstep, ih hrest⟩

/-- A step from a good state to a good state is a stretch of one step. -/
theorem single (hP : P c.2.world) (hstep : code.step slow c = some c') (hP' : P c'.2.world) :
    code.Through slow P 1 c c' :=
  ⟨hP, c', hstep, hP', rfl⟩

/-- A stretch through good states ends in one. -/
theorem last (h : code.Through slow P n c c') : P c'.2.world := by
  induction n generalizing c with
  | zero => exact h.2 ▸ h.1
  | succ n ih =>
      obtain ⟨-, c₁, -, hrest⟩ := h
      exact ih hrest

/-- The steps are the machine's. -/
theorem stepN (h : code.Through slow P n c c') : code.stepN slow n c = some c' := by
  induction n generalizing c with
  | zero => exact congrArg some h.2
  | succ n ih =>
      obtain ⟨-, c₁, hstep, hrest⟩ := h
      rw [LoopCode.stepN, hstep, Option.bind_some, ih hrest]

/-- The property holds after any number of the steps. -/
theorem get (h : code.Through slow P n c c') {k : ℕ} (hk : k ≤ n) :
    ∃ c₁, code.stepN slow k c = some c₁ ∧ P c₁.2.world := by
  induction n generalizing c k with
  | zero =>
      obtain rfl := Nat.le_zero.mp hk
      exact ⟨c, rfl, h.1⟩
  | succ n ih =>
      obtain ⟨hP, c₁, hstep, hrest⟩ := h
      cases k with
      | zero => exact ⟨c, rfl, hP⟩
      | succ k =>
          obtain ⟨c₂, hc₂, hP₂⟩ := ih hrest (Nat.le_of_succ_le_succ hk)
          exact ⟨c₂, by rw [LoopCode.stepN, hstep, Option.bind_some, hc₂], hP₂⟩

end LoopCode.Through

/-- Straight code is passed through. -/
theorem LoopCode.through_block {P : WriteWorld → Prop} {block : List DecodedInstruction}
    {stop : DecodedInstruction} (hmem : ∀ d ∈ block, d ∈ code.instructions)
    (hchain : (block ++ [stop]).IsChain fun d d' => d.nextPc = d'.pc)
    (hstraight : ∀ d ∈ block, d.instruction.IsStraight) {s s' : WriteState}
    (h : Passes code slow P (block.map DecodedInstruction.instruction) s s') :
    code.Through slow P block.length (entryOf block stop, s) (stop.pc, s') := by
  induction block generalizing s with
  | nil =>
      cases h with
      | nil hP => exact ⟨hP, rfl⟩
  | cons d block ih =>
      cases h with
      | cons hP heq rest =>
          rename_i r
          have hentry : d.nextPc = entryOf block stop := by
            cases block with
            | nil => exact (List.isChain_cons_cons.mp hchain).1
            | cons d' block => exact (List.isChain_cons_cons.mp hchain).1
          have hcontrol := (hstraight d List.mem_cons_self).control_eq heq
          refine ⟨hP, (d.nextPc, r.2), ?_, ?_⟩
          · rw [entryOf, List.head?_cons, Option.getD_some, step_eq (hmem d List.mem_cons_self),
              heq, Option.map_some, hcontrol]
          · rw [hentry]
            exact ih (fun d' h => hmem d' (List.mem_cons_of_mem _ h)) hchain.of_cons
              (fun d' h => hstraight d' (List.mem_cons_of_mem _ h)) rest

end Steps

end BoaLigero
