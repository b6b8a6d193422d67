import BoaLigero.Vm.PureReader.WriteMachine

/-!
# The Shape of Parsed Write Loops

What the parser of property-write loops establishes: the instructions it walked over are the
maintenance of the loop, the instructions of its writes, and the jump back, one behind the
other; the registers of the writes are neither the index nor the limit.

## Main results

* `parseWrites_sound` — the instructions of the body are those of the writes.
* `parseWriteLoop_sound` — a parsed loop has the shape of one.
-/

namespace BoaLigero

/-! ### The instructions of a write -/

/-- The load of the object binding. -/
def BindingRead.instruction (read : BindingRead) : VmInstruction :=
  match read.icIndex with
  | none => .getName read.register read.bindingIndex
  | some icIndex => .getNameGlobal read.register read.bindingIndex icIndex

namespace LoopWrite

/-- The instructions that compute the value. -/
def valueInstructions (index : ℕ) (w : LoopWrite) : List VmInstruction :=
  match w.constant with
  | none => [.move w.valueRegister index]
  | some c =>
      [.storeInt c.register c.value,
        if c.indexFirst then .add w.valueRegister index c.register
        else .add w.valueRegister c.register index]

/-- The instructions of a write. -/
def instructions (index : ℕ) (w : LoopWrite) : List VmInstruction :=
  w.read.instruction ::
    (w.valueInstructions index ++ [.setPropertyByName w.valueRegister w.read.register w.icIndex])

end LoopWrite

section Parser

variable {code : LoopCode} {index loopPc : ℕ}

/-- Only a load parses as one. -/
theorem LoopCode.bindingRead_eq_some {i : VmInstruction} {read : BindingRead}
    (h : code.bindingRead i = some read) : i = read.instruction := by
  unfold bindingRead at h
  split at h
  · split at h
    · obtain rfl := Option.some.inj h
      rfl
    · cases h
  · split at h
    · obtain rfl := Option.some.inj h
      rfl
    · cases h
  · cases h

/-- The instructions of a parsed value. -/
theorem parseValue_sound {ds rest : List DecodedInstruction} {constant : Option AddedConstant}
    {valueRegister : ℕ} (h : parseValue index ds = some ((constant, valueRegister), rest))
    (w : LoopWrite) (hconstant : w.constant = constant)
    (hvalue : w.valueRegister = valueRegister) :
    ∃ seg, ds = seg ++ rest ∧
      seg.map DecodedInstruction.instruction = w.valueInstructions index := by
  unfold parseValue at h
  split at h
  · next d rest' =>
      split at h
      · next dst src hinstr =>
          split at h
          · next hsrc =>
              cases h
              exact ⟨[d], rfl, by
                simp [LoopWrite.valueInstructions, hconstant, hvalue, hinstr, hsrc]⟩
          · cases h
      · next register value hinstr =>
          split at h
          · next d' rest'' =>
              split at h
              · next dst lhs rhs hinstr' =>
                  split at h
                  · next hoperands =>
                      cases h
                      exact ⟨[d, d'], rfl, by
                        simp [LoopWrite.valueInstructions, hconstant, hvalue, hinstr, hinstr',
                          hoperands.1, hoperands.2]⟩
                  · split at h
                    · next hoperands =>
                        cases h
                        exact ⟨[d, d'], rfl, by
                          simp [LoopWrite.valueInstructions, hconstant, hvalue, hinstr, hinstr',
                            hoperands.1, hoperands.2]⟩
                    · cases h
              · cases h
          · cases h
      · cases h
  · cases h

/-- The instruction of a parsed write. -/
theorem parseSet_sound {ds rest : List DecodedInstruction} {object value icIndex : ℕ}
    (h : parseSet object value ds = some (icIndex, rest)) :
    ∃ d, ds = d :: rest ∧ d.instruction = .setPropertyByName value object icIndex := by
  unfold parseSet at h
  split at h
  · next d rest' =>
      split at h
      · next value' object' ic hinstr =>
          split at h
          · next heq =>
              cases h
              exact ⟨d, rfl, by rw [hinstr, heq.1, heq.2]⟩
          · cases h
      · cases h
  · cases h

/-- What one turn of the parser's loop does: it stops at the jump back, or parses a write. -/
theorem parseWrites_cases {budget : ℕ} {expected : Option BindingRead}
    {ds rest : List DecodedInstruction} {writes : List LoopWrite}
    (h : parseWrites code loopPc index budget expected ds = some (writes, rest)) :
    (∃ d tail, ds = d :: tail ∧ d.instruction = .jump loopPc ∧ expected.isSome ∧ writes = [] ∧
      rest = ds) ∨
    ∃ d w tail writes' budget', budget = budget' + 1 ∧ writes = w :: writes' ∧
      (∃ seg, ds = d :: (seg ++ tail) ∧ d.instruction = w.read.instruction ∧
        seg.map DecodedInstruction.instruction = w.valueInstructions index ++
          [.setPropertyByName w.valueRegister w.read.register w.icIndex]) ∧
      (∀ read ∈ expected, w.read = read) ∧
      code.bindingRead w.read.instruction = some w.read ∧
      parseWrites code loopPc index budget' (some w.read) tail = some (writes', rest) := by
  unfold parseWrites at h
  split at h
  · next d tail =>
      split at h
      · next address hinstr =>
          split at h
          · cases h
          · next hcond =>
              cases h
              rw [not_or, not_not] at hcond
              exact .inl ⟨d, tail, rfl, hcond.1 ▸ hinstr,
                by simpa [Option.isSome_iff_ne_none] using hcond.2, rfl, rfl⟩
      · cases budget with
        | zero => cases h
        | succ budget' =>
            obtain ⟨read, hread, h⟩ := Option.bind_eq_some_iff.mp h
            split at h
            · cases h
            · next hexpected =>
                obtain ⟨⟨⟨constant, valueRegister⟩, tail₁⟩, hvalue, h⟩ :=
                  Option.bind_eq_some_iff.mp h
                obtain ⟨⟨icIndex, tail₂⟩, hset, h⟩ := Option.bind_eq_some_iff.mp h
                obtain ⟨⟨writes', rest'⟩, hrest, h⟩ := Option.bind_eq_some_iff.mp h
                cases h
                obtain ⟨seg, rfl, hseg⟩ := parseValue_sound hvalue
                  { read, constant, valueRegister, icIndex } rfl rfl
                obtain ⟨d', rfl, hd'⟩ := parseSet_sound hset
                have hinstr := LoopCode.bindingRead_eq_some hread
                refine .inr ⟨d, _, tail₂, writes', budget', rfl, rfl,
                  ⟨seg ++ [d'], by simp, hinstr, by simp [hseg, hd']⟩, ?_, hinstr ▸ hread, hrest⟩
                rintro e rfl
                have heq : e = read := by simpa using hexpected
                exact heq.symm
  · cases h

/-- **The body of a parsed loop**: the instructions of the writes up to the jump back; all
writes load the same binding. -/
theorem parseWrites_sound {budget : ℕ} {expected : Option BindingRead}
    {ds rest : List DecodedInstruction} {writes : List LoopWrite}
    (h : parseWrites code loopPc index budget expected ds = some (writes, rest)) :
    (∃ seg, ds = seg ++ rest ∧ seg.map DecodedInstruction.instruction =
      writes.flatMap (LoopWrite.instructions index)) ∧
    (∃ stop tail, rest = stop :: tail ∧ stop.instruction = .jump loopPc) ∧
    (expected = none → writes ≠ []) ∧
    ∃ read, (∀ e ∈ expected, e = read) ∧ ∀ w ∈ writes,
      w.read = read ∧ code.bindingRead read.instruction = some read := by
  induction budget generalizing expected ds writes with
  | zero =>
      obtain ⟨d, tail, rfl, hjump, hsome, rfl, rfl⟩ | ⟨_, _, _, _, _, hbudget, _⟩ :=
        parseWrites_cases h
      · obtain ⟨read, rfl⟩ := Option.isSome_iff_exists.mp hsome
        exact ⟨⟨[], rfl, rfl⟩, ⟨d, tail, rfl, hjump⟩, nofun, read, by simp, nofun⟩
      · cases hbudget
  | succ budget ih =>
      obtain ⟨d, tail, rfl, hjump, hsome, rfl, rfl⟩ |
        ⟨d, w, tail, writes', budget', hbudget, rfl, ⟨seg, rfl, hd, hseg⟩, hexpected, hread,
          hrest⟩ := parseWrites_cases h
      · obtain ⟨read, rfl⟩ := Option.isSome_iff_exists.mp hsome
        exact ⟨⟨[], rfl, rfl⟩, ⟨d, tail, rfl, hjump⟩, nofun, read, by simp, nofun⟩
      · obtain rfl := Nat.succ.inj hbudget
        obtain ⟨⟨seg', rfl, hseg'⟩, hstop, -, read, hsame, hwrites⟩ := ih hrest
        obtain rfl := hsame w.read rfl
        refine ⟨⟨d :: (seg ++ seg'), by simp, ?_⟩, hstop, nofun, w.read,
          fun e he => (hexpected e he).symm, ?_⟩
        · simp [hd, hseg, hseg', LoopWrite.instructions]
        · rintro w' hw'
          rcases List.mem_cons.mp hw' with rfl | hw'
          · exact ⟨rfl, hread⟩
          · exact hwrites w' hw'

/-! ### The loop -/

/-- The shape of a loop of property writes: the maintenance, the body and the jump back stand
one behind the other in the code; every write loads the plan's binding; and the registers of
the writes are neither the index nor the limit. -/
structure ParsedWriteLoop.Shape (loop : ParsedWriteLoop) (code : LoopCode) where
  loopIteration : DecodedInstruction
  increment : DecodedInstruction
  comparison : DecodedInstruction
  body : List DecodedInstruction
  backEdge : DecodedInstruction
  read : BindingRead
  mem : ∀ d ∈ loopIteration :: increment :: comparison :: (body ++ [backEdge]),
    d ∈ code.instructions
  contiguous : (loopIteration :: increment :: comparison :: (body ++ [backEdge])).IsChain
    fun d d' => d.nextPc = d'.pc
  loopIteration_instruction : loopIteration.instruction = .incrementLoopIteration
  increment_instruction : increment.instruction = .inc loop.plan.index loop.plan.index
  comparison_instruction : comparison.instruction =
    .jumpIfNotLessThan loop.exitPc loop.plan.index loop.plan.limit
  body_instructions : body.map DecodedInstruction.instruction =
    loop.writes.flatMap (LoopWrite.instructions loop.plan.index)
  backEdge_instruction : backEdge.instruction = .jump loopIteration.pc
  loopIteration_pc : loopIteration.pc = loop.plan.loopIterationPc
  body_pc : entryOf body backEdge = loop.plan.bodyStartPc
  writes_ne_nil : loop.writes ≠ []
  read_eq : ∀ w ∈ loop.writes, w.read = read
  bindingRead : code.bindingRead read.instruction = some read
  binding_eq : loop.plan.objectBindingIndex = read.bindingIndex
  ic_eq : loop.plan.objectIcIndex = read.icIndex
  propertyIcIndices : loop.plan.propertyIcIndices = loop.writes.map LoopWrite.icIndex
  index_ne_limit : loop.plan.index ≠ loop.plan.limit
  temporaries : ∀ w ∈ loop.writes, ∀ r ∈ w.temporaries, r ≠ loop.plan.index ∧ r ≠ loop.plan.limit

/-- An increment is read only if its source is its destination, as a counter's is. -/
theorem asIncInPlace_eq_some {i : VmInstruction} {r : ℕ} (h : i.asIncInPlace = some r) :
    i = .inc r r := by
  cases i with
  | inc dst src =>
      by_cases heq : dst = src
      · simp only [VmInstruction.asIncInPlace, heq, if_true, Option.some.injEq] at h
        rw [heq, h]
      · simp [VmInstruction.asIncInPlace, heq] at h
  | _ => cases h

/-- The guard of the loop is read only from a `JumpIfNotLessThan`, with its address and both
operands. -/
theorem asJumpIfNotLessThan_eq_some {i : VmInstruction} {r : ℕ × ℕ × ℕ}
    (h : i.asJumpIfNotLessThan = some r) : i = .jumpIfNotLessThan r.1 r.2.1 r.2.2 := by
  cases i <;> cases h
  rfl

/-- A conversion to `u32` that succeeds leaves the number as it was. -/
theorem tryU32_eq_some {m n : ℕ} (h : tryU32 m = some n) : m = n := by
  unfold tryU32 at h
  split at h
  · exact Option.some.inj h
  · cases h

/-- A check of the parser that was passed holds, so that what it checked can be used afterwards. -/
theorem of_guard {p : Prop} [Decidable p] {u : Unit} (h : (guard p : Option Unit) = some u) :
    p := by
  by_contra hp
  simp [guard, hp] at h

/-- What the last checks of the parser say. -/
theorem LoopCode.acceptsLoop_eq_true {loopIterationIndex backEdgeIndex : ℕ}
    {loopIteration bodyStart : DecodedInstruction} {exitPc limit : ℕ} {writes : List LoopWrite}
    (h : code.acceptsLoop loopIterationIndex backEdgeIndex loopIteration bodyStart exitPc index
      limit writes = true) :
    (((code.instructions.drop loopIterationIndex).take
      (backEdgeIndex + 1 - loopIterationIndex)).IsChain fun d d' => d.nextPc = d'.pc) ∧
    index ≠ limit ∧ ∀ w ∈ writes, ∀ r ∈ w.temporaries, r ≠ index ∧ r ≠ limit := by
  simp only [acceptsLoop, Bool.and_eq_true, decide_eq_true_eq, List.all_eq_true,
    List.mem_flatMap] at h
  obtain ⟨⟨⟨⟨-, hchain⟩, -⟩, hne⟩, htemporaries⟩ := h
  refine ⟨hchain, hne, fun w hw r hr => ?_⟩
  have hall := htemporaries r ⟨w, hw, hr⟩
  exact ⟨hall.1.1, hall.1.2⟩

/-- The instruction at a position is the first of those from there on, the others come after it. -/
theorem drop_eq_cons {α : Type*} {l : List α} {i : ℕ} {a : α} (h : l[i]? = some a) :
    l.drop i = a :: l.drop (i + 1) := by
  obtain ⟨hlt, rfl⟩ := List.getElem?_eq_some_iff.mp h
  exact List.drop_eq_getElem_cons hlt

/-- **A parsed loop has the shape of one.** -/
theorem parseWriteLoop_sound {loopIterationIndex : ℕ} {loop : ParsedWriteLoop}
    (h : parseWriteLoop code loopIterationIndex = some loop) : Nonempty (loop.Shape code) := by
  unfold parseWriteLoop at h
  obtain ⟨preheaderIndex, -, h⟩ := Option.bind_eq_some_iff.mp h
  obtain ⟨loopIteration, hloop, h⟩ := Option.bind_eq_some_iff.mp h
  obtain ⟨_, hincr, h⟩ := Option.bind_eq_some_iff.mp h
  obtain ⟨preheader, -, h⟩ := Option.bind_eq_some_iff.mp h
  obtain ⟨target, -, h⟩ := Option.bind_eq_some_iff.mp h
  obtain ⟨_, -, h⟩ := Option.bind_eq_some_iff.mp h
  obtain ⟨increment, hincrement, h⟩ := Option.bind_eq_some_iff.mp h
  obtain ⟨index, hindex, h⟩ := Option.bind_eq_some_iff.mp h
  obtain ⟨comparison, hcomparison, h⟩ := Option.bind_eq_some_iff.mp h
  obtain ⟨⟨exitPc, lhs, limit⟩, hcmp, h⟩ := Option.bind_eq_some_iff.mp h
  obtain ⟨_, hlhs, h⟩ := Option.bind_eq_some_iff.mp h
  obtain ⟨bodyStart, hbody, h⟩ := Option.bind_eq_some_iff.mp h
  obtain ⟨⟨writes, rest⟩, hwrites, h⟩ := Option.bind_eq_some_iff.mp h
  obtain ⟨_, haccepts, h⟩ := Option.bind_eq_some_iff.mp h
  obtain ⟨object, hobject, h⟩ := Option.bind_eq_some_iff.mp h
  obtain ⟨loopPc, hloopPc, h⟩ := Option.bind_eq_some_iff.mp h
  obtain ⟨nextPc, -, h⟩ := Option.bind_eq_some_iff.mp h
  obtain ⟨bodyPc, hbodyPc, h⟩ := Option.bind_eq_some_iff.mp h
  obtain rfl := Option.some.inj h
  obtain ⟨⟨body, hdrop, hbodyInstr⟩, ⟨stop, tail, rfl, hstop⟩, hne, read, -, hreads⟩ :=
    parseWrites_sound hwrites
  obtain ⟨hchain, hindexLimit, htemporaries⟩ := LoopCode.acceptsLoop_eq_true (of_guard haccepts)
  have hblock : code.instructions.drop loopIterationIndex =
      (loopIteration :: increment :: comparison :: (body ++ [stop])) ++ tail := by
    rw [drop_eq_cons hloop, drop_eq_cons hincrement, drop_eq_cons hcomparison, hdrop]
    simp
  have hlength := congrArg List.length hblock
  simp only [List.length_drop, List.length_append, List.length_cons, List.length_nil] at hlength
  have htake : code.instructions.length - (stop :: tail).length + 1 - loopIterationIndex =
      (loopIteration :: increment :: comparison :: (body ++ [stop])).length := by
    simp only [List.length_append, List.length_cons, List.length_nil]
    omega
  rw [htake, hblock, List.take_left' rfl] at hchain
  have hentry : entryOf body stop = bodyStart.pc := by
    have hfirst := drop_eq_cons hbody
    rw [hdrop] at hfirst
    cases body with
    | nil => exact congrArg DecodedInstruction.pc (List.cons.inj hfirst).1
    | cons d body => exact congrArg DecodedInstruction.pc (List.cons.inj hfirst).1
  obtain ⟨first, writes', rfl⟩ := List.exists_cons_of_ne_nil (hne rfl)
  obtain rfl : first.read = object := Option.some.inj hobject
  have hread := hreads first List.mem_cons_self
  exact ⟨{
    loopIteration, increment, comparison, body
    backEdge := stop
    read
    mem := fun d hd => List.mem_of_mem_drop (hblock ▸ List.mem_append_left tail hd)
    contiguous := hchain
    loopIteration_instruction := of_guard hincr
    increment_instruction := asIncInPlace_eq_some hindex
    comparison_instruction := by
      rw [asJumpIfNotLessThan_eq_some hcmp, (of_guard hlhs).1]
    body_instructions := hbodyInstr
    backEdge_instruction := hstop
    loopIteration_pc := tryU32_eq_some hloopPc
    body_pc := hentry.trans (tryU32_eq_some hbodyPc)
    writes_ne_nil := List.cons_ne_nil _ _
    read_eq := fun w hw => (hreads w hw).1
    bindingRead := hread.2
    binding_eq := congrArg BindingRead.bindingIndex hread.1
    ic_eq := congrArg BindingRead.icIndex hread.1
    propertyIcIndices := rfl
    index_ne_limit := hindexLimit
    temporaries := htemporaries }⟩

end Parser

end BoaLigero
