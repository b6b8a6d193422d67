import Mathlib.Data.List.Chain
import BoaLigero.Vm.PureReader.WriteLoopBody

/-!
# Iterations of a Loop of Property Writes

The iterations of a loop of property writes, as long as no write goes to the cell that the
object binding is read from: what they leave is what the last one writes.

## Main results

* `ParsedWriteLoop.Shape.through_iteration` — one iteration.
* `ParsedWriteLoop.Shape.through_iterations` — the state after so many iterations.
-/

namespace BoaLigero

/-! ### The maintenance of the loop -/

/-- The maintenance at an index: one iteration is counted, and the index counted up. -/
def WriteState.advance (s : WriteState) (index : ℕ) (next : ℤ) : WriteState :=
  { s with
    loopIterationCount := s.loopIterationCount + 1
    registers := Function.update s.registers index (ofNumber (.ofInt next)) }

theorem advance_index (s : WriteState) (index : ℕ) (next : ℤ) :
    (s.advance index next).registers index = ofNumber (.ofInt next) := by
  simp [WriteState.advance]

/-- The instructions of a write do not jump. -/
theorem LoopWrite.isStraight {w : LoopWrite} {index : ℕ} {i : VmInstruction}
    (h : i ∈ w.instructions index) : i.IsStraight := by
  unfold LoopWrite.instructions LoopWrite.valueInstructions BindingRead.instruction at h
  cases hconstant : w.constant with
  | none =>
      cases hic : w.read.icIndex <;> simp only [hconstant, hic, List.mem_cons, List.mem_append,
        List.not_mem_nil, or_false] at h <;> rcases h with rfl | rfl | rfl <;> trivial
  | some c =>
      obtain ⟨register, value, indexFirst⟩ := c
      cases hic : w.read.icIndex <;> cases indexFirst <;> simp only [hconstant, hic,
        List.mem_cons, List.mem_append, List.not_mem_nil, or_false, if_true, if_false,
        Bool.false_eq_true] at h <;> rcases h with rfl | (rfl | rfl) | rfl <;> trivial

section Maintenance

variable {code : LoopCode} {slow : SlowPaths} {loop : ParsedWriteLoop} {P : WriteWorld → Prop}
  {s s' : WriteState} {a : ℤ} {limit : Int32}

/-- The state of a loop at the start of an iteration. -/
structure AtIndex (loop : ParsedWriteLoop) (s : WriteState) (a : ℤ) (limit : Int32) : Prop where
  unlimited : s.loopIterationLimit = LoopFrame.unlimited
  index : s.registers loop.plan.index = ofNumber (.ofInt a)
  limit : s.registers loop.plan.limit = ofI32 limit
  inI32 : InI32 a

namespace ParsedWriteLoop.Shape

variable (shape : loop.Shape code)

include shape

/-- Counting the iteration and the index. -/
theorem through_counts (hP : P s.world) (hat : AtIndex loop s a limit)
    (hnext : InI32 (a + 1)) :
    code.Through slow P 2 (loop.plan.loopIterationPc, s)
      (shape.comparison.pc, s.advance loop.plan.index (a + 1)) := by
  have hchain : ([shape.loopIteration, shape.increment] ++ [shape.comparison]).IsChain
      fun d d' => d.nextPc = d'.pc := by
    have h : (([shape.loopIteration, shape.increment] ++ [shape.comparison]) ++
      (shape.body ++ [shape.backEdge])).IsChain fun d d' => d.nextPc = d'.pc := shape.contiguous
    exact h.left_of_append
  have hmem : ∀ d ∈ [shape.loopIteration, shape.increment], d ∈ code.instructions := by
    intro d hd
    apply shape.mem
    rcases List.mem_cons.mp hd with rfl | hd
    · simp
    · simp [List.mem_singleton.mp hd]
  have hstraight : ∀ d ∈ [shape.loopIteration, shape.increment],
      d.instruction.IsStraight := by
    intro d hd
    rcases List.mem_cons.mp hd with rfl | hd
    · rw [shape.loopIteration_instruction]
      trivial
    · rw [List.mem_singleton.mp hd, shape.increment_instruction]
      trivial
  have hcount : VmInstruction.incrementLoopIteration.exec code slow s =
      some (.next, { s with loopIterationCount := s.loopIterationCount + 1 }) := by
    rw [VmInstruction.exec, LoopFrame.consumeLoopIterations_eq hat.unlimited]
    rfl
  have hinc : (VmInstruction.inc loop.plan.index loop.plan.index).exec code slow
      { s with loopIterationCount := s.loopIterationCount + 1 } =
      some (.next, s.advance loop.plan.index (a + 1)) := by
    simp only [VmInstruction.exec, hat.index, asNumber_ofNumber, Option.bind_eq_bind,
      Option.bind_some, JsNumber.inc_ofInt hnext hat.inI32, WriteState.set, Function.update_idem]
    rfl
  have hpasses : Passes code slow P
      ([shape.loopIteration, shape.increment].map DecodedInstruction.instruction) s
      (s.advance loop.plan.index (a + 1)) := by
    rw [List.map_cons, List.map_singleton, shape.loopIteration_instruction,
      shape.increment_instruction]
    exact .cons hP hcount (.cons hP hinc (.nil hP))
  have hthrough := code.through_block hmem hchain hstraight hpasses
  rw [← shape.loopIteration_pc]
  exact hthrough

/-- The maintenance does not change the limit. -/
theorem advance_limit (hat : AtIndex loop s a limit) :
    (s.advance loop.plan.index (a + 1)).registers loop.plan.limit = ofI32 limit := by
  simp [WriteState.advance, shape.index_ne_limit.symm, hat.limit]

/-- The index and the limit after the maintenance. -/
theorem atIndex_advance (hat : AtIndex loop s a limit) (hnext : InI32 (a + 1)) :
    AtIndex loop (s.advance loop.plan.index (a + 1)) (a + 1) limit :=
  ⟨hat.unlimited, advance_index _ _ _, shape.advance_limit hat, hnext⟩

/-- The comparison behind the counts. -/
theorem step_comparison (slow : SlowPaths) (hlimit : s.registers loop.plan.limit = ofI32 limit)
    (hindex : s.registers loop.plan.index = ofNumber (.ofInt a)) (ha : InI32 a) :
    code.step slow (shape.comparison.pc, s) =
      some (if a < limit.toInt then loop.plan.bodyStartPc else loop.exitPc, s) := by
  have hmem : shape.comparison ∈ code.instructions := shape.mem _ (by simp)
  have hnext : shape.comparison.nextPc = loop.plan.bodyStartPc := by
    have h : ([shape.loopIteration, shape.increment] ++
      (shape.comparison :: (shape.body ++ [shape.backEdge]))).IsChain
        fun d d' => d.nextPc = d'.pc := shape.contiguous
    rw [← shape.body_pc]
    have hchain := h.right_of_append
    cases hbody : shape.body with
    | nil =>
        rw [hbody] at hchain
        exact (List.isChain_cons_cons.mp hchain).1
    | cons d body =>
        rw [hbody] at hchain
        exact (List.isChain_cons_cons.mp hchain).1
  have hvalue : (JsNumber.ofInt a).lessThan (.integer32 limit) = decide (a < limit.toInt) := by
    rw [JsNumber.lessThan, JsNumber.value_ofInt ha]
    rfl
  rw [LoopCode.step_eq hmem, shape.comparison_instruction, VmInstruction.exec, hlimit, hindex]
  simp only [ofI32, asNumber, ofNumber, Option.bind_eq_bind, Option.bind_some, hvalue,
    decide_eq_true_eq]
  by_cases h : a < limit.toInt <;> simp [h, hnext]

variable (slow) in
/-- The maintenance in front of another iteration. -/
theorem through_enter (hP : P s.world) (hat : AtIndex loop s a limit)
    (hless : a + 1 < limit.toInt) :
    code.Through slow P 3 (loop.plan.loopIterationPc, s)
      (loop.plan.bodyStartPc, s.advance loop.plan.index (a + 1)) := by
  have hnext : InI32 (a + 1) := ⟨by have := hat.inI32.1; omega, Int.lt_trans hless limit.toInt_lt⟩
  have hstep := shape.step_comparison slow (shape.advance_limit hat) (advance_index _ _ _) hnext
  rw [if_pos hless] at hstep
  exact (shape.through_counts hP hat hnext).trans (.single hP hstep hP)

variable (slow) in
/-- The maintenance in front of the exit. -/
theorem through_exit (hP : P s.world) (hat : AtIndex loop s a limit)
    (hlimit : a + 1 = limit.toInt) :
    code.Through slow P 3 (loop.plan.loopIterationPc, s)
      (loop.exitPc, s.advance loop.plan.index (a + 1)) := by
  have hnext : InI32 (a + 1) := hlimit ▸ ⟨limit.le_toInt, limit.toInt_lt⟩
  have hstep := shape.step_comparison slow (shape.advance_limit hat) (advance_index _ _ _) hnext
  rw [if_neg (by omega)] at hstep
  exact (shape.through_counts hP hat hnext).trans (.single hP hstep hP)

/-- What the body's instructions have in common. -/
theorem body_facts : (∀ d ∈ shape.body, d ∈ code.instructions) ∧
    ((shape.body ++ [shape.backEdge]).IsChain fun d d' => d.nextPc = d'.pc) ∧
    ∀ d ∈ shape.body, d.instruction.IsStraight := by
  refine ⟨fun d hd => shape.mem d (by simp [hd]), ?_, fun d hd => ?_⟩
  · have h : ([shape.loopIteration, shape.increment, shape.comparison] ++
      (shape.body ++ [shape.backEdge])).IsChain fun d d' => d.nextPc = d'.pc := shape.contiguous
    exact h.right_of_append
  · have hinstr := List.mem_map_of_mem (f := DecodedInstruction.instruction) hd
    rw [shape.body_instructions] at hinstr
    obtain ⟨w, -, hw⟩ := List.mem_flatMap.mp hinstr
    exact w.isStraight hw

/-- The jump back. -/
theorem step_backEdge (s : WriteState) :
    code.step slow (shape.backEdge.pc, s) = some (loop.plan.loopIterationPc, s) := by
  rw [LoopCode.step_eq (shape.mem _ (by simp)), shape.backEdge_instruction,
    ← shape.loopIteration_pc]
  rfl

/-- The body and the jump back. -/
theorem through_body
    (h : Passes code slow P (loop.writes.flatMap (LoopWrite.instructions loop.plan.index)) s s') :
    code.Through slow P (shape.body.length + 1) (loop.plan.bodyStartPc, s)
      (loop.plan.loopIterationPc, s') := by
  obtain ⟨hmem, hchain, hstraight⟩ := shape.body_facts
  have hlast := h.last
  rw [← shape.body_instructions] at h
  rw [← shape.body_pc]
  exact (code.through_block hmem hchain hstraight h).trans
    (.single hlast (shape.step_backEdge s') hlast)

/-- The body and the jump back, whatever the writes do. -/
theorem stepN_body (s : WriteState) :
    code.stepN slow (shape.body.length + 1) (loop.plan.bodyStartPc, s) =
      (execAll code slow (loop.writes.flatMap (LoopWrite.instructions loop.plan.index)) s).map
        (loop.plan.loopIterationPc, ·) := by
  obtain ⟨hmem, hchain, hstraight⟩ := shape.body_facts
  rw [LoopCode.stepN_add, ← shape.body_pc, LoopCode.stepN_block hmem hchain hstraight,
    shape.body_instructions]
  cases execAll code slow (loop.writes.flatMap (LoopWrite.instructions loop.plan.index)) s with
  | none => rfl
  | some s' => exact (LoopCode.stepN_one _).trans (shape.step_backEdge s')

end ParsedWriteLoop.Shape

end Maintenance

/-! ### Iterations -/

section Iterations

variable {code : LoopCode} {slow : SlowPaths} {loop : ParsedWriteLoop} {read : BindingRead}
  {w : WriteWorld} {obj : ℕ} {x : JsObject VmPrimitive} {s : WriteState} {limit : Int32} {a : ℤ}

/-- The registers an iteration assigns. -/
def ParsedWriteLoop.assignments (loop : ParsedWriteLoop) (obj : ℕ) (a : ℤ) :
    List (ℕ × VmValue) :=
  loop.writes.flatMap (LoopWrite.assignments (.object obj) (.ofInt a))

/-- Which registers are assigned does not depend on the index. -/
theorem ParsedWriteLoop.keys_assignments (loop : ParsedWriteLoop) (obj : ℕ) (a b : ℤ) :
    (loop.assignments obj a).map Prod.fst = (loop.assignments obj b).map Prod.fst := by
  simp only [assignments, List.map_flatMap, LoopWrite.assignments, LoopWrite.valueAssignments,
    List.map_cons, List.map_append, List.map_nil]

/-- Which cells are assigned does not depend on the index. -/
theorem WriteWorld.keys_cells (w : WriteWorld) (obj : ℕ) (i j : JsNumber)
    (writes : List LoopWrite) :
    (w.cells obj i writes).map Prod.fst = (w.cells obj j writes).map Prod.fst := by
  simp only [cells, List.map_map]
  rfl

/-- The state after an iteration at an index. -/
def WriteState.iterate (s : WriteState) (loop : ParsedWriteLoop) (w : WriteWorld) (obj : ℕ)
    (storage : List VmValue) (a : ℤ) : WriteState :=
  { s with
    registers := assign (loop.assignments obj a)
      (Function.update s.registers loop.plan.index (ofNumber (.ofInt a)))
    world := w.withStorage obj (setAll (w.cells obj (.ofInt a) loop.writes) storage) }

/-- What the parser and the guards establish together. -/
structure LoopSetup (code : LoopCode) (loop : ParsedWriteLoop) (read : BindingRead)
    (w : WriteWorld) (obj : ℕ) (x : JsObject VmPrimitive) : Prop where
  setup : WriteSetup code read loop.writes w obj x
  fit : WritesFit read loop.plan.index loop.writes
  limit : ∀ wr ∈ loop.writes, ∀ r ∈ wr.temporaries, r ≠ loop.plan.limit

/-- The index is not assigned by the writes. -/
theorem LoopSetup.notMem_assignments (h : LoopSetup code loop read w obj x) {r : ℕ}
    (hr : r = loop.plan.index ∨ r = loop.plan.limit) (b : ℤ) :
    r ∉ (loop.assignments obj b).map Prod.fst := by
  intro hmem
  simp only [ParsedWriteLoop.assignments, List.map_flatMap, List.mem_flatMap] at hmem
  obtain ⟨wr, hwr, hmem⟩ := hmem
  have htemporary := assignments_subset hmem
  rcases hr with rfl | rfl
  · exact h.fit.temporaries wr hwr _ htemporary rfl
  · exact h.limit wr hwr _ htemporary rfl

variable (slow) in
/-- The body at the index in its register. -/
theorem LoopSetup.passes_body (h : LoopSetup code loop read w obj x)
    (halias : ¬ w.Aliased code read obj loop.writes) {storage : List VmValue}
    (hlength : storage.length = x.map.storage.length)
    (hworld : s.world = w.withStorage obj storage)
    (hres : ResolvesTo code read obj (w.withStorage obj storage))
    (hindex : s.registers loop.plan.index = ofNumber (.ofInt a)) :
    Passes code slow (ResolvesTo code read obj)
      (loop.writes.flatMap (LoopWrite.instructions loop.plan.index)) s
      (s.iterate loop w obj storage a) := by
  have hupdate : Function.update s.registers loop.plan.index (ofNumber (.ofInt a)) =
      s.registers := by
    rw [← hindex, Function.update_eq_self]
  have hbody : Passes code slow (ResolvesTo code read obj) _ s _ :=
    execAll_body h.setup h.fit halias (fun _ h => h) hlength hworld hres hindex
  unfold WriteState.iterate ParsedWriteLoop.assignments
  rw [hupdate]
  exact hbody

/-- The next iteration forgets what the one before wrote. -/
theorem LoopSetup.iterate_iterate (h : LoopSetup code loop read w obj x) (storage : List VmValue)
    (b c : ℤ) :
    ((s.iterate loop w obj storage b).advance loop.plan.index c).iterate loop w obj
        (setAll (w.cells obj (.ofInt b) loop.writes) storage) c =
      { s.iterate loop w obj storage c with
        loopIterationCount := s.loopIterationCount + 1 } := by
  have hregisters : assign (loop.assignments obj c) (Function.update (Function.update
        (assign (loop.assignments obj b)
          (Function.update s.registers loop.plan.index (ofNumber (.ofInt b))))
        loop.plan.index (ofNumber (.ofInt c))) loop.plan.index (ofNumber (.ofInt c))) =
      assign (loop.assignments obj c)
        (Function.update s.registers loop.plan.index (ofNumber (.ofInt c))) := by
    rw [Function.update_idem, ← assign_update (h.notMem_assignments (.inl rfl) b),
      Function.update_idem, assign_assign (loop.keys_assignments obj c b)]
  simp only [WriteState.iterate, WriteState.advance, hregisters,
    setAll_setAll (w.keys_cells obj (.ofInt c) (.ofInt b) loop.writes)]

/-- The index and the limit after an iteration. -/
theorem LoopSetup.atIndex_iterate (h : LoopSetup code loop read w obj x)
    (hne : loop.plan.index ≠ loop.plan.limit)
    (hlimited : s.loopIterationLimit = LoopFrame.unlimited)
    (hlimit : s.registers loop.plan.limit = ofI32 limit) (ha : InI32 a) (storage : List VmValue) :
    AtIndex loop (s.iterate loop w obj storage a) a limit where
  unlimited := hlimited
  index := (assign_of_notMem (h.notMem_assignments (.inl rfl) a)).trans (by simp)
  limit := (assign_of_notMem (h.notMem_assignments (.inr rfl) a)).trans
    (by simp [hne.symm, hlimit])
  inI32 := ha

/-- The steps of one iteration: the maintenance, the body and the jump back. -/
def ParsedWriteLoop.iterationSteps (loop : ParsedWriteLoop) : ℕ :=
  3 + ((loop.writes.flatMap (LoopWrite.instructions loop.plan.index)).length + 1)

variable (slow) in
/-- **One iteration.** -/
theorem ParsedWriteLoop.Shape.through_iteration (shape : loop.Shape code)
    (h : LoopSetup code loop read w obj x) (halias : ¬ w.Aliased code read obj loop.writes)
    {storage : List VmValue} (hlength : storage.length = x.map.storage.length)
    (hworld : s.world = w.withStorage obj storage)
    (hres : ResolvesTo code read obj (w.withStorage obj storage))
    (hat : AtIndex loop s a limit) (hless : a + 1 < limit.toInt) :
    code.Through slow (ResolvesTo code read obj) loop.iterationSteps (loop.plan.loopIterationPc, s)
      (loop.plan.loopIterationPc,
        (s.advance loop.plan.index (a + 1)).iterate loop w obj storage (a + 1)) := by
  have henter := shape.through_enter slow (P := ResolvesTo code read obj)
    (hworld ▸ hres) hat hless
  have hbody := shape.through_body (h.passes_body slow halias hlength
    (s := s.advance loop.plan.index (a + 1)) hworld hres (advance_index _ _ _))
  have hlen : shape.body.length =
      (loop.writes.flatMap (LoopWrite.instructions loop.plan.index)).length := by
    rw [← shape.body_instructions, List.length_map]
  rw [hlen] at hbody
  exact henter.trans hbody

/-- So many more iterations counted. -/
def WriteState.counted (s : WriteState) (n : ℕ) : WriteState :=
  { s with loopIterationCount := s.loopIterationCount + UInt64.ofNat n }

/-- Counting iterations leaves the index and the limit. -/
theorem AtIndex.counted (hat : AtIndex loop s a limit) (n : ℕ) :
    AtIndex loop (s.counted n) a limit :=
  ⟨hat.unlimited, hat.index, hat.limit, hat.inI32⟩

/-- What an iteration makes of the state it started with. -/
theorem iterate_advance (storage : List VmValue) (b : ℤ) :
    (s.advance loop.plan.index b).iterate loop w obj storage b =
      (s.iterate loop w obj storage b).counted 1 := by
  simp only [WriteState.iterate, WriteState.advance, WriteState.counted, Function.update_idem]
  rfl

/-- The next iteration, where the ones before are counted. -/
theorem LoopSetup.iterate_counted (h : LoopSetup code loop read w obj x) (storage : List VmValue)
    (b c : ℤ) (n : ℕ) :
    (((s.iterate loop w obj storage b).counted n).advance loop.plan.index c).iterate loop w obj
        (setAll (w.cells obj (.ofInt b) loop.writes) storage) c =
      (s.iterate loop w obj storage c).counted (n + 1) := by
  have hnext := h.iterate_iterate (s := s.counted n) storage b c
  have hcount : s.loopIterationCount + UInt64.ofNat n + 1 =
      s.loopIterationCount + UInt64.ofNat (n + 1) := by
    rw [UInt64.ofNat_add, UInt64.add_assoc]
    rfl
  calc _ = { (s.counted n).iterate loop w obj storage c with
        loopIterationCount := (s.counted n).loopIterationCount + 1 } := hnext
    _ = { s.iterate loop w obj storage c with
        loopIterationCount := s.loopIterationCount + UInt64.ofNat n + 1 } := rfl
    _ = _ := by
        rw [hcount]
        rfl

variable (slow) in
/-- **Several iterations**: the state is that of the last one, and all of them are counted. -/
theorem ParsedWriteLoop.Shape.through_iterations (shape : loop.Shape code)
    (h : LoopSetup code loop read w obj x) (halias : ¬ w.Aliased code read obj loop.writes)
    {storage : List VmValue} (hlength : storage.length = x.map.storage.length)
    (hworld : s.world = w.withStorage obj storage)
    (hres : ResolvesTo code read obj (w.withStorage obj storage))
    (hat : AtIndex loop s a limit) (n : ℕ) (hless : a + (n + 1 : ℕ) < limit.toInt) :
    code.Through slow (ResolvesTo code read obj) ((n + 1) * loop.iterationSteps)
      (loop.plan.loopIterationPc, s)
      (loop.plan.loopIterationPc,
        (s.iterate loop w obj storage (a + (n + 1 : ℕ))).counted (n + 1)) := by
  induction n with
  | zero =>
      have hone := shape.through_iteration slow h halias hlength hworld hres hat
        (by simpa using hless)
      rw [iterate_advance] at hone
      simpa using hone
  | succ n ih =>
      have hbefore := ih (by omega)
      have hb : InI32 (a + (n + 1 : ℕ)) := by
        have := hat.inI32
        have := limit.toInt_lt
        simp only [InI32] at *
        omega
      have hat' := (h.atIndex_iterate shape.index_ne_limit hat.unlimited hat.limit hb
        storage).counted (n + 1)
      have hone := shape.through_iteration slow h halias
        (by rw [length_setAll, hlength]) rfl hbefore.last hat' (by push_cast at hless ⊢; omega)
      rw [h.iterate_counted] at hone
      have hsum : a + (n + 1 : ℕ) + 1 = a + (n + 1 + 1 : ℕ) := by omega
      rw [hsum] at hone
      rw [Nat.succ_mul]
      exact hbefore.trans hone

end Iterations

end BoaLigero
