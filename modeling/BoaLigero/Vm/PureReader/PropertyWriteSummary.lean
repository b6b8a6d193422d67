import BoaLigero.Vm.PureReader.PropertyWriteLoop

/-!
# The Summary of a Loop of Property Writes Against the Loop

Where `PurePropertyWriteLoopPlan::apply` succeeds, the loop that goes on from its result is
compared with the loop that executes all of its iterations.

## Main results

* `LoopSetup.of_tryApply` — what the guards of the summary establish.
* `ParsedWriteLoop.Shape.agrees` — the summary agrees with the loop while no write goes to the
  cell the object binding is read from.
* `ParsedWriteLoop.Shape.not_agrees` — it does not agree where one does, if setting properties
  of Numbers has no effects.
* `PurePropertyWriteLoopPlan.apply_agrees` — both, for every loop the parser accepts.
-/

namespace BoaLigero

/-! ### The comparison -/

namespace ParsedWriteLoop

/-- The iterations that the summary accounts for: all but the one it starts in and the last. -/
def remaining (loop : ParsedWriteLoop) (s : WriteState) : ℕ :=
  (((asI32 (s.registers loop.plan.limit)).getD 0).toInt -
    ((asI32 (s.registers loop.plan.index)).getD 0).toInt - 1).toNat

/-- What the object binding resolves to. -/
def resolution (loop : ParsedWriteLoop) (code : LoopCode) (w : WriteWorld) : Option VmValue :=
  w.bindingDataValue code loop.plan.objectBindingIndex loop.plan.objectIcIndex

/-- **The summary agrees with the loop**: the loop reaches its last iteration; from there and
from the summary's result the object binding resolves to the same at every step; and both reach
the exit, with the same frame, up to the mark that the summary was applied, and the same
objects. -/
def Agrees (loop : ParsedWriteLoop) (code : LoopCode) (slow : SlowPaths) (s : WriteState)
    (c : ℕ × WriteState) : Prop :=
  ∃ t e, code.stepN slow ((loop.remaining s - 1) * loop.iterationSteps + 3)
      (loop.plan.loopIterationPc, s) = some (loop.plan.bodyStartPc, t) ∧
    (∀ k ≤ loop.iterationSteps,
      (code.stepN slow k (loop.plan.bodyStartPc, t)).map (loop.resolution code ·.2.world) =
        (code.stepN slow k c).map (loop.resolution code ·.2.world)) ∧
    code.stepN slow loop.iterationSteps (loop.plan.bodyStartPc, t) = some (loop.exitPc, e) ∧
    code.stepN slow loop.iterationSteps c =
      some (loop.exitPc, { e with pureRangeLoopObserved := true })

/-- Some write of the loop goes to the cell that the object binding is read from. -/
def WritesBinding (loop : ParsedWriteLoop) (code : LoopCode) (w : WriteWorld) : Prop :=
  ∃ obj, loop.resolution code w = some (.object obj) ∧
    ∃ wr ∈ loop.writes, ∃ cell, w.cachedCell wr.icIndex obj = some cell ∧
      w.bindingCell code loop.plan.objectBindingIndex loop.plan.objectIcIndex = some cell

end ParsedWriteLoop

/-- Setting a property of a Number runs no setter and keeps nothing. -/
def SlowPaths.Quiet (slow : SlowPaths) : Prop :=
  ∀ icIndex n value w w', slow.setProperty icIndex (ofNumber n) value w = some w' → w' = w

/-! ### The guards -/

section Guards

variable {code : LoopCode} {loop : ParsedWriteLoop} {w : WriteWorld} {obj : ℕ}

/-- A guarded write goes to a cell of the object itself. -/
theorem WriteWorld.guardWrite_eq_ok {icIndex : ℕ} {u : Unit}
    (h : w.guardWrite obj icIndex = .ok u) :
    ∃ x i, w.heap.objects[obj]? = some x ∧ i < x.map.storage.length ∧
      w.cachedCell icIndex obj = some (obj, i) := by
  simp only [guardWrite, orRetry_bind_eq_ok] at h
  obtain ⟨cache, -, slot, hslot, h⟩ := h
  unfold declineIf at h
  split at h
  · cases h
  · next hguard =>
      simp only [Bool.or_eq_true, not_or, Bool.not_eq_true, Option.isNone_eq_false_iff] at hguard
      obtain ⟨⟨⟨haccessor, hprototype⟩, -⟩, hread⟩ := hguard
      obtain ⟨v, hv⟩ := Option.isSome_iff_exists.mp hread
      obtain ⟨x, hx, hv⟩ := Option.bind_eq_some_iff.mp hv
      refine ⟨x, slot.index, hx, (List.getElem?_eq_some_iff.mp hv).1, ?_⟩
      rw [cachedCell, hslot, Option.bind_some, dataCell, haccessor, if_neg Bool.false_ne_true,
        ObjectHeap.slotHolder, hprototype, if_neg Bool.false_ne_true]
      rfl

theorem WriteWorld.guardWrites_eq_ok {icIndices : List ℕ} {u : Unit}
    (h : w.guardWrites obj icIndices = .ok u) :
    ∀ icIndex ∈ icIndices, ∃ u : Unit, w.guardWrite obj icIndex = .ok u := by
  induction icIndices with
  | nil => nofun
  | cons icIndex icIndices ih =>
      obtain ⟨u', hu', hrest⟩ := Except.bind_eq_ok.mp h
      rintro i hi
      rcases List.mem_cons.mp hi with rfl | hi
      · exact ⟨u', hu'⟩
      · exact ih hrest i hi

/-- The guards of the writes, together. -/
theorem WriteWorld.guards {writes : List LoopWrite} {u : Unit} (hne : writes ≠ [])
    (h : w.guardWrites obj (writes.map LoopWrite.icIndex) = .ok u) :
    ∃ x, w.heap.objects[obj]? = some x ∧ ∀ wr ∈ writes,
      ∃ i < x.map.storage.length, w.cachedCell wr.icIndex obj = some (obj, i) := by
  have hall : ∀ wr ∈ writes, ∃ x i, w.heap.objects[obj]? = some x ∧ i < x.map.storage.length ∧
      w.cachedCell wr.icIndex obj = some (obj, i) := by
    intro wr hwr
    obtain ⟨u', hu'⟩ := guardWrites_eq_ok h wr.icIndex (List.mem_map_of_mem hwr)
    exact guardWrite_eq_ok hu'
  obtain ⟨wr, hwr⟩ := List.exists_mem_of_ne_nil writes hne
  obtain ⟨x, -, hx, -⟩ := hall wr hwr
  refine ⟨x, hx, fun wr' hwr' => ?_⟩
  obtain ⟨y, i, hy, hi, hcell⟩ := hall wr' hwr'
  obtain rfl : x = y := Option.some.inj (hx.symm.trans hy)
  exact ⟨i, hi, hcell⟩

/-- What a successful application means for the state. -/
structure Applied (loop : ParsedWriteLoop) (code : LoopCode) (s : WriteState)
    (c : ℕ × WriteState) where
  index : Int32
  limit : Int32
  obj : ℕ
  object : JsObject VmPrimitive
  read : BindingRead
  atIndex : AtIndex loop s index.toInt limit
  more : index.toInt + 2 < limit.toInt
  setup : LoopSetup code loop read s.world obj object
  read_binding : loop.plan.objectBindingIndex = read.bindingIndex
  read_ic : loop.plan.objectIcIndex = read.icIndex
  result : c = (loop.plan.bodyStartPc, { s with
    loopIterationCount := s.loopIterationCount +
      UInt64.ofNat (limit.toInt - index.toInt - 1).toNat
    registers := Function.update s.registers loop.plan.index (ofNumber (.ofInt (limit.toInt - 1)))
    pureRangeLoopObserved := true })

/-- **The guards of the summary**, with what the parser checked before. -/
theorem Applied.of_apply (shape : loop.Shape code) (hclean : ∀ wr ∈ loop.writes, wr.IsClean)
    {s : WriteState} {pc : ℕ} {c : ℕ × WriteState}
    (h : loop.plan.apply code pc s = (some (), c)) : Nonempty (Applied loop code s c) := by
  have hok : loop.plan.tryApply code s = .ok c := by
    unfold PurePropertyWriteLoopPlan.apply at h
    split at h
    · next result hresult => rw [hresult, ← (Prod.mk.inj h).2]
    · exact absurd (Prod.mk.inj h).1 (by simp)
    · exact absurd (Prod.mk.inj h).1 (by simp)
  unfold PurePropertyWriteLoopPlan.tryApply at hok
  obtain ⟨u, hguard, hok⟩ := Except.bind_eq_ok.mp hok
  have hunlimited := LoopFrame.unlimited_of_guard hguard
  simp only [orRetry_bind_eq_ok, checkedI64, checkedSigned_bind_eq_ok, declineIf_bind_eq_ok,
    orSuppress_bind_eq_ok] at hok
  obtain ⟨index, hindex, limit, hlimit, -, -, hmore, target, htarget, obj, hobj, -, hok⟩ := hok
  obtain ⟨u', hwrites, hok⟩ := Except.bind_eq_ok.mp hok
  simp only [checkedU64_bind_eq_ok, tryI32_bind_eq_ok, orRetry_bind_eq_ok,
    LoopFrame.consumeLoopIterations_eq hunlimited] at hok
  obtain ⟨-, frame, hframe, -, hresult⟩ := hok
  obtain rfl := Option.some.inj hframe
  rw [shape.propertyIcIndices] at hwrites
  obtain ⟨x, hx, hcells⟩ := WriteWorld.guards shape.writes_ne_nil hwrites
  obtain rfl : target = .object obj := by
    cases target with
    | object addr => rw [Option.some.inj hobj]
    | undefined => cases hobj
    | primitive p => cases hobj
  have hindex : s.registers loop.plan.index = ofI32 index := asI32_eq_some.mp hindex
  exact ⟨{
    index, limit, obj
    object := x
    read := shape.read
    atIndex := ⟨hunlimited, by rw [hindex, JsNumber.ofInt_toInt]; rfl, asI32_eq_some.mp hlimit,
      index.le_toInt, index.toInt_lt⟩
    more := by
      have := of_decide_eq_false hmore
      omega
    setup := {
      setup := ⟨hx, hcells, by rw [← shape.binding_eq, ← shape.ic_eq]; exact htarget⟩
      fit := ⟨shape.read_eq, fun w hw r hr => (shape.temporaries w hw r hr).1, hclean⟩
      limit := fun w hw r hr => (shape.temporaries w hw r hr).2 }
    read_binding := shape.binding_eq
    read_ic := shape.ic_eq
    result := (Except.ok.inj hresult).symm }⟩

end Guards

/-! ### Without a write to the binding -/

section Agreement

variable {code : LoopCode} {slow : SlowPaths} {loop : ParsedWriteLoop} {s : WriteState}
  {c : ℕ × WriteState}

namespace Applied

theorem remaining_eq (h : Applied loop code s c) :
    loop.remaining s = (h.limit.toInt - h.index.toInt - 1).toNat := by
  have hindex := h.atIndex.index
  rw [JsNumber.ofInt_toInt] at hindex
  rw [ParsedWriteLoop.remaining, h.atIndex.limit, hindex]
  rfl

theorem resolution_eq (h : Applied loop code s c) (w : WriteWorld) :
    loop.resolution code w =
      w.bindingDataValue code h.read.bindingIndex h.read.icIndex := by
  rw [ParsedWriteLoop.resolution, h.read_binding, h.read_ic]

/-- The two ways to say that a write goes to the cell of the binding. -/
theorem writesBinding_iff (h : Applied loop code s c) :
    loop.WritesBinding code s.world ↔ s.world.Aliased code h.read h.obj loop.writes := by
  have hresolves := h.setup.setup.resolves
  constructor
  · rintro ⟨obj, hobj, wr, hwr, cell, hcell, hbinding⟩
    rw [h.resolution_eq, hresolves] at hobj
    obtain rfl : h.obj = obj := by simpa using hobj
    refine ⟨wr, hwr, ?_⟩
    obtain ⟨i, -, hi⟩ := h.setup.setup.cell wr hwr
    obtain rfl : cell = (h.obj, i) := Option.some.inj (hcell.symm.trans hi)
    rw [← h.read_binding, ← h.read_ic, hbinding, WriteWorld.cellIndex, hi]
    rfl
  · rintro ⟨wr, hwr, hbinding⟩
    obtain ⟨i, -, hi⟩ := h.setup.setup.cell wr hwr
    refine ⟨h.obj, (h.resolution_eq _).trans hresolves, wr, hwr, (h.obj, i), hi, ?_⟩
    rw [h.read_binding, h.read_ic, hbinding, WriteWorld.cellIndex, hi]
    rfl

end Applied

variable (slow) in
/-- The last iteration and the exit, from a state at the start of the body. -/
theorem ParsedWriteLoop.Shape.through_last (shape : loop.Shape code) {read : BindingRead}
    {w : WriteWorld} {obj : ℕ} {x : JsObject VmPrimitive} {limit : Int32}
    (h : LoopSetup code loop read w obj x) (halias : ¬ w.Aliased code read obj loop.writes)
    {storage : List VmValue} (hlength : storage.length = x.map.storage.length)
    (hworld : s.world = w.withStorage obj storage)
    (hres : ResolvesTo code read obj (w.withStorage obj storage))
    (hat : AtIndex loop s (limit.toInt - 1) limit) :
    code.Through slow (ResolvesTo code read obj) loop.iterationSteps (loop.plan.bodyStartPc, s)
      (loop.exitPc, (s.iterate loop w obj storage (limit.toInt - 1)).advance loop.plan.index
        limit.toInt) := by
  have hbody := shape.through_body (h.passes_body slow halias hlength hworld hres
    hat.index)
  have hafter := h.atIndex_iterate shape.index_ne_limit hat.unlimited hat.limit hat.inI32 storage
  have hexit := shape.through_exit slow (P := ResolvesTo code read obj) hbody.last hafter
    (by omega)
  have hlen : shape.body.length =
      (loop.writes.flatMap (LoopWrite.instructions loop.plan.index)).length := by
    rw [← shape.body_instructions, List.length_map]
  have hsteps : loop.iterationSteps = shape.body.length + 1 + 3 := by
    rw [ParsedWriteLoop.iterationSteps, hlen, Nat.add_comm]
  have hsum : limit.toInt - 1 + 1 = limit.toInt := by omega
  rw [hsum] at hexit
  rw [hsteps]
  exact hbody.trans hexit

/-- The state that the summary leaves. -/
def WriteState.skipped (s : WriteState) (index : ℕ) (count : ℕ) (last : ℤ) : WriteState :=
  { s with
    loopIterationCount := s.loopIterationCount + UInt64.ofNat count
    registers := Function.update s.registers index (ofNumber (.ofInt last))
    pureRangeLoopObserved := true }

/-- What the last iteration makes of the state that the summary leaves. -/
theorem iterate_skipped (w : WriteWorld) (obj : ℕ) (storage : List VmValue) (count : ℕ)
    (last : ℤ) :
    (s.skipped loop.plan.index count last).iterate loop w obj storage last =
      { (s.iterate loop w obj storage last).counted count with
        pureRangeLoopObserved := true } := by
  simp only [WriteState.iterate, WriteState.skipped, WriteState.counted, Function.update_idem]

/-- **The summary agrees with the loop** while no write goes to the cell the object binding is
read from: both end with the last iteration, which forgets what the ones before wrote. -/
theorem ParsedWriteLoop.Shape.agrees (shape : loop.Shape code) (h : Applied loop code s c)
    (hwrites : ¬ loop.WritesBinding code s.world) : loop.Agrees code slow s c := by
  have halias : ¬ s.world.Aliased code h.read h.obj loop.writes :=
    fun hal => hwrites (h.writesBinding_iff.mpr hal)
  have hmore := h.more
  have hfirst := h.atIndex.inI32
  have hlast : InI32 (h.limit.toInt - 1) := by
    have := h.limit.toInt_lt
    simp only [InI32] at *
    omega
  obtain ⟨n, hn⟩ : ∃ n : ℕ, h.limit.toInt - h.index.toInt - 1 = (n + 2 : ℕ) :=
    ⟨(h.limit.toInt - h.index.toInt - 3).toNat, by omega⟩
  have hbefore : h.index.toInt + (n + 1 : ℕ) + 1 = h.limit.toInt - 1 := by omega
  have hself := WriteWorld.withStorage_self h.setup.setup.object
  have hres : ResolvesTo code h.read h.obj
      (s.world.withStorage h.obj h.object.map.storage) := hself.symm ▸ h.setup.setup.resolves
  -- the iterations before the last one, and the maintenance behind them
  have hiterations := shape.through_iterations slow h.setup halias rfl hself.symm hres
    h.atIndex n (by omega)
  have hat := (h.setup.atIndex_iterate shape.index_ne_limit h.atIndex.unlimited h.atIndex.limit
    (a := h.index.toInt + (n + 1 : ℕ)) (by simp only [InI32] at *; omega)
    h.object.map.storage).counted (n + 1)
  have henter := shape.through_enter slow hiterations.last hat (by omega)
  rw [hbefore] at henter
  -- the last iteration in the loop
  have hcomplete := shape.through_last slow h.setup halias
    (s := ((s.iterate loop s.world h.obj h.object.map.storage
      (h.index.toInt + (n + 1 : ℕ))).counted (n + 1)).advance loop.plan.index
        (h.limit.toInt - 1))
    (by rw [length_setAll]) rfl henter.last
    (hbefore ▸ shape.atIndex_advance hat (hbefore ▸ hlast))
  rw [h.setup.iterate_counted] at hcomplete
  -- the last iteration after the summary
  have hsummary := shape.through_last slow h.setup halias
    (s := s.skipped loop.plan.index (n + 2) (h.limit.toInt - 1)) rfl hself.symm hres
    ⟨h.atIndex.unlimited, by simp [WriteState.skipped],
      by simp [WriteState.skipped, shape.index_ne_limit.symm, h.atIndex.limit], hlast⟩
  rw [iterate_skipped] at hsummary
  have hc : c = (loop.plan.bodyStartPc,
      s.skipped loop.plan.index (n + 2) (h.limit.toInt - 1)) := by
    have hresult := h.result
    rw [hn, Int.toNat_natCast] at hresult
    exact hresult
  have hremaining : loop.remaining s - 1 = n + 1 := by
    rw [h.remaining_eq, hn, Int.toNat_natCast]
    omega
  refine ⟨_, _, ?_, fun k hk => ?_, hcomplete.stepN, ?_⟩
  · rw [hremaining]
    exact (hiterations.trans henter).stepN
  · obtain ⟨d, hd, hresolves⟩ := hcomplete.get hk
    obtain ⟨d', hd', hresolves'⟩ := hsummary.get hk
    rw [← hc] at hd'
    rw [hd, hd', Option.map_some, Option.map_some, h.resolution_eq, h.resolution_eq, hresolves,
      hresolves']
  · have hexit := hsummary.stepN
    rw [← hc] at hexit
    exact hexit

end Agreement

/-! ### With a write to the binding -/

section Disagreement

variable {code : LoopCode} {slow : SlowPaths} {loop : ParsedWriteLoop} {read : BindingRead}
  {w : WriteWorld} {obj : ℕ} {x : JsObject VmPrimitive} {s s' : WriteState} {limit : Int32}
  {a : ℤ}

/-- The binding resolves to a Number. -/
def ResolvesToNumber (code : LoopCode) (read : BindingRead) (w : WriteWorld) : Prop :=
  ∃ n, w.bindingDataValue code read.bindingIndex read.icIndex = some (ofNumber n)

/-- A write keeps the index and the limit. -/
theorem LoopSetup.atIndex_write (h : LoopSetup code loop read w obj x) {wr : LoopWrite}
    (hwr : wr ∈ loop.writes) (hat : AtIndex loop s a limit) (target : VmValue) (i : JsNumber)
    (world : WriteWorld) :
    AtIndex loop { s with registers := assign (wr.assignments target i) s.registers, world }
      a limit where
  unlimited := hat.unlimited
  index := (assign_of_notMem fun hmem => h.fit.temporaries wr hwr _ (assignments_subset hmem)
    rfl).trans hat.index
  limit := (assign_of_notMem fun hmem => h.limit wr hwr _ (assignments_subset hmem)
    rfl).trans hat.limit
  inI32 := hat.inI32

/-- **Once the binding resolves to a Number** it stays one: the writes go to the Number. -/
theorem LoopSetup.body_number (h : LoopSetup code loop read w obj x) (hquiet : slow.Quiet)
    {ws : List LoopWrite} (hws : ∀ wr ∈ ws, wr ∈ loop.writes) (hat : AtIndex loop s a limit)
    (hnumber : ResolvesToNumber code read s.world)
    (heq : execAll code slow (ws.flatMap (LoopWrite.instructions loop.plan.index)) s = some s') :
    AtIndex loop s' a limit ∧ ResolvesToNumber code read s'.world := by
  induction ws generalizing s with
  | nil =>
      obtain rfl := Option.some.inj heq
      exact ⟨hat, hnumber⟩
  | cons wr ws ih =>
      have hwr := hws wr List.mem_cons_self
      obtain ⟨n, hn⟩ := hnumber
      have htarget : s.world.bindingDataValue code wr.read.bindingIndex wr.read.icIndex =
          some (ofNumber n) := by
        rw [h.fit.read_eq wr hwr]
        exact hn
      rw [List.flatMap_cons, execAll_append, execAll_write htarget hat.index
        (h.fit.temporaries wr hwr) (h.fit.clean wr hwr)] at heq
      obtain ⟨s₁, hs₁, heq⟩ := Option.bind_eq_some_iff.mp heq
      obtain ⟨world, hworld, rfl⟩ := Option.map_eq_some_iff.mp hs₁
      obtain rfl := hquiet _ _ _ _ _ hworld
      exact ih (fun wr' h' => hws wr' (List.mem_cons_of_mem _ h'))
        (h.atIndex_write hwr hat _ _ _) ⟨n, hn⟩ heq

/-- A binding with a cell resolves to what is in the cell. -/
theorem bindingDataValue_of_cell {cell : ℕ × ℕ} {v : VmValue}
    (hcell : w.bindingCell code read.bindingIndex read.icIndex = some cell)
    (hres : w.bindingDataValue code read.bindingIndex read.icIndex = some v) :
    w.bindingLocatorStable = true ∧ ∀ w' : WriteWorld,
      w'.bindingLocatorStable = w.bindingLocatorStable →
      w'.bindingCell code read.bindingIndex read.icIndex = some cell →
      w'.bindingDataValue code read.bindingIndex read.icIndex = w'.heap.readCell cell := by
  unfold WriteWorld.bindingDataValue at hres
  split at hres
  · next hstable =>
      refine ⟨hstable, fun w' hstable' hcell' => ?_⟩
      unfold WriteWorld.bindingDataValue
      rw [hstable', hstable, if_pos rfl]
      unfold WriteWorld.bindingCell at hcell
      split at hcell
      · next hscope hic =>
          obtain ⟨⟨scope, i⟩, hbinding, rfl⟩ := Option.map_eq_some_iff.mp hscope
          simp only [hbinding, hic] at hcell' ⊢
          rw [hcell', Option.bind_some]
      · cases hcell
  · cases hres

/-- Writing the cell that the binding is read from. -/
theorem bindingDataValue_set_self (hx : w.heap.objects[obj]? = some x)
    {storage : List VmValue} {k : ℕ} (hk : k < storage.length)
    (hcell : w.bindingCell code read.bindingIndex read.icIndex = some (obj, k))
    (hres : ResolvesTo code read obj (w.withStorage obj storage)) (u : VmValue) :
    (w.withStorage obj (storage.set k u)).bindingDataValue code read.bindingIndex read.icIndex =
      some u := by
  have hbinding := bindingDataValue_of_cell (w := w.withStorage obj storage)
    (by rw [WriteWorld.bindingCell_withStorage, hcell]) hres
  rw [hbinding.2 (w.withStorage obj (storage.set k u)) rfl
    (by rw [WriteWorld.bindingCell_withStorage, hcell]), WriteWorld.readCell_withStorage_self hx,
    List.getElem?_set_self hk]

/-- **A body with a write to the binding** leaves a Number there. -/
theorem LoopSetup.body_aliased (h : LoopSetup code loop read w obj x) (hquiet : slow.Quiet)
    {ws : List LoopWrite} (hws : ∀ wr ∈ ws, wr ∈ loop.writes)
    (halias : w.Aliased code read obj ws) {storage : List VmValue}
    (hlength : storage.length = x.map.storage.length)
    (hworld : s.world = w.withStorage obj storage)
    (hres : ResolvesTo code read obj (w.withStorage obj storage)) (hat : AtIndex loop s a limit)
    (heq : execAll code slow (ws.flatMap (LoopWrite.instructions loop.plan.index)) s = some s') :
    AtIndex loop s' a limit ∧ ResolvesToNumber code read s'.world := by
  induction ws generalizing s storage with
  | nil =>
      obtain ⟨wr, hwr, -⟩ := halias
      cases hwr
  | cons wr ws ih =>
      have hwr := hws wr List.mem_cons_self
      obtain ⟨k, hk, hcell⟩ := h.setup.cell wr hwr
      have hindex : w.cellIndex obj wr = k := by simp [WriteWorld.cellIndex, hcell]
      have htarget : s.world.bindingDataValue code wr.read.bindingIndex wr.read.icIndex =
          some (.object obj) := by
        rw [h.fit.read_eq wr hwr, hworld]
        exact hres
      rw [List.flatMap_cons, execAll_append, execAll_write htarget hat.index
        (h.fit.temporaries wr hwr) (h.fit.clean wr hwr), hworld,
        writeProperty_eq h.setup.object hlength hk hcell, Option.map_some, Option.bind_some,
        hindex] at heq
      have hat' := h.atIndex_write hwr hat (.object obj) (.ofInt a)
        (w.withStorage obj (storage.set k (ofNumber (wr.value (.ofInt a)))))
      have hws' : ∀ wr' ∈ ws, wr' ∈ loop.writes := fun wr' h' => hws wr' (List.mem_cons_of_mem _ h')
      by_cases hbinding : w.bindingCell code read.bindingIndex read.icIndex = some (obj, k)
      · exact h.body_number hquiet hws' hat'
          ⟨_, bindingDataValue_set_self h.setup.object (hlength ▸ hk) hbinding hres _⟩ heq
      · have halias' : w.Aliased code read obj ws := by
          obtain ⟨wr', hmem, hcell'⟩ := halias
          rcases List.mem_cons.mp hmem with rfl | hmem
          · exact absurd (hindex ▸ hcell') hbinding
          · exact ⟨wr', hmem, hcell'⟩
        have hres' : ResolvesTo code read obj
            (w.withStorage obj (storage.set k (ofNumber (wr.value (.ofInt a))))) := by
          rw [ResolvesTo, bindingDataValue_set h.setup.object hbinding]
          exact hres
        exact ih hws' halias' (by rw [List.length_set, hlength]) rfl hres' hat' heq

variable (shape : loop.Shape code)

include shape

/-- The steps of an iteration, whatever the writes do. -/
theorem ParsedWriteLoop.Shape.stepN_iteration (hat : AtIndex loop s a limit)
    (hless : a + 1 < limit.toInt) :
    code.stepN slow loop.iterationSteps (loop.plan.loopIterationPc, s) =
      (execAll code slow (loop.writes.flatMap (LoopWrite.instructions loop.plan.index))
        (s.advance loop.plan.index (a + 1))).map (loop.plan.loopIterationPc, ·) := by
  have henter := (shape.through_enter slow (P := fun _ => True) trivial hat hless).stepN
  have hlen : shape.body.length =
      (loop.writes.flatMap (LoopWrite.instructions loop.plan.index)).length := by
    rw [← shape.body_instructions, List.length_map]
  rw [ParsedWriteLoop.iterationSteps, LoopCode.stepN_add, henter, Option.bind_some, ← hlen,
    shape.stepN_body]

/-- Iterations after the binding became a Number. -/
theorem LoopSetup.iterations_number (h : LoopSetup code loop read w obj x) (hquiet : slow.Quiet)
    (hat : AtIndex loop s a limit) (hnumber : ResolvesToNumber code read s.world) {n : ℕ}
    (hless : a + n < limit.toInt) {c : ℕ × WriteState}
    (heq : code.stepN slow (n * loop.iterationSteps) (loop.plan.loopIterationPc, s) = some c) :
    c.1 = loop.plan.loopIterationPc ∧ AtIndex loop c.2 (a + n) limit ∧
      ResolvesToNumber code read c.2.world := by
  induction n generalizing s a with
  | zero =>
      rw [Nat.zero_mul] at heq
      obtain rfl := Option.some.inj heq
      exact ⟨rfl, by simpa using hat, hnumber⟩
  | succ n ih =>
      have hnext : InI32 (a + 1) := by
        have := hat.inI32
        have := limit.toInt_lt
        simp only [InI32] at *
        omega
      rw [Nat.succ_mul, Nat.add_comm, LoopCode.stepN_add,
        shape.stepN_iteration hat (by omega)] at heq
      obtain ⟨c₁, hc₁, heq⟩ := Option.bind_eq_some_iff.mp heq
      obtain ⟨s₁, hs₁, rfl⟩ := Option.map_eq_some_iff.mp hc₁
      obtain ⟨hat₁, hnumber₁⟩ := h.body_number hquiet (fun _ h => h)
        (shape.atIndex_advance hat hnext) hnumber hs₁
      have hsum : a + 1 + (n : ℤ) = a + (n + 1 : ℕ) := by omega
      exact hsum ▸ ih hat₁ hnumber₁ (by omega) heq

/-- **The summary does not agree with the loop** where a write goes to the cell the object binding
is read from: before its last iteration the loop has lost the object. -/
theorem ParsedWriteLoop.Shape.not_agrees {c : ℕ × WriteState} (h : Applied loop code s c)
    (hquiet : slow.Quiet) (hwrites : loop.WritesBinding code s.world) :
    ¬ loop.Agrees code slow s c := by
  rintro ⟨t, e, hreach, hresolution, -⟩
  have hmore := h.more
  have hnext : InI32 (h.index.toInt + 1) := by
    have := h.atIndex.inI32
    have := h.limit.toInt_lt
    simp only [InI32] at *
    omega
  obtain ⟨n, hn⟩ : ∃ n : ℕ, h.limit.toInt - h.index.toInt - 1 = (n + 2 : ℕ) :=
    ⟨(h.limit.toInt - h.index.toInt - 3).toNat, by omega⟩
  have hremaining : loop.remaining s - 1 = n + 1 := by
    rw [h.remaining_eq, hn, Int.toNat_natCast]
    omega
  have hself := WriteWorld.withStorage_self h.setup.setup.object
  -- the first iteration, the others before the last one, and the maintenance
  rw [hremaining, Nat.succ_mul, Nat.add_comm _ loop.iterationSteps, Nat.add_assoc,
    LoopCode.stepN_add, shape.stepN_iteration h.atIndex (by omega)] at hreach
  obtain ⟨c₁, hc₁, hreach⟩ := Option.bind_eq_some_iff.mp hreach
  obtain ⟨s₁, hs₁, rfl⟩ := Option.map_eq_some_iff.mp hc₁
  obtain ⟨hat₁, hnumber₁⟩ := h.setup.body_aliased hquiet (fun _ h => h)
    (h.writesBinding_iff.mp hwrites) rfl (s := s.advance loop.plan.index (h.index.toInt + 1))
    hself.symm (hself.symm ▸ h.setup.setup.resolves) (shape.atIndex_advance h.atIndex hnext) hs₁
  rw [LoopCode.stepN_add] at hreach
  obtain ⟨c₂, hc₂, hreach⟩ := Option.bind_eq_some_iff.mp hreach
  obtain ⟨hpc, hat₂, hnumber₂⟩ := h.setup.iterations_number shape hquiet hat₁ hnumber₁ (by omega)
    hc₂
  obtain ⟨pc, s₂⟩ := c₂
  obtain rfl : pc = loop.plan.loopIterationPc := hpc
  rw [(shape.through_enter slow (P := fun _ => True) trivial hat₂ (by omega)).stepN]
    at hreach
  have ht : t = s₂.advance loop.plan.index (h.index.toInt + 1 + n + 1) :=
    (Prod.mk.inj (Option.some.inj hreach)).2.symm
  -- the binding resolves to a Number in the loop, and to the object after the summary
  obtain ⟨m, hm⟩ := hnumber₂
  have hworld : c.2.world = s.world := congrArg (WriteState.world ∘ Prod.snd) h.result
  have hzero := hresolution 0 (Nat.zero_le _)
  simp only [LoopCode.stepN, Option.map_some, Option.some.injEq, h.resolution_eq, hworld,
    h.setup.setup.resolves] at hzero
  rw [ht] at hzero
  exact absurd (hm.symm.trans hzero) (by simp [ofNumber])

end Disagreement

/-- The global object, with a binding `obj` for itself and a property `p`, and an access. -/
def globalSite (site : Site) (access : SiteLabel VmPrimitive) : SiteWorld VmPrimitive :=
  (TransitionSystem.performAll (fun w => w.exec site) (fun _ _ => true) .initial
    [.newUnique none,
      .define 0 (.string "obj") (.ofData (.object 0) true true true),
      .define 0 (.string "p") (.ofData .undefined true true true),
      access]).getD .initial

/-- The objects and caches of a loop that reads `obj` and writes a property. -/
def globalWorld (property : String) : WriteWorld where
  heap := (globalSite ⟨.string "obj", .get⟩ (.get 0 false)).heap
  caches icIndex :=
    if icIndex = 0 then some (globalSite ⟨.string "obj", .get⟩ (.get 0 false)).cache
    else some (globalSite ⟨.string property, .set⟩ (.set 0 (.object 0) (.object 0))).cache
  collected _ := false
  globalObject := 0
  globalEnvironment _ := none
  isOrdinary _ := true
  bindingLocatorStable := true

/-- `for (let i = 0; i < limit; i++) { obj.p = i }`. -/
def globalCode : LoopCode where
  instructions :=
    [⟨0, 1, .jump 3⟩, ⟨1, 2, .incrementLoopIteration⟩, ⟨2, 3, .inc 0 0⟩,
      ⟨3, 4, .jumpIfNotLessThan 8 0 1⟩, ⟨4, 5, .getNameGlobal 2 0 0⟩, ⟨5, 6, .move 3 0⟩,
      ⟨6, 7, .setPropertyByName 3 2 1⟩, ⟨7, 8, .jump 1⟩, ⟨8, 9, .other []⟩]
  bindings := [⟨.globalObject, 0⟩]
  registerCount := 4
  pcs_increasing := by decide

/-- The parsed loop. -/
def globalLoop : ParsedWriteLoop where
  plan := {
    loopIterationPc := 1
    loopIterationNextPc := 2
    bodyStartPc := 4
    objectBindingIndex := 0
    objectIcIndex := some 0
    propertyIcIndices := [1]
    index := 0
    limit := 1 }
  exitPc := 8
  writes := [{ read := ⟨2, 0, some 0⟩, constant := none, valueRegister := 3, icIndex := 1 }]

/-- The state before the maintenance of the first iteration, with the limit five. -/
def globalState (property : String) : WriteState where
  pureLoopGuardMisses := 0
  instructionBudgetRemaining := none
  hasExecutionDeadline := false
  loopIterationLimit := LoopFrame.unlimited
  loopIterationCount := 0
  activeJitObservesInterpretedSites := false
  traced := false
  registers r := if r = 1 then ofI32 5 else ofI32 0
  pureRangeLoopObserved := false
  world := globalWorld property

/-- Setting a property of a Number does nothing. -/
def quietPaths : SlowPaths where
  getName _ _ := none
  getNameGlobal _ _ _ := none
  setProperty _ _ _ w := some w

theorem parseWriteLoop_globalCode : parseWriteLoop globalCode 1 = some globalLoop := by
  decide +kernel

theorem apply_globalState (property : String)
    (h : (globalLoop.plan.apply globalCode 1 (globalState property)).1 = some ()) :
    globalLoop.plan.apply globalCode 1 (globalState property) =
      (some (), (globalLoop.plan.apply globalCode 1 (globalState property)).2) :=
  Prod.ext h rfl

end BoaLigero
