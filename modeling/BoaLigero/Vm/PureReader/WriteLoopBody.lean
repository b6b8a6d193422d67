import BoaLigero.Util.Overwrite
import BoaLigero.Vm.PureReader.WriteLoopShape

/-!
# The Body of a Loop of Property Writes

What the body does to the registers and to the storage of the written object, as long as the
object binding resolves to it.

## Main results

* `execAll_write` — one write, whatever the binding resolves to.
* `execAll_body` — the body, where no write goes to the cell the binding is read from.
-/

namespace BoaLigero

/-! ### Worlds that differ in one storage -/

namespace WriteWorld

/-- The world with another storage of one object. -/
def withStorage (w : WriteWorld) (obj : ℕ) (storage : List VmValue) : WriteWorld :=
  { w with heap := { w.heap with objects := w.heap.objects.modify obj fun x =>
    { x with map := { x.map with storage } } } }

variable {w : WriteWorld} {obj : ℕ} {storage : List VmValue} {code : LoopCode}

@[simp] theorem shape_withStorage (p : ℕ) :
    (w.withStorage obj storage).heap.shape p = w.heap.shape p := by
  simp only [ObjectHeap.shape, withStorage, List.getElem?_modify]
  cases w.heap.objects[p]? with
  | none => simp
  | some x => by_cases h : obj = p <;> simp [h]

@[simp] theorem slotHolder_withStorage (p : ℕ) (slot : Slot) :
    (w.withStorage obj storage).heap.slotHolder p slot = w.heap.slotHolder p slot := by
  simp only [ObjectHeap.slotHolder, shape_withStorage]
  rfl

/-- Caches look at shapes only. -/
@[simp] theorem cacheGet_withStorage (icIndex : ℕ) (shape : Shape) :
    (w.withStorage obj storage).cacheGet icIndex shape = w.cacheGet icIndex shape := by
  have hshape : (w.withStorage obj storage).heap.shape = w.heap.shape := funext shape_withStorage
  unfold cacheGet SiteWorld.cacheGet SiteWorld.entryMatches
  simp only [hshape]
  rfl

@[simp] theorem cachedSlot_withStorage (icIndex p : ℕ) :
    (w.withStorage obj storage).cachedSlot icIndex p = w.cachedSlot icIndex p := by
  simp only [cachedSlot, shape_withStorage]
  congr 1
  funext shape
  exact cacheGet_withStorage icIndex shape

@[simp] theorem cachedCell_withStorage (icIndex p : ℕ) :
    (w.withStorage obj storage).cachedCell icIndex p = w.cachedCell icIndex p := by
  simp only [cachedCell, cachedSlot_withStorage]
  congr 1
  funext slot
  simp only [dataCell, slotHolder_withStorage]

@[simp] theorem bindingCell_withStorage (bindingIndex : ℕ) (icIndex : Option ℕ) :
    (w.withStorage obj storage).bindingCell code bindingIndex icIndex =
      w.bindingCell code bindingIndex icIndex := by
  unfold bindingCell
  split
  · exact cachedCell_withStorage _ _
  · rfl

/-- The cells of other objects. -/
theorem readCell_withStorage_of_ne {cell : ℕ × ℕ} (h : cell.1 ≠ obj) :
    (w.withStorage obj storage).heap.readCell cell = w.heap.readCell cell := by
  simp [ObjectHeap.readCell, withStorage, h.symm]

variable {x : JsObject VmPrimitive}

/-- The cells of the object. -/
theorem readCell_withStorage_self (hx : w.heap.objects[obj]? = some x) (i : ℕ) :
    (w.withStorage obj storage).heap.readCell (obj, i) = storage[i]? := by
  simp [ObjectHeap.readCell, withStorage, hx]

/-- Writing a cell of the object. -/
theorem writeCell_withStorage (hx : w.heap.objects[obj]? = some x) {i : ℕ}
    (hi : i < storage.length) (v : VmValue) :
    ((w.withStorage obj storage).heap.writeCell (obj, i) v).map
      (fun heap => { w.withStorage obj storage with heap }) =
        some (w.withStorage obj (storage.set i v)) := by
  have hobjects : (w.heap.objects.modify obj fun x => { x with map := { x.map with storage } }).set
      obj { x with map := { x.map with storage := storage.set i v } } =
      w.heap.objects.modify obj fun x =>
        { x with map := { x.map with storage := storage.set i v } } := by
    apply List.ext_getElem?
    intro p
    obtain ⟨hlt, rfl⟩ := List.getElem?_eq_some_iff.mp hx
    by_cases hp : obj = p
    · subst hp
      simp [hlt]
    · simp [hp]
  simp [ObjectHeap.writeCell, withStorage, hx, Storage.write, hi, hobjects]

/-- The storage the object has. -/
theorem withStorage_self (hx : w.heap.objects[obj]? = some x) :
    w.withStorage obj x.map.storage = w := by
  have hobjects : (w.heap.objects.modify obj fun y =>
      { y with map := { y.map with storage := x.map.storage } }) = w.heap.objects := by
    apply List.ext_getElem?
    intro p
    by_cases hp : obj = p
    · subst hp
      simp [hx]
    · simp [hp]
  unfold withStorage
  rw [hobjects]

end WriteWorld

/-! ### One write -/

namespace LoopWrite

/-- The value a write stores at an index. -/
def value (i : JsNumber) (w : LoopWrite) : JsNumber :=
  match w.constant with
  | none => i
  | some c => if c.indexFirst then i.add (.integer32 c.value) else (JsNumber.integer32 c.value).add i

/-- The registers that computing the value assigns. -/
def valueAssignments (i : JsNumber) (w : LoopWrite) : List (ℕ × VmValue) :=
  (w.constant.map fun c => (c.register, ofI32 c.value)).toList ++
    [(w.valueRegister, ofNumber (w.value i))]

/-- The registers a write assigns, where the binding resolves to a value. -/
def assignments (target : VmValue) (i : JsNumber) (w : LoopWrite) : List (ℕ × VmValue) :=
  (w.read.register, target) :: w.valueAssignments i

/-- The register of the object is not used for anything else in a write. -/
def IsClean (w : LoopWrite) : Prop :=
  w.read.register ≠ w.valueRegister ∧ ∀ c ∈ w.constant, w.read.register ≠ c.register

instance (w : LoopWrite) : Decidable w.IsClean := inferInstanceAs (Decidable (_ ∧ _))

end LoopWrite

section Write

variable {code : LoopCode} {slow : SlowPaths} {index : ℕ} {w : LoopWrite} {s : WriteState}
  {i : JsNumber} {target : VmValue}

/-- The load of a binding that resolves to a value. -/
theorem exec_read
    (htarget : s.world.bindingDataValue code w.read.bindingIndex w.read.icIndex = some target) :
    w.read.instruction.exec code slow s = some (.next, s.set w.read.register target) := by
  unfold BindingRead.instruction
  cases hic : w.read.icIndex with
  | none =>
      rw [hic] at htarget
      simp [VmInstruction.exec, readBinding, htarget]
  | some ic =>
      rw [hic] at htarget
      simp [VmInstruction.exec, readBinding, htarget]

/-- The computation of a value. -/
theorem execAll_value (hindex : s.registers index = ofNumber i)
    (htemporaries : ∀ r ∈ w.temporaries, r ≠ index) :
    execAll code slow (w.valueInstructions index) s =
      some { s with registers := assign (w.valueAssignments i) s.registers } := by
  unfold LoopWrite.valueInstructions LoopWrite.valueAssignments LoopWrite.value
  cases hconstant : w.constant with
  | none => simp [execAll, VmInstruction.exec, WriteState.set, hindex]
  | some c =>
      obtain ⟨register, value, indexFirst⟩ := c
      have hne : register ≠ index := htemporaries register (by
        simp [LoopWrite.temporaries, hconstant])
      cases indexFirst <;>
        simp [execAll, VmInstruction.exec, WriteState.set, hindex, hne.symm, ofI32, asNumber,
          ofNumber]

/-- Computing the value leaves the object in its register. -/
theorem assignments_target (hclean : w.IsClean) (f : ℕ → VmValue) :
    assign (w.assignments target i) f w.read.register = target := by
  rw [LoopWrite.assignments, assign_cons, assign_of_notMem]
  · simp
  · obtain ⟨hvalue, hconstant⟩ := hclean
    unfold LoopWrite.valueAssignments
    cases hc : w.constant with
    | none => simpa using hvalue
    | some c => simpa using ⟨hconstant c (by simp [hc]), hvalue⟩

/-- The value is in its register. -/
theorem assignments_value (f : ℕ → VmValue) :
    assign (w.assignments target i) f w.valueRegister = ofNumber (w.value i) := by
  simp [LoopWrite.assignments, LoopWrite.valueAssignments, assign_append]

/-- Loading the binding and computing the value. -/
theorem execAll_load (slow : SlowPaths)
    (htarget : s.world.bindingDataValue code w.read.bindingIndex w.read.icIndex = some target)
    (hindex : s.registers index = ofNumber i) (htemporaries : ∀ r ∈ w.temporaries, r ≠ index) :
    execAll code slow (w.read.instruction :: w.valueInstructions index) s =
      some { s with registers := assign (w.assignments target i) s.registers } := by
  have hindex' : (s.set w.read.register target).registers index = ofNumber i := by
    have hne : w.read.register ≠ index := htemporaries _ (by simp [LoopWrite.temporaries])
    simp [WriteState.set, hne.symm, hindex]
  rw [execAll, exec_read htarget, Option.bind_some, execAll_value hindex' htemporaries]
  rfl

/-- Storing the value in what the binding resolved to. -/
theorem exec_store (code : LoopCode) (slow : SlowPaths) (s : WriteState) (target : VmValue)
    (i : JsNumber) (hclean : w.IsClean) :
    (VmInstruction.setPropertyByName w.valueRegister w.read.register w.icIndex).exec code slow
        { s with registers := assign (w.assignments target i) s.registers } =
      (writeProperty slow s.world w.icIndex target (ofNumber (w.value i))).map fun world =>
        (.next, { s with registers := assign (w.assignments target i) s.registers, world }) := by
  simp only [VmInstruction.exec, assignments_target hclean, assignments_value]
  cases writeProperty slow s.world w.icIndex target (ofNumber (w.value i)) <;> rfl

/-- **One write**: its registers are assigned, and the property of what the binding resolves
to is written. -/
theorem execAll_write
    (htarget : s.world.bindingDataValue code w.read.bindingIndex w.read.icIndex = some target)
    (hindex : s.registers index = ofNumber i) (htemporaries : ∀ r ∈ w.temporaries, r ≠ index)
    (hclean : w.IsClean) :
    execAll code slow (w.instructions index) s =
      (writeProperty slow s.world w.icIndex target (ofNumber (w.value i))).map fun world =>
        { s with registers := assign (w.assignments target i) s.registers, world } := by
  rw [LoopWrite.instructions, ← List.cons_append, execAll_append,
    execAll_load slow htarget hindex htemporaries, Option.bind_some, execAll,
    exec_store code slow s target i hclean]
  cases writeProperty slow s.world w.icIndex target (ofNumber (w.value i)) <;> rfl

/-- A write assigns only its registers. -/
theorem assignments_subset {r : ℕ} (h : r ∈ (w.assignments target i).map Prod.fst) :
    r ∈ w.temporaries := by
  unfold LoopWrite.assignments LoopWrite.valueAssignments at h
  unfold LoopWrite.temporaries
  cases hc : w.constant with
  | none => simpa [hc] using h
  | some c =>
      have : r = w.read.register ∨ r = c.register ∨ r = w.valueRegister := by simpa [hc] using h
      rcases this with rfl | rfl | rfl <;> simp

/-- Loading the binding and computing the value leave the world alone. -/
theorem exec_world {P : WriteWorld → Prop} (hP : P s.world)
    (htarget : s.world.bindingDataValue code w.read.bindingIndex w.read.icIndex = some target)
    {s' : WriteState}
    (heq : execAll code slow (w.read.instruction :: w.valueInstructions index) s = some s') :
    Passes code slow P (w.read.instruction :: w.valueInstructions index) s s' ∧
      s'.world = s.world := by
  refine Passes.of_quiet hP heq fun i hi t r ht hr => ?_
  rcases List.mem_cons.mp hi with rfl | hi
  · rw [exec_read (ht ▸ htarget)] at hr
    obtain rfl := Option.some.inj hr
    exact ht
  · unfold LoopWrite.valueInstructions at hi
    split at hi
    · obtain rfl := List.mem_singleton.mp hi
      obtain rfl := Option.some.inj hr
      exact ht
    · next c _ =>
        rcases List.mem_cons.mp hi with rfl | hi
        · obtain rfl := Option.some.inj hr
          exact ht
        · obtain rfl := List.mem_singleton.mp hi
          obtain ⟨register, value, indexFirst⟩ := c
          cases indexFirst <;>
          · obtain ⟨x, -, hr⟩ := Option.bind_eq_some_iff.mp hr
            obtain ⟨y, -, hr⟩ := Option.bind_eq_some_iff.mp hr
            obtain rfl := Option.some.inj hr
            exact ht

end Write

/-! ### The body -/

/-- What the guards of a plan establish: the written object is there, every write goes to a
cell of its own storage, and the binding resolves to it. -/
structure WriteSetup (code : LoopCode) (read : BindingRead) (writes : List LoopWrite)
    (w : WriteWorld) (obj : ℕ) (x : JsObject VmPrimitive) : Prop where
  object : w.heap.objects[obj]? = some x
  cell : ∀ wr ∈ writes, ∃ i < x.map.storage.length, w.cachedCell wr.icIndex obj = some (obj, i)
  resolves : w.bindingDataValue code read.bindingIndex read.icIndex = some (.object obj)

/-- The cell of the object that a write goes to. -/
def WriteWorld.cellIndex (w : WriteWorld) (obj : ℕ) (wr : LoopWrite) : ℕ :=
  ((w.cachedCell wr.icIndex obj).map Prod.snd).getD 0

/-- The cells that the writes assign at an index. -/
def WriteWorld.cells (w : WriteWorld) (obj : ℕ) (i : JsNumber) (writes : List LoopWrite) :
    List (ℕ × VmValue) :=
  writes.map fun wr => (w.cellIndex obj wr, ofNumber (wr.value i))

/-- Some write goes to the cell that the binding is read from. -/
def WriteWorld.Aliased (code : LoopCode) (w : WriteWorld) (read : BindingRead) (obj : ℕ)
    (writes : List LoopWrite) : Prop :=
  ∃ wr ∈ writes, w.bindingCell code read.bindingIndex read.icIndex =
    some (obj, w.cellIndex obj wr)

section Body

variable {code : LoopCode} {slow : SlowPaths} {read : BindingRead} {w : WriteWorld} {obj : ℕ}
  {x : JsObject VmPrimitive} {storage : List VmValue}

/-- Writing a cell that the binding is not read from. -/
theorem bindingDataValue_set (hx : w.heap.objects[obj]? = some x) {k : ℕ}
    (hk : w.bindingCell code read.bindingIndex read.icIndex ≠ some (obj, k)) (v : VmValue) :
    (w.withStorage obj (storage.set k v)).bindingDataValue code read.bindingIndex read.icIndex =
      (w.withStorage obj storage).bindingDataValue code read.bindingIndex read.icIndex := by
  have hcell : ∀ cell, w.bindingCell code read.bindingIndex read.icIndex = some cell →
      (w.withStorage obj (storage.set k v)).heap.readCell cell =
        (w.withStorage obj storage).heap.readCell cell := by
    rintro ⟨holder, j⟩ heq
    by_cases hholder : holder = obj
    · subst hholder
      have hj : k ≠ j := fun h => hk (h ▸ heq)
      rw [WriteWorld.readCell_withStorage_self hx, WriteWorld.readCell_withStorage_self hx,
        List.getElem?_set_ne hj]
    · rw [WriteWorld.readCell_withStorage_of_ne hholder,
        WriteWorld.readCell_withStorage_of_ne hholder]
  have hbind : (w.bindingCell code read.bindingIndex read.icIndex).bind
        (w.withStorage obj (storage.set k v)).heap.readCell =
      (w.bindingCell code read.bindingIndex read.icIndex).bind
        (w.withStorage obj storage).heap.readCell := by
    cases hb : w.bindingCell code read.bindingIndex read.icIndex with
    | none => rfl
    | some cell => exact hcell cell hb
  unfold WriteWorld.bindingDataValue
  simp only [WriteWorld.bindingCell_withStorage, hbind]
  rfl

variable {writes : List LoopWrite} {index : ℕ} {i : JsNumber}

/-- The binding resolves to the object. -/
def ResolvesTo (code : LoopCode) (read : BindingRead) (obj : ℕ) (w : WriteWorld) : Prop :=
  w.bindingDataValue code read.bindingIndex read.icIndex = some (.object obj)

/-- A write to the object while the binding resolves to it. -/
theorem writeProperty_eq (hx : w.heap.objects[obj]? = some x)
    (hlength : storage.length = x.map.storage.length) {wr : LoopWrite} {k : ℕ}
    (hk : k < x.map.storage.length) (hcell : w.cachedCell wr.icIndex obj = some (obj, k))
    (v : VmValue) :
    writeProperty slow (w.withStorage obj storage) wr.icIndex (.object obj) v =
      some (w.withStorage obj (storage.set (w.cellIndex obj wr) v)) := by
  have hindex : w.cellIndex obj wr = k := by simp [WriteWorld.cellIndex, hcell]
  rw [hindex, writeProperty, WriteWorld.cachedCell_withStorage, hcell]
  exact WriteWorld.writeCell_withStorage hx (hlength ▸ hk) v

/-- The writes of a body use its registers as the parser checked. -/
structure WritesFit (read : BindingRead) (index : ℕ) (writes : List LoopWrite) : Prop where
  read_eq : ∀ wr ∈ writes, wr.read = read
  temporaries : ∀ wr ∈ writes, ∀ r ∈ wr.temporaries, r ≠ index
  clean : ∀ wr ∈ writes, wr.IsClean

/-- **The body**: while no write goes to the cell the binding is read from, the binding
resolves to the object all along, the registers of the writes are assigned, and the cells of
the writes. -/
theorem execAll_body {ws : List LoopWrite} (setup : WriteSetup code read writes w obj x)
    (hfit : WritesFit read index writes) (halias : ¬ w.Aliased code read obj writes)
    (hws : ∀ wr ∈ ws, wr ∈ writes) {s : WriteState}
    (hlength : storage.length = x.map.storage.length)
    (hworld : s.world = w.withStorage obj storage)
    (hres : ResolvesTo code read obj (w.withStorage obj storage))
    (hindex : s.registers index = ofNumber i) :
    Passes code slow (ResolvesTo code read obj) (ws.flatMap (LoopWrite.instructions index)) s
      { s with
        registers := assign (ws.flatMap (LoopWrite.assignments (.object obj) i)) s.registers
        world := w.withStorage obj (setAll (w.cells obj i ws) storage) } := by
  induction ws generalizing s storage with
  | nil =>
      obtain ⟨frame, world⟩ := s
      obtain rfl : world = w.withStorage obj storage := hworld
      exact .nil hres
  | cons wr ws ih =>
      have hmem := hws wr List.mem_cons_self
      obtain ⟨k, hk, hcell⟩ := setup.cell wr hmem
      have htemporaries := hfit.temporaries wr hmem
      have hclean := hfit.clean wr hmem
      have htarget : s.world.bindingDataValue code wr.read.bindingIndex wr.read.icIndex =
          some (.object obj) := by
        rw [hfit.read_eq wr hmem, hworld]
        exact hres
      obtain ⟨hload, -⟩ := exec_world (P := ResolvesTo code read obj) (hworld ▸ hres) htarget
        (execAll_load slow htarget hindex htemporaries)
      have hwrite : writeProperty slow s.world wr.icIndex (.object obj) (ofNumber (wr.value i)) =
          some (w.withStorage obj (storage.set (w.cellIndex obj wr) (ofNumber (wr.value i)))) := by
        rw [hworld]
        exact writeProperty_eq setup.object hlength hk hcell _
      have hstore := exec_store code slow s (.object obj) i hclean
      rw [hwrite, Option.map_some] at hstore
      have hres' : ResolvesTo code read obj
          (w.withStorage obj (storage.set (w.cellIndex obj wr) (ofNumber (wr.value i)))) := by
        rw [ResolvesTo, bindingDataValue_set setup.object]
        · exact hres
        · exact fun h => halias ⟨wr, hmem, h⟩
      have hindex' : assign (wr.assignments (.object obj) i) s.registers index = ofNumber i := by
        rw [assign_of_notMem, hindex]
        exact fun h => htemporaries index (assignments_subset h) rfl
      have hrest := ih (fun wr' h => hws wr' (List.mem_cons_of_mem _ h))
        (s := { s with
          registers := assign (wr.assignments (.object obj) i) s.registers
          world := w.withStorage obj (storage.set (w.cellIndex obj wr) (ofNumber (wr.value i))) })
        (by rw [List.length_set, hlength]) rfl hres' hindex'
      rw [List.flatMap_cons, List.flatMap_cons, assign_append]
      rw [LoopWrite.instructions, ← List.cons_append, List.append_assoc]
      exact hload.append (.cons hload.last hstore hrest)

end Body

end BoaLigero
