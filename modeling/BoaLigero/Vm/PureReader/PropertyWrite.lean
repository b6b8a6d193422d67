import BoaLigero.Vm.InlineCache
import BoaLigero.Vm.PureReader.LoopFrame

/-!
# The Summary of a Loop of Property Writes

`PurePropertyWriteLoopPlan`: a loop whose body only writes its index, or its index plus a
constant, to properties of one object. The parser accepts such loops; where the guards of
`apply` hold, all iterations but the last are skipped, because the last one overwrites what
they write.

Instructions that play no part in such a loop are kept for their jump targets only.
-/

namespace BoaLigero

/-! ### Code -/

/-- The instructions of the loop. `storeInt` is any of `StoreOne`, `StoreInt8`, `StoreInt16`
and `StoreInt32`. -/
inductive VmInstruction where
  | incrementLoopIteration
  | jump (address : ℕ)
  | inc (dst src : ℕ)
  | jumpIfNotLessThan (address lhs rhs : ℕ)
  | getName (dst bindingIndex : ℕ)
  | getNameGlobal (dst bindingIndex icIndex : ℕ)
  | move (dst src : ℕ)
  | storeInt (dst : ℕ) (value : Int32)
  | add (dst lhs rhs : ℕ)
  | setPropertyByName (value object icIndex : ℕ)
  | other (targets : List ℕ)
  deriving DecidableEq, Repr

/-- The addresses an instruction may jump to. -/
def VmInstruction.targets : VmInstruction → List ℕ
  | jump address | jumpIfNotLessThan address _ _ => [address]
  | other targets => targets
  | _ => []

/-- `instruction_targets_range`. -/
def VmInstruction.targetsRange (i : VmInstruction) (start finish : ℕ) : Bool :=
  i.targets.any fun address => start ≤ address && address ≤ finish

/-- `DecodedInstruction`. -/
structure DecodedInstruction where
  pc : ℕ
  nextPc : ℕ
  instruction : VmInstruction
  deriving DecidableEq, Repr

/-- What the parser reads of a code block. Instructions are decoded front to back. -/
structure LoopCode where
  instructions : List DecodedInstruction
  bindings : List BindingLocator
  registerCount : ℕ
  pcs_increasing : instructions.Pairwise fun d d' => d.pc < d'.pc

/-! ### The parser -/

/-- `MAX_PURE_PROPERTY_WRITES`. -/
def maxPurePropertyWrites : ℕ := 8

/-- A load of the object binding. -/
structure BindingRead where
  register : ℕ
  bindingIndex : ℕ
  icIndex : Option ℕ
  deriving DecidableEq, Repr

/-- The closure `binding_read` of the parser. -/
def LoopCode.bindingRead (code : LoopCode) : VmInstruction → Option BindingRead
  | .getName dst bindingIndex =>
      match code.bindings[bindingIndex]? with
      | some ⟨.globalDeclarative, _⟩ => some ⟨dst, bindingIndex, none⟩
      | _ => none
  | .getNameGlobal dst bindingIndex icIndex =>
      match code.bindings[bindingIndex]? with
      | some ⟨.globalObject, _⟩ => some ⟨dst, bindingIndex, some icIndex⟩
      | _ => none
  | _ => none

/-- A constant added to the index: its register, its value, and whether the index is the left
operand. -/
structure AddedConstant where
  register : ℕ
  value : Int32
  indexFirst : Bool
  deriving DecidableEq, Repr

/-- One write of the body. The plan itself only keeps the indices of the caches. -/
structure LoopWrite where
  read : BindingRead
  constant : Option AddedConstant
  valueRegister : ℕ
  icIndex : ℕ
  deriving DecidableEq, Repr

/-- The registers a write uses, as `temporary_registers` collects them. -/
def LoopWrite.temporaries (w : LoopWrite) : List ℕ :=
  w.read.register :: w.valueRegister :: (w.constant.map AddedConstant.register).toList

/-- The value of a write: the index register moved, or a constant added to it. -/
def parseValue (index : ℕ) :
    List DecodedInstruction → Option ((Option AddedConstant × ℕ) × List DecodedInstruction)
  | d :: rest =>
      match d.instruction with
      | .move dst src => if src = index then some ((none, dst), rest) else none
      | .storeInt register value =>
          match rest with
          | d' :: rest =>
              match d'.instruction with
              | .add dst lhs rhs =>
                  if lhs = index ∧ rhs = register then
                    some ((some ⟨register, value, true⟩, dst), rest)
                  else if rhs = index ∧ lhs = register then
                    some ((some ⟨register, value, false⟩, dst), rest)
                  else none
              | _ => none
          | [] => none
      | _ => none
  | [] => none

/-- The write itself. -/
def parseSet (object value : ℕ) :
    List DecodedInstruction → Option (ℕ × List DecodedInstruction)
  | d :: rest =>
      match d.instruction with
      | .setPropertyByName value' object' icIndex =>
          if value' = value ∧ object' = object then some (icIndex, rest) else none
      | _ => none
  | [] => none

/-- The loop of the parser over the body: from the instruction at the cursor to the jump back,
with the number of writes that may still follow and the load that all of them repeat. The
result is the writes and the instructions from the jump on. -/
def parseWrites (code : LoopCode) (loopPc index : ℕ) :
    ℕ → Option BindingRead → List DecodedInstruction →
      Option (List LoopWrite × List DecodedInstruction)
  | budget, expected, d :: rest =>
      match d.instruction with
      | .jump address =>
          if address ≠ loopPc ∨ expected.isNone then none else some ([], d :: rest)
      | _ =>
          match budget with
          | 0 => none
          | budget + 1 => do
              let read ← code.bindingRead d.instruction
              if expected.any (· ≠ read) then none
              else
                let ((constant, valueRegister), rest) ← parseValue index rest
                let (icIndex, rest) ← parseSet read.register valueRegister rest
                let (writes, rest) ← parseWrites code loopPc index budget (some read) rest
                return ({ read, constant, valueRegister, icIndex } :: writes, rest)
  | _, _, [] => none

/-- `PurePropertyWriteLoopPlan`. -/
structure PurePropertyWriteLoopPlan where
  loopIterationPc : ℕ
  loopIterationNextPc : ℕ
  bodyStartPc : ℕ
  objectBindingIndex : ℕ
  objectIcIndex : Option ℕ
  propertyIcIndices : List ℕ
  index : ℕ
  limit : ℕ
  deriving DecidableEq, Repr

/-- A parsed loop: the plan, with the exit and the writes that the parser saw. -/
structure ParsedWriteLoop where
  plan : PurePropertyWriteLoopPlan
  exitPc : ℕ
  writes : List LoopWrite
  deriving DecidableEq, Repr

namespace VmInstruction

/-- The address of a jump. -/
def asJump : VmInstruction → Option ℕ
  | jump address => some address
  | _ => none

/-- The register that is counted up in place. -/
def asIncInPlace : VmInstruction → Option ℕ
  | inc dst src => if dst = src then some src else none
  | _ => none

/-- The address, the left and the right operand of the loop's comparison. -/
def asJumpIfNotLessThan : VmInstruction → Option (ℕ × ℕ × ℕ)
  | jumpIfNotLessThan address lhs rhs => some (address, lhs, rhs)
  | _ => none

end VmInstruction

/-- `checked_sub`. -/
def checkedSub (m n : ℕ) : Option ℕ := if n ≤ m then some (m - n) else none

/-- `u32::try_from`. -/
def tryU32 (n : ℕ) : Option ℕ := if n < 2 ^ 32 then some n else none

/-- The checks of the parser once the jump back is found: the exit lies behind the loop, the
loop is contiguous and entered at its start only, and the registers are used consistently. -/
def LoopCode.acceptsLoop (code : LoopCode) (loopIterationIndex backEdgeIndex : ℕ)
    (loopIteration bodyStart : DecodedInstruction) (exitPc index limit : ℕ)
    (writes : List LoopWrite) : Bool :=
  let temporaries := writes.flatMap LoopWrite.temporaries
  let loop := (code.instructions.drop loopIterationIndex).take
    (backEdgeIndex + 1 - loopIterationIndex)
  (code.instructions.findIdx? fun d => d.pc = exitPc).any (backEdgeIndex < ·) &&
  decide (loop.IsChain fun d d' => d.nextPc = d'.pc) &&
  (code.instructions[backEdgeIndex]?).any (fun backEdge =>
    code.instructions.zipIdx.all fun (d, i) =>
      !d.instruction.targetsRange bodyStart.pc backEdge.pc &&
      (i = backEdgeIndex || !d.instruction.targetsRange loopIteration.pc loopIteration.pc)) &&
  index ≠ limit &&
  temporaries.all fun r => r ≠ index && r ≠ limit && r < code.registerCount

/-- `PurePropertyWriteLoopPlan::parse_at`, with what it saw of the body. -/
def parseWriteLoop (code : LoopCode) (loopIterationIndex : ℕ) : Option ParsedWriteLoop := do
  let instructions := code.instructions
  let preheaderIndex ← checkedSub loopIterationIndex 1
  let loopIteration ← instructions[loopIterationIndex]?
  guard (loopIteration.instruction = .incrementLoopIteration)
  let preheader ← instructions[preheaderIndex]?
  let preheaderTarget ← preheader.instruction.asJump
  guard (preheader.nextPc = loopIteration.pc)
  let increment ← instructions[loopIterationIndex + 1]?
  let index ← increment.instruction.asIncInPlace
  let comparison ← instructions[loopIterationIndex + 2]?
  let (exitPc, lhs, limit) ← comparison.instruction.asJumpIfNotLessThan
  guard (lhs = index ∧ preheaderTarget = comparison.pc)
  let bodyStart ← instructions[loopIterationIndex + 3]?
  let (writes, fromBackEdge) ← parseWrites code loopIteration.pc index maxPurePropertyWrites none
    (instructions.drop (loopIterationIndex + 3))
  let backEdgeIndex := instructions.length - fromBackEdge.length
  guard (code.acceptsLoop loopIterationIndex backEdgeIndex loopIteration bodyStart exitPc index
    limit writes)
  let object ← writes.head?.map LoopWrite.read
  let plan : PurePropertyWriteLoopPlan := {
    loopIterationPc := ← tryU32 loopIteration.pc
    loopIterationNextPc := ← tryU32 loopIteration.nextPc
    bodyStartPc := ← tryU32 bodyStart.pc
    objectBindingIndex := object.bindingIndex
    objectIcIndex := object.icIndex
    propertyIcIndices := writes.map LoopWrite.icIndex
    index
    limit }
  return { plan, exitPc, writes }

/-- `PurePropertyWriteLoopPlan::parse_at`. -/
def PurePropertyWriteLoopPlan.parseAt (code : LoopCode) (loopIterationIndex : ℕ) :
    Option PurePropertyWriteLoopPlan :=
  (parseWriteLoop code loopIterationIndex).map ParsedWriteLoop.plan

/-! ### Objects and bindings -/

/-- Reading a storage cell of an object. -/
def ObjectHeap.readCell (h : ObjectHeap VmPrimitive) (cell : ℕ × ℕ) : Option VmValue :=
  h.objects[cell.1]?.bind fun x => x.map.storage[cell.2]?

/-- Writing a storage cell of an object. -/
def ObjectHeap.writeCell (h : ObjectHeap VmPrimitive) (cell : ℕ × ℕ) (value : VmValue) :
    Option (ObjectHeap VmPrimitive) :=
  h.objects[cell.1]?.bind fun x =>
    (Storage.write x.map.storage cell.2 value).map fun storage =>
      { h with objects := h.objects.set cell.1 { x with map := { x.map with storage } } }

/-- Everything outside the frame that the loop depends on. -/
structure WriteWorld where
  heap : ObjectHeap VmPrimitive
  /-- The inline caches of the running code. -/
  caches : ℕ → Option InlineCache
  /-- Which unique shapes were collected. -/
  collected : ℕ → Bool
  globalObject : ℕ
  /-- The bindings of the realm's declarative environment. -/
  globalEnvironment : ℕ → Option VmValue
  isOrdinary : ℕ → Bool
  bindingLocatorStable : Bool

namespace WriteWorld

/-- `InlineCache::get` for the cache with an index. -/
def cacheGet (w : WriteWorld) (icIndex : ℕ) (shape : Shape) : Option Slot :=
  (w.caches icIndex).bind fun cache =>
    SiteWorld.cacheGet
      { heap := w.heap, cache, pending := [], collected := w.collected } shape

/-- The slot that a cache has for the shape of an object. -/
def cachedSlot (w : WriteWorld) (icIndex obj : ℕ) : Option Slot :=
  (w.heap.shape obj).bind (w.cacheGet icIndex)

/-- The cell that a cached slot of an object refers to, unless it is an accessor's. -/
def dataCell (w : WriteWorld) (obj : ℕ) (slot : Slot) : Option (ℕ × ℕ) :=
  if slot.attributes.isAccessorDescriptor then none
  else (w.heap.slotHolder obj slot).map fun holder => (holder, slot.index)

/-- The cell of a data property of an object that a cache knows. -/
def cachedCell (w : WriteWorld) (icIndex obj : ℕ) : Option (ℕ × ℕ) :=
  (w.cachedSlot icIndex obj).bind (w.dataCell obj)

/-- The cell that a binding of the code is read from, if it is not a declarative one. -/
def bindingCell (code : LoopCode) (w : WriteWorld) (bindingIndex : ℕ) (icIndex : Option ℕ) :
    Option (ℕ × ℕ) :=
  match code.bindings[bindingIndex]?.map BindingLocator.scope, icIndex with
  | some .globalObject, some icIndex => w.cachedCell icIndex w.globalObject
  | _, _ => none

/-- `binding_data_value` and `cached_named_data_property_value`. -/
def bindingDataValue (code : LoopCode) (w : WriteWorld) (bindingIndex : ℕ)
    (icIndex : Option ℕ) : Option VmValue :=
  if w.bindingLocatorStable then
    match code.bindings[bindingIndex]?, icIndex with
    | some ⟨.globalDeclarative, i⟩, none => w.globalEnvironment i
    | some ⟨.globalObject, _⟩, some _ =>
        (w.bindingCell code bindingIndex icIndex).bind w.heap.readCell
    | _, _ => none
  else none

end WriteWorld

/-! ### Applying a plan -/

/-- The frame and what is around it. -/
structure WriteState extends LoopFrame where
  world : WriteWorld

/-- `PURE_PROPERTY_WRITE_GUARD_MISS`. -/
def purePropertyWriteGuardMiss : UInt8 := (1 : UInt8) <<< (0 : UInt8)

/-- The guard for one property: its cache knows a writable data cell of the object itself. -/
def WriteWorld.guardWrite (w : WriteWorld) (obj icIndex : ℕ) : Except Decline Unit := do
  let _ ← orRetry (w.caches icIndex)
  let slot ← orRetry (w.cachedSlot icIndex obj)
  declineIf .suppress (slot.attributes.isAccessorDescriptor || slot.attributes.inPrototype ||
    !slot.attributes.writable || (w.heap.readCell (obj, slot.index)).isNone)

/-- The guards for all properties. -/
def WriteWorld.guardWrites (w : WriteWorld) (obj : ℕ) : List ℕ → Except Decline Unit
  | [] => .ok ()
  | icIndex :: rest => do
      w.guardWrite obj icIndex
      w.guardWrites obj rest

/-- `PurePropertyWriteLoopPlan::apply` up to the mark it leaves when it gives up. The address
to go on at is part of the result. -/
def PurePropertyWriteLoopPlan.tryApply (plan : PurePropertyWriteLoopPlan) (code : LoopCode)
    (s : WriteState) : Except Decline (ℕ × WriteState) := do
  s.guard purePropertyWriteGuardMiss
  let index ← orRetry (asI32 (s.registers plan.index))
  let limit ← orRetry (asI32 (s.registers plan.limit))
  let remaining ← checkedI64 ((← checkedI64 (limit.toInt - index.toInt)) - 1)
  declineIf .retry (remaining ≤ 1)
  let object ← orRetry
    (s.world.bindingDataValue code plan.objectBindingIndex plan.objectIcIndex)
  let object ← orSuppress (match object with | .object addr => some addr | _ => none)
  declineIf .suppress !(s.world.isOrdinary object)
  s.world.guardWrites object plan.propertyIcIndices
  let frame ← orRetry (s.consumeLoopIterations (← checkedU64 remaining))
  let lastIndex ← tryI32 (limit.toInt - 1)
  let frame := frame.setRegister plan.index (ofI32 lastIndex)
  return (plan.bodyStartPc,
    { s with toLoopFrame := { frame with pureRangeLoopObserved := true } })

/-- `PurePropertyWriteLoopPlan::apply`. -/
def PurePropertyWriteLoopPlan.apply (plan : PurePropertyWriteLoopPlan) (code : LoopCode)
    (pc : ℕ) (s : WriteState) : Option Unit × ℕ × WriteState :=
  match plan.tryApply code s with
  | .ok result => (some (), result)
  | .error .retry => (none, pc, s)
  | .error .suppress =>
      (none, pc, { s with toLoopFrame := s.suppressForFrame purePropertyWriteGuardMiss })

end BoaLigero
