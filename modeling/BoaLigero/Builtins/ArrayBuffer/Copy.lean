import BoaLigero.Util.OverlappingCopy
import Mathlib.Data.List.Flatten

/-!
# Batched Copies of Buffers

The copies between array buffers and inside of one (`builtins/array_buffer/utils.rs`), over a
memory that records its accesses. The addresses of the copied bytes do not overflow: the pointers
are valid for them.

## Main results

* `bytes_batchedCopyForward`, `bytes_batchedAtomicCopyBackward` — the batches copy what a loop over
  the bytes copies.
* `within_batchedCopyForward`, `within_batchedAtomicCopyBackward` — they access the two regions only.
* `buffer_copies` — what `memcpy`, `memmove` and `memmove_naive` do.
-/

namespace BoaLigero.ArrayBuffer

open OverlappingCopy

/-! ### Memory -/

/-- An access to the memory. -/
structure Access where
  isStore : Bool
  address : ℕ
  width : ℕ

structure Memory where
  bytes : ℕ → UInt8
  /-- The accesses so far. -/
  accesses : List Access

namespace Memory

/-- Loads a value of some bytes. -/
def load (address width : ℕ) (memory : Memory) : List UInt8 × Memory :=
  ((List.range width).map fun i => memory.bytes (address + i),
    { memory with accesses := memory.accesses ++ [⟨false, address, width⟩] })

/-- Stores a value of some bytes. -/
def store (address : ℕ) (value : List UInt8) (memory : Memory) : Memory where
  bytes := fun i =>
    if address ≤ i then (value[i - address]?).getD (memory.bytes i) else memory.bytes i
  accesses := memory.accesses ++ [⟨true, address, value.length⟩]

/-- Loads a value and stores it. -/
def copyValue (width src dest : ℕ) (memory : Memory) : Memory :=
  let (value, memory) := memory.load src width
  memory.store dest value

/-- A loop over indices. -/
def forEach (indices : List ℕ) (body : ℕ → Memory → Memory) (memory : Memory) : Memory :=
  indices.foldl (fun memory i => body i memory) memory

/-- `ptr::copy`, which copies as through a temporary; its accesses are given byte by byte. -/
def copy (src dest count : ℕ) (memory : Memory) : Memory where
  bytes := moved src dest count memory.bytes
  accesses := memory.accesses ++ (List.range count).map (fun i => ⟨false, src + i, 1⟩) ++
    (List.range count).map fun i => ⟨true, dest + i, 1⟩

/-- `ptr::copy_nonoverlapping`, for regions that do not overlap. -/
def copyNonoverlapping (src dest count : ℕ) (memory : Memory) : Memory := memory.copy src dest count

end Memory

open Memory

/-! ### The functions -/

/-- The size of a batch (`BATCH_SIZE`). -/
def batchSize : ℕ := 8

/-- The number of head bytes, of aligned chunks and of tail bytes (`compute_batch_offsets`). -/
def computeBatchOffsets (ptrAddr count : ℕ) : ℕ × ℕ × ℕ :=
  let misalign := ptrAddr % batchSize
  let head := if misalign = 0 then 0 else min (batchSize - misalign) count
  let remaining := count - head
  (head, remaining / batchSize, remaining % batchSize)

/-- A copy from left to right, in chunks where both addresses have the same misalignment. The
offsets are those of the address `aligned`. -/
def batchedCopyForward (aligned src dest count : ℕ) (memory : Memory) : Memory :=
  if count = 0 then memory
  else if src % batchSize ≠ dest % batchSize then
    memory.forEach (List.range count) fun i => copyValue 1 (src + i) (dest + i)
  else
    let (head, chunks, tail) := computeBatchOffsets aligned count
    if chunks = 0 then
      memory.forEach (List.range count) fun i => copyValue 1 (src + i) (dest + i)
    else
      let memory := memory.forEach (List.range head) fun i => copyValue 1 (src + i) (dest + i)
      let memory := memory.forEach (List.range chunks) fun i =>
        copyValue batchSize (src + head + i * batchSize) (dest + head + i * batchSize)
      let tailStart := head + chunks * batchSize
      memory.forEach (List.range tail) fun i =>
        copyValue 1 (src + (tailStart + i)) (dest + (tailStart + i))

/-- `batched_atomic_copy_forward`. -/
def batchedAtomicCopyForward (src dest count : ℕ) : Memory → Memory :=
  batchedCopyForward dest src dest count

/-- `batched_atomic_copy_backward`. -/
def batchedAtomicCopyBackward (src dest count : ℕ) (memory : Memory) : Memory :=
  if count = 0 then memory
  else if src % batchSize ≠ dest % batchSize then
    memory.forEach (List.range count).reverse fun i => copyValue 1 (src + i) (dest + i)
  else
    let (head, chunks, tail) := computeBatchOffsets dest count
    if chunks = 0 then
      memory.forEach (List.range count).reverse fun i => copyValue 1 (src + i) (dest + i)
    else
      let tailStart := head + chunks * batchSize
      let memory := memory.forEach (List.range tail).reverse fun i =>
        copyValue 1 (src + (tailStart + i)) (dest + (tailStart + i))
      let memory := memory.forEach (List.range chunks).reverse fun i =>
        copyValue batchSize (src + head + i * batchSize) (dest + head + i * batchSize)
      memory.forEach (List.range head).reverse fun i => copyValue 1 (src + i) (dest + i)

/-- `batched_copy_bytes_to_atomic`. -/
def batchedCopyBytesToAtomic (src dest count : ℕ) : Memory → Memory :=
  batchedCopyForward dest src dest count

/-- `batched_copy_atomic_to_bytes`: the offsets are those of the source. -/
def batchedCopyAtomicToBytes (src dest count : ℕ) : Memory → Memory :=
  batchedCopyForward src src dest count

/-- `copy_shared_to_shared`. -/
def copySharedToShared (src dest count : ℕ) : Memory → Memory :=
  batchedAtomicCopyForward src dest count

/-- `copy_shared_to_shared_backwards`. -/
def copySharedToSharedBackwards (src dest count : ℕ) : Memory → Memory :=
  batchedAtomicCopyBackward src dest count

/-- A pointer into a buffer (`BytesConstPtr`). -/
inductive BytesConstPtr where
  | bytes (address : ℕ)
  | atomicBytes (address : ℕ)

/-- A pointer into a buffer that is written (`BytesMutPtr`). -/
inductive BytesMutPtr where
  | bytes (address : ℕ)
  | atomicBytes (address : ℕ)

/-- Copies into another buffer (`memcpy`). -/
def memcpy (src : BytesConstPtr) (dest : BytesMutPtr) (count : ℕ) : Memory → Memory :=
  match src, dest with
  | .bytes src, .bytes dest => copyNonoverlapping src dest count
  | .bytes src, .atomicBytes dest => batchedCopyBytesToAtomic src dest count
  | .atomicBytes src, .bytes dest => batchedCopyAtomicToBytes src dest count
  | .atomicBytes src, .atomicBytes dest => copySharedToShared src dest count

/-- Copies inside a buffer, always from left to right (`memmove_naive`). -/
def memmoveNaive (ptr : BytesMutPtr) («from» «to» count : ℕ) (memory : Memory) : Memory :=
  match ptr with
  | .bytes ptr =>
      memory.forEach (List.range count) fun i => copy (ptr + («from» + i)) (ptr + («to» + i)) 1
  | .atomicBytes ptr => copySharedToShared (ptr + «from») (ptr + «to») count memory

/-- Copies inside a buffer (`memmove`). -/
def memmove (ptr : BytesMutPtr) («from» «to» count : ℕ) : Memory → Memory :=
  match ptr with
  | .bytes ptr => copy (ptr + «from») (ptr + «to») count
  | .atomicBytes ptr =>
      let src := ptr + «from»
      let dest := ptr + «to»
      if src < dest then copySharedToSharedBackwards src dest count
      else copySharedToShared src dest count

/-! ### What is copied -/

variable {src dest count : ℕ} {memory : Memory}

/-- A value is copied at once. -/
theorem bytes_copyValue (width src dest : ℕ) (memory : Memory) :
    (memory.copyValue width src dest).bytes = moved src dest width memory.bytes := by
  funext address
  simp only [copyValue, load, store, moved]
  split
  · next hge =>
      rw [List.getElem?_map]
      by_cases hlt : address < dest + width
      · rw [if_pos ⟨hge, hlt⟩, List.getElem?_range (by omega)]
        rfl
      · rw [if_neg (fun h => hlt h.2), List.getElem?_eq_none (by rw [List.length_range]; omega)]
        rfl
  · next hlt => rw [if_neg (fun h => hlt h.1)]

theorem moved_one (src dest offset : ℕ) (bytes : ℕ → UInt8) :
    moved (src + offset) (dest + offset) 1 bytes = move src dest bytes offset := by
  rw [← foldl_forward (by omega)]
  rfl

/-- A loop over bytes. -/
theorem bytes_forEach (offsets : List ℕ) (memory : Memory) :
    (memory.forEach offsets fun i => copyValue 1 (src + i) (dest + i)).bytes =
      offsets.foldl (move src dest) memory.bytes := by
  induction offsets generalizing memory with
  | nil => rfl
  | cons offset offsets ih =>
      rw [forEach, List.foldl_cons, ← forEach, ih, bytes_copyValue, moved_one, List.foldl_cons]

/-- **A loop over chunks** copies the bytes of every chunk, in any order that a copy through a
temporary agrees with. -/
theorem bytes_forEach_chunks (head : ℕ) {order : List ℕ}
    (horder : ∀ offset (bytes : ℕ → UInt8), (order.map (offset + ·)).foldl (move src dest) bytes =
      moved (src + offset) (dest + offset) batchSize bytes) (indices : List ℕ) (memory : Memory) :
    (memory.forEach indices fun i =>
        copyValue batchSize (src + head + i * batchSize) (dest + head + i * batchSize)).bytes =
      (indices.flatMap fun i => order.map (head + i * batchSize + ·)).foldl (move src dest)
        memory.bytes := by
  induction indices generalizing memory with
  | nil => rfl
  | cons i indices ih =>
      rw [forEach, List.foldl_cons, ← forEach, ih, bytes_copyValue, List.flatMap_cons,
        List.foldl_append, horder, Nat.add_assoc, Nat.add_assoc]

/-- The offsets cover all bytes, and the chunks are aligned. -/
theorem computeBatchOffsets_spec (ptrAddr count : ℕ) {head chunks tail : ℕ}
    (h : computeBatchOffsets ptrAddr count = (head, chunks, tail)) :
    head + chunks * batchSize + tail = count ∧
      (chunks ≠ 0 → (ptrAddr + head) % batchSize = 0) := by
  have hsize : batchSize = 8 := rfl
  simp only [computeBatchOffsets, Prod.mk.injEq, hsize] at h ⊢
  obtain ⟨rfl, rfl, rfl⟩ := h
  split <;> constructor <;> omega

/-- Addresses of the same misalignment are equal or a chunk apart. -/
theorem apart_of_misalignment (h : src % batchSize = dest % batchSize) :
    (dest ≤ src ∨ src + batchSize ≤ dest) ∧ (src ≤ dest ∨ dest + batchSize ≤ src) := by
  have hsize : batchSize = 8 := rfl
  rw [hsize] at h ⊢
  omega

/-- **The copy from left to right** copies what a loop over the bytes copies. -/
theorem bytes_batchedCopyForward (aligned src dest count : ℕ) (memory : Memory) :
    (batchedCopyForward aligned src dest count memory).bytes =
      leftToRight src dest count memory.bytes := by
  rw [batchedCopyForward]
  split
  · next hzero => rw [hzero]; rfl
  · split
    · exact bytes_forEach _ memory
    · next hsame =>
        have hsame : src % batchSize = dest % batchSize := not_not.mp hsame
        cases hoffsets : computeBatchOffsets aligned count with
        | mk head rest =>
            obtain ⟨chunks, tail⟩ := rest
            obtain ⟨hcount, -⟩ := computeBatchOffsets_spec aligned count hoffsets
            dsimp only
            split
            · exact bytes_forEach _ memory
            · have horder (offset : ℕ) (bytes : ℕ → UInt8) :
                  ((List.range batchSize).map (offset + ·)).foldl (move src dest) bytes =
                    moved (src + offset) (dest + offset) batchSize bytes := by
                have hapart := (apart_of_misalignment hsame).1
                rw [foldl_move_map_add, ← leftToRight, foldl_forward (by omega)]
              have htail (memory : Memory) :
                  (memory.forEach (List.range tail) fun i =>
                      copyValue 1 (src + (head + chunks * batchSize + i))
                        (dest + (head + chunks * batchSize + i))).bytes =
                    ((List.range tail).map (head + chunks * batchSize + ·)).foldl (move src dest)
                      memory.bytes := by
                rw [← bytes_forEach, forEach, forEach, List.foldl_map]
              rw [htail, bytes_forEach_chunks head horder, bytes_forEach, leftToRight, ← hcount,
                range_blocks, List.foldl_append, List.foldl_append]

/-- **The copy from right to left** copies what a loop over the bytes copies. -/
theorem bytes_batchedAtomicCopyBackward (src dest count : ℕ) (memory : Memory) :
    (batchedAtomicCopyBackward src dest count memory).bytes =
      (List.range count).reverse.foldl (move src dest) memory.bytes := by
  rw [batchedAtomicCopyBackward]
  split
  · next hzero => rw [hzero]; rfl
  · split
    · exact bytes_forEach _ memory
    · next hsame =>
        have hsame : src % batchSize = dest % batchSize := not_not.mp hsame
        cases hoffsets : computeBatchOffsets dest count with
        | mk head rest =>
            obtain ⟨chunks, tail⟩ := rest
            obtain ⟨hcount, -⟩ := computeBatchOffsets_spec dest count hoffsets
            dsimp only
            split
            · exact bytes_forEach _ memory
            · have horder (offset : ℕ) (bytes : ℕ → UInt8) :
                  ((List.range batchSize).reverse.map (offset + ·)).foldl (move src dest) bytes =
                    moved (src + offset) (dest + offset) batchSize bytes := by
                have hapart := (apart_of_misalignment hsame).2
                rw [foldl_move_map_add, foldl_backward (by omega)]
              have htail (memory : Memory) :
                  (memory.forEach (List.range tail).reverse fun i =>
                      copyValue 1 (src + (head + chunks * batchSize + i))
                        (dest + (head + chunks * batchSize + i))).bytes =
                    ((List.range tail).reverse.map (head + chunks * batchSize + ·)).foldl
                      (move src dest) memory.bytes := by
                rw [← bytes_forEach, forEach, forEach, List.foldl_map]
              rw [bytes_forEach, bytes_forEach_chunks head horder, htail, ← hcount, range_blocks,
                List.reverse_append, List.reverse_append, List.foldl_append, List.foldl_append,
                List.map_reverse, List.reverse_flatMap]
              simp only [Function.comp_def, List.map_reverse]

/-! ### What is accessed -/

/-- An access that a copy may make: it loads from the source or stores to the destination, bytes or
an aligned chunk. -/
structure Access.Allowed (src dest count : ℕ) (access : Access) : Prop where
  region : (if access.isStore then dest else src) ≤ access.address ∧
    access.address + access.width ≤ (if access.isStore then dest else src) + count
  width : access.width = 1 ∨ access.width = batchSize
  aligned : access.width = batchSize → access.address % batchSize = 0

/-- The accesses from one memory to another are allowed. -/
def Within (src dest count : ℕ) (memory memory' : Memory) : Prop :=
  ∃ log, memory'.accesses = memory.accesses ++ log ∧ ∀ access ∈ log, access.Allowed src dest count

theorem Within.refl (src dest count : ℕ) (memory : Memory) : Within src dest count memory memory :=
  ⟨[], (List.append_nil _).symm, fun _ hmem => absurd hmem List.not_mem_nil⟩

theorem Within.trans {memory memory' memory'' : Memory} (h : Within src dest count memory memory')
    (h' : Within src dest count memory' memory'') : Within src dest count memory memory'' := by
  obtain ⟨log, hlog, hallowed⟩ := h
  obtain ⟨log', hlog', hallowed'⟩ := h'
  refine ⟨log ++ log', ?_, fun access hmem => ?_⟩
  · rw [hlog', hlog, List.append_assoc]
  · cases List.mem_append.mp hmem with
    | inl hmem => exact hallowed access hmem
    | inr hmem => exact hallowed' access hmem

theorem Within.forEach {body : ℕ → Memory → Memory} {indices : List ℕ}
    (hbody : ∀ i ∈ indices, ∀ memory, Within src dest count memory (body i memory))
    (memory : Memory) : Within src dest count memory (memory.forEach indices body) := by
  induction indices generalizing memory with
  | nil => exact .refl src dest count memory
  | cons i indices ih =>
      have hhead := hbody i List.mem_cons_self memory
      exact hhead.trans (ih (fun j hj => hbody j (List.mem_cons_of_mem i hj)) (body i memory))

/-- A value that is copied is loaded and stored. -/
theorem within_copyValue {width offset : ℕ} (hwidth : width = 1 ∨ width = batchSize)
    (hend : offset + width ≤ count)
    (haligned : width = batchSize → (src + offset) % batchSize = 0 ∧ (dest + offset) % batchSize = 0)
    (memory : Memory) :
    Within src dest count memory (memory.copyValue width (src + offset) (dest + offset)) := by
  refine ⟨[⟨false, src + offset, width⟩, ⟨true, dest + offset, width⟩], ?_, fun access hmem => ?_⟩
  · simp [copyValue, load, store]
  · rw [List.mem_pair] at hmem
    obtain rfl | rfl := hmem
    · exact ⟨⟨Nat.le_add_right src offset, by simpa [Nat.add_assoc] using hend⟩, hwidth,
        fun h => (haligned h).1⟩
    · exact ⟨⟨Nat.le_add_right dest offset, by simpa [Nat.add_assoc] using hend⟩, hwidth,
        fun h => (haligned h).2⟩

/-- A loop over bytes of the regions. -/
theorem within_forEach {offsets : List ℕ} (first : ℕ) (h : ∀ i ∈ offsets, first + i < count)
    (memory : Memory) : Within src dest count memory
      (memory.forEach offsets fun i => copyValue 1 (src + (first + i)) (dest + (first + i))) :=
  .forEach (fun i hi => within_copyValue (.inl rfl) (h i hi)
    (fun hwidth => absurd hwidth (by decide))) memory

/-- A loop over bytes from the first one on. -/
theorem within_forEach_bytes {offsets : List ℕ} (h : ∀ i ∈ offsets, i < count) (memory : Memory) :
    Within src dest count memory
      (memory.forEach offsets fun i => copyValue 1 (src + i) (dest + i)) :=
  .forEach (fun i hi => within_copyValue (.inl rfl) (h i hi)
    (fun hwidth => absurd hwidth (by decide))) memory

/-- A loop over aligned chunks of the regions. -/
theorem within_forEach_chunks {indices : List ℕ} {head : ℕ}
    (hindices : ∀ i ∈ indices, head + (i + 1) * batchSize ≤ count)
    (hsrc : (src + head) % batchSize = 0) (hdest : (dest + head) % batchSize = 0)
    (memory : Memory) : Within src dest count memory (memory.forEach indices fun i =>
      copyValue batchSize (src + head + i * batchSize) (dest + head + i * batchSize)) := by
  refine .forEach (fun i hi memory => ?_) memory
  have hend : head + i * batchSize + batchSize ≤ count := by
    have := hindices i hi
    rw [Nat.succ_mul] at this
    omega
  rw [Nat.add_assoc, Nat.add_assoc]
  refine within_copyValue (.inr rfl) hend (fun _ => ?_) memory
  rw [← Nat.add_assoc, ← Nat.add_assoc, Nat.add_mul_mod_self_right, Nat.add_mul_mod_self_right]
  exact ⟨hsrc, hdest⟩

/-- The chunks of both regions are aligned, and end inside them. -/
theorem chunks_of_computeBatchOffsets {aligned head chunks tail : ℕ}
    (haligned : aligned = src ∨ aligned = dest) (hsame : src % batchSize = dest % batchSize)
    (h : computeBatchOffsets aligned count = (head, chunks, tail)) (hchunks : chunks ≠ 0) :
    (src + head) % batchSize = 0 ∧ (dest + head) % batchSize = 0 ∧
      ∀ i < chunks, head + (i + 1) * batchSize ≤ count := by
  have hsize : batchSize = 8 := rfl
  obtain ⟨hcount, haddr⟩ := computeBatchOffsets_spec aligned count h
  have haddr := haddr hchunks
  rw [hsize] at hcount haddr hsame ⊢
  refine ⟨?_, ?_, fun i hi => ?_⟩
  · rcases haligned with rfl | rfl <;> omega
  · rcases haligned with rfl | rfl <;> omega
  · omega

/-- **The copy from left to right** stays in the two regions. -/
theorem within_batchedCopyForward {aligned : ℕ} (haligned : aligned = src ∨ aligned = dest)
    (memory : Memory) :
    Within src dest count memory (batchedCopyForward aligned src dest count memory) := by
  have hbytes (memory : Memory) : Within src dest count memory
      (memory.forEach (List.range count) fun i => copyValue 1 (src + i) (dest + i)) :=
    within_forEach_bytes (fun i hi => List.mem_range.mp hi) memory
  rw [batchedCopyForward]
  split
  · exact .refl src dest count memory
  · split
    · exact hbytes memory
    · next hsame =>
        have hsame : src % batchSize = dest % batchSize := not_not.mp hsame
        cases hoffsets : computeBatchOffsets aligned count with
        | mk head rest =>
            obtain ⟨chunks, tail⟩ := rest
            obtain ⟨hcount, -⟩ := computeBatchOffsets_spec aligned count hoffsets
            dsimp only
            split
            · exact hbytes memory
            · next hchunks =>
                obtain ⟨hsrc, hdest, hend⟩ :=
                  chunks_of_computeBatchOffsets haligned hsame hoffsets hchunks
                refine (Within.trans (within_forEach_bytes (fun i hi => ?_) memory)
                  (within_forEach_chunks (fun i hi => hend i (List.mem_range.mp hi)) hsrc hdest _)
                  ).trans (within_forEach _ (fun i hi => ?_) _)
                · have := List.mem_range.mp hi
                  omega
                · have := List.mem_range.mp hi
                  omega

/-- **The copy from right to left** stays in the two regions. -/
theorem within_batchedAtomicCopyBackward (memory : Memory) :
    Within src dest count memory (batchedAtomicCopyBackward src dest count memory) := by
  have hbytes (memory : Memory) : Within src dest count memory
      (memory.forEach (List.range count).reverse fun i => copyValue 1 (src + i) (dest + i)) :=
    within_forEach_bytes (fun i hi => List.mem_range.mp (List.mem_reverse.mp hi)) memory
  rw [batchedAtomicCopyBackward]
  split
  · exact .refl src dest count memory
  · split
    · exact hbytes memory
    · next hsame =>
        have hsame : src % batchSize = dest % batchSize := not_not.mp hsame
        cases hoffsets : computeBatchOffsets dest count with
        | mk head rest =>
            obtain ⟨chunks, tail⟩ := rest
            obtain ⟨hcount, -⟩ := computeBatchOffsets_spec dest count hoffsets
            dsimp only
            split
            · exact hbytes memory
            · next hchunks =>
                obtain ⟨hsrc, hdest, hend⟩ :=
                  chunks_of_computeBatchOffsets (.inr rfl) hsame hoffsets hchunks
                refine (Within.trans (within_forEach _ (fun i hi => ?_) memory)
                  (within_forEach_chunks (fun i hi => hend i (List.mem_range.mp
                    (List.mem_reverse.mp hi))) hsrc hdest _)
                  ).trans (within_forEach_bytes (fun i hi => ?_) _)
                · have := List.mem_range.mp (List.mem_reverse.mp hi)
                  omega
                · have := List.mem_range.mp (List.mem_reverse.mp hi)
                  omega

/-- The copy of the library loads from the one region and stores to the other. -/
theorem within_copy (memory : Memory) :
    Within src dest count memory (memory.copy src dest count) := by
  have hlog : (memory.copy src dest count).accesses = memory.accesses ++
      ((List.range count).map (fun i => (⟨false, src + i, 1⟩ : Access)) ++
        (List.range count).map fun i => ⟨true, dest + i, 1⟩) := List.append_assoc _ _ _
  refine ⟨_, hlog, fun access hmem => ?_⟩
  have hone : (1 : ℕ) = batchSize → (access.address % batchSize = 0) :=
    fun h => absurd h (by decide)
  cases List.mem_append.mp hmem with
  | inl hmem =>
      obtain ⟨i, hi, rfl⟩ := List.mem_map.mp hmem
      have hi := List.mem_range.mp hi
      exact ⟨⟨Nat.le_add_right src i, by simp only [Bool.false_eq_true, if_false]; omega⟩,
        .inl rfl, hone⟩
  | inr hmem =>
      obtain ⟨i, hi, rfl⟩ := List.mem_map.mp hmem
      have hi := List.mem_range.mp hi
      exact ⟨⟨Nat.le_add_right dest i, by simp only [if_true]; omega⟩, .inl rfl, hone⟩

/-! ### The copies of the buffers -/

/-- The address of a pointer. -/
def BytesConstPtr.address : BytesConstPtr → ℕ
  | .bytes address => address
  | .atomicBytes address => address

/-- The address of a pointer. -/
def BytesMutPtr.address : BytesMutPtr → ℕ
  | .bytes address => address
  | .atomicBytes address => address

theorem memcpy_spec (src : BytesConstPtr) (dest : BytesMutPtr) (count : ℕ) (memory : Memory)
    (hdisjoint : src.address + count ≤ dest.address ∨ dest.address + count ≤ src.address) :
    (memcpy src dest count memory).bytes = moved src.address dest.address count memory.bytes ∧
      Within src.address dest.address count memory (memcpy src dest count memory) := by
  have hforward : leftToRight src.address dest.address count memory.bytes =
      moved src.address dest.address count memory.bytes := foldl_forward (by omega)
  cases src with
  | bytes src =>
      cases dest with
      | bytes dest => exact ⟨rfl, within_copy memory⟩
      | atomicBytes dest =>
          exact ⟨(bytes_batchedCopyForward dest src dest count memory).trans hforward,
            within_batchedCopyForward (.inr rfl) memory⟩
  | atomicBytes src =>
      cases dest with
      | bytes dest =>
          exact ⟨(bytes_batchedCopyForward src src dest count memory).trans hforward,
            within_batchedCopyForward (.inl rfl) memory⟩
      | atomicBytes dest =>
          exact ⟨(bytes_batchedCopyForward dest src dest count memory).trans hforward,
            within_batchedCopyForward (.inr rfl) memory⟩

/-- A loop of copies of one byte. -/
theorem bytes_forEach_copy (ptr «from» «to» : ℕ) (offsets : List ℕ) (memory : Memory) :
    (memory.forEach offsets fun i => copy (ptr + («from» + i)) (ptr + («to» + i)) 1).bytes =
      offsets.foldl (move (ptr + «from») (ptr + «to»)) memory.bytes := by
  induction offsets generalizing memory with
  | nil => rfl
  | cons offset offsets ih =>
      rw [forEach, List.foldl_cons, ← forEach, ih, List.foldl_cons, ← moved_one, Nat.add_assoc,
        Nat.add_assoc]
      rfl

theorem memmoveNaive_spec (ptr : BytesMutPtr) («from» «to» count : ℕ) (memory : Memory) :
    (memmoveNaive ptr «from» «to» count memory).bytes =
        leftToRight (ptr.address + «from») (ptr.address + «to») count memory.bytes ∧
      Within (ptr.address + «from») (ptr.address + «to») count memory
        (memmoveNaive ptr «from» «to» count memory) := by
  cases ptr with
  | bytes ptr =>
      refine ⟨bytes_forEach_copy ptr «from» «to» _ memory, .forEach (fun i hi memory => ?_) memory⟩
      have hi := List.mem_range.mp hi
      obtain ⟨log, hlog, hallowed⟩ := @within_copy (ptr + («from» + i))
        (ptr + («to» + i)) 1 memory
      refine ⟨log, hlog, fun access hmem => ?_⟩
      obtain ⟨⟨hfirst, hlast⟩, hwidth, haligned⟩ := hallowed access hmem
      refine ⟨?_, hwidth, haligned⟩
      change (if access.isStore then ptr + «to» else ptr + «from») ≤ access.address ∧ _ ≤
        (if access.isStore then ptr + «to» else ptr + «from») + count
      split at hfirst <;> split at hlast <;> split <;> first | omega | contradiction
  | atomicBytes ptr =>
      exact ⟨bytes_batchedCopyForward _ _ _ count memory, within_batchedCopyForward (.inr rfl) memory⟩

theorem memmove_spec (ptr : BytesMutPtr) («from» «to» count : ℕ) (memory : Memory) :
    (memmove ptr «from» «to» count memory).bytes =
        moved (ptr.address + «from») (ptr.address + «to») count memory.bytes ∧
      Within (ptr.address + «from») (ptr.address + «to») count memory
        (memmove ptr «from» «to» count memory) := by
  cases ptr with
  | bytes ptr => exact ⟨rfl, within_copy memory⟩
  | atomicBytes ptr =>
      simp only [memmove]
      split
      · next hlt =>
          refine ⟨?_, within_batchedAtomicCopyBackward memory⟩
          exact (bytes_batchedAtomicCopyBackward _ _ count memory).trans (foldl_backward (by omega))
      · next hge =>
          refine ⟨?_, within_batchedCopyForward (.inr rfl) memory⟩
          exact (bytes_batchedCopyForward _ _ _ count memory).trans (foldl_forward (by omega))

/-- **The copies of the buffers** do what copies byte by byte do: `memcpy` on regions that do not
overlap and `memmove` as through a temporary, `memmove_naive` strictly from left to right. They load
from the source and store to the destination only, and their chunks are aligned. -/
theorem buffer_copies (count : ℕ) (memory : Memory) :
    (∀ src dest, src.address + count ≤ dest.address ∨ dest.address + count ≤ src.address →
      (memcpy src dest count memory).bytes = moved src.address dest.address count memory.bytes ∧
        Within src.address dest.address count memory (memcpy src dest count memory)) ∧
    ∀ ptr «from» «to»,
      ((memmove ptr «from» «to» count memory).bytes =
          moved (ptr.address + «from») (ptr.address + «to») count memory.bytes ∧
        Within (ptr.address + «from») (ptr.address + «to») count memory
          (memmove ptr «from» «to» count memory)) ∧
      ((memmoveNaive ptr «from» «to» count memory).bytes =
          leftToRight (ptr.address + «from») (ptr.address + «to») count memory.bytes ∧
        Within (ptr.address + «from») (ptr.address + «to») count memory
          (memmoveNaive ptr «from» «to» count memory)) :=
  ⟨fun src dest hdisjoint => memcpy_spec src dest count memory hdisjoint,
    fun ptr «from» «to» => ⟨memmove_spec ptr «from» «to» count memory,
      memmoveNaive_spec ptr «from» «to» count memory⟩⟩

/-- Eleven bytes, of which eight are a chunk, between buffers that are apart. -/
theorem buffer_copies_apart :
    (memcpy (.atomicBytes 14) (.bytes 30) 11 ⟨fun i => i.toUInt8, []⟩).bytes 40 = 24 ∧
      Within 14 30 11 ⟨fun i => i.toUInt8, []⟩
        (memcpy (.atomicBytes 14) (.bytes 30) 11 ⟨fun i => i.toUInt8, []⟩) := by
  obtain ⟨hbytes, hwithin⟩ := (buffer_copies 11 ⟨fun i => i.toUInt8, []⟩).1 (.atomicBytes 14)
    (.bytes 30) (.inl (by decide))
  exact ⟨congrFun hbytes 40, hwithin⟩

end BoaLigero.ArrayBuffer
