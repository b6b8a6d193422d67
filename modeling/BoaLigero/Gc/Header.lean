import Mathlib.Algebra.Ring.Nat
import Mathlib.Data.Nat.Notation

/-!
# Headers of Garbage Collected Boxes

The header of a box (`gc/internals/gc_header.rs`) counts the handles to the box, and in the
low 31 bits of a second word those of them that are in the heap; the high bit is the mark.

The two halves of the second word do not disturb one another, as long as the counts are not
larger than `NON_ROOTS_MAX`: this is what the lemmas say, in terms of `isMarked` and
`nonRootCount`.
-/

namespace BoaLigero

/-- The bit of the mark. -/
def markMask : UInt32 := (1 : UInt32) <<< 31

/-- The bits of the count. -/
def nonRootsMask : UInt32 := ~~~markMask

/-- The largest count. -/
def nonRootsMax : UInt32 := nonRootsMask

/-- The header of a box (`GcHeader`). -/
structure GcHeader where
  refCount : UInt32
  nonRootCell : UInt32
  deriving DecidableEq

namespace GcHeader

/-- How many handles are in the heap (`non_root_count`). -/
def nonRootCount (h : GcHeader) : UInt32 := h.nonRootCell &&& nonRootsMask

/-- Count a handle in the heap, if there are not as many as handles. -/
def incNonRootCount (h : GcHeader) : GcHeader :=
  if h.nonRootCount < h.refCount then { h with nonRootCell := h.nonRootCell + 1 } else h

/-- Forget the handles in the heap. -/
def resetNonRootCount (h : GcHeader) : GcHeader :=
  { h with nonRootCell := h.nonRootCell &&& ~~~nonRootsMask }

/-- Whether the mark is set. -/
def isMarked (h : GcHeader) : Bool := h.nonRootCell &&& markMask != 0

/-- A handle is dropped. -/
def decRefCount (h : GcHeader) : GcHeader := { h with refCount := h.refCount - 1 }

/-- Whether there are handles outside the heap. -/
def isRooted (h : GcHeader) : Bool := h.nonRootCount < h.refCount

/-- Set the mark. -/
def mark (h : GcHeader) : GcHeader := { h with nonRootCell := h.nonRootCell ||| markMask }

/-- Clear the mark. -/
def unmark (h : GcHeader) : GcHeader := { h with nonRootCell := h.nonRootCell &&& ~~~markMask }

variable {h : GcHeader}

/-! ### The second word -/

/-- The mask of the count leaves its bits. -/
theorem toNat_and_nonRootsMask (w : UInt32) : (w &&& nonRootsMask).toNat = w.toNat % 2 ^ 31 := by
  rw [UInt32.toNat_and]
  exact Nat.and_two_pow_sub_one_eq_mod w.toNat 31

/-- The mark is the highest bit. -/
theorem and_markMask (w : UInt32) : (w &&& markMask != 0) = decide (2 ^ 31 ≤ w.toNat) := by
  have hlt := w.toNat_lt
  have hbit : w.toNat.testBit 31 = decide (2 ^ 31 ≤ w.toNat) := by
    rw [Nat.testBit_eq_decide_div_mod_eq, decide_eq_decide]
    omega
  have hmask : markMask.toNat = 2 ^ 31 := rfl
  rw [← hbit, Bool.eq_iff_iff, bne_iff_ne, ne_eq, ← UInt32.toNat_inj, UInt32.toNat_and, hmask]
  cases hw : w.toNat.testBit 31 with
  | false =>
      refine iff_of_false (not_not_intro (Nat.eq_of_testBit_eq fun i => ?_)) Bool.false_ne_true
      rw [Nat.testBit_and, Nat.testBit_two_pow, UInt32.toNat_zero, Nat.zero_testBit]
      by_cases hi : 31 = i
      · rw [← hi, hw, Bool.false_and]
      · rw [decide_eq_false hi, Bool.and_false]
  | true =>
      refine iff_of_true (fun hzero => ?_) rfl
      have hset := congrArg (fun n : ℕ => n.testBit 31) hzero
      rw [Nat.testBit_and, hw, Nat.testBit_two_pow_self, Bool.true_and, UInt32.toNat_zero,
        Nat.zero_testBit] at hset
      cases hset

/-- Setting the mark does not change the bits of the count. -/
theorem toNat_or_markMask (w : UInt32) : (w ||| markMask).toNat = w.toNat % 2 ^ 31 + 2 ^ 31 := by
  have hlt := w.toNat_lt
  have hmask : markMask.toNat = 2 ^ 31 := rfl
  have hor : 2 ^ 31 + w.toNat % 2 ^ 31 = 2 ^ 31 ||| w.toNat % 2 ^ 31 := by
    simpa using Nat.two_pow_add_eq_or_of_lt (Nat.mod_lt w.toNat (Nat.two_pow_pos 31)) 1
  rw [UInt32.toNat_or, hmask, Nat.or_comm]
  rcases Nat.lt_or_ge w.toNat (2 ^ 31) with hsmall | hlarge
  · rw [Nat.mod_eq_of_lt hsmall] at hor ⊢
    omega
  · have hsplit : w.toNat = 2 ^ 31 ||| w.toNat % 2 ^ 31 := by omega
    have hidem : 2 ^ 31 ||| w.toNat = w.toNat := by
      rw [hsplit, ← Nat.or_assoc, Nat.or_self]
    omega

/-- A header is marked exactly if the highest bit is set. -/
theorem isMarked_eq (h : GcHeader) : h.isMarked = decide (2 ^ 31 ≤ h.nonRootCell.toNat) :=
  and_markMask h.nonRootCell

/-- The count of handles in the heap is what is left without the mark. -/
theorem toNat_nonRootCount (h : GcHeader) :
    h.nonRootCount.toNat = h.nonRootCell.toNat % 2 ^ 31 := toNat_and_nonRootsMask h.nonRootCell

/-- A header is rooted exactly if there are more handles than those in the heap. -/
theorem isRooted_eq (h : GcHeader) :
    h.isRooted = decide (h.nonRootCount.toNat < h.refCount.toNat) := by
  rw [isRooted, decide_eq_decide, UInt32.lt_iff_toNat_lt]

/-! ### Marks -/

/-- Marking does not change the reference count. -/
@[simp] theorem refCount_mark (h : GcHeader) : h.mark.refCount = h.refCount := rfl

/-- A marked header is marked. -/
@[simp] theorem isMarked_mark (h : GcHeader) : h.mark.isMarked = true := by
  rw [isMarked_eq, mark, toNat_or_markMask, decide_eq_true_iff]
  omega

/-- Marking does not change the count of handles in the heap. -/
@[simp] theorem nonRootCount_mark (h : GcHeader) : h.mark.nonRootCount = h.nonRootCount := by
  rw [← UInt32.toNat_inj, toNat_nonRootCount, toNat_nonRootCount, mark, toNat_or_markMask]
  omega

/-- Marking does not change whether a header is rooted. -/
@[simp] theorem isRooted_mark (h : GcHeader) : h.mark.isRooted = h.isRooted := by
  rw [isRooted, isRooted, nonRootCount_mark, refCount_mark]

/-- Setting the mark again does nothing. -/
theorem mark_of_isMarked (hm : h.isMarked = true) : h.mark = h := by
  rw [isMarked_eq, decide_eq_true_iff] at hm
  have hlt := h.nonRootCell.toNat_lt
  have hsame : h.nonRootCell ||| markMask = h.nonRootCell := by
    rw [← UInt32.toNat_inj, toNat_or_markMask]
    omega
  rw [mark, hsame]

/-! ### Counts -/

/-- Counting a handle in the heap does not change the reference count. -/
@[simp] theorem refCount_incNonRootCount (h : GcHeader) :
    h.incNonRootCount.refCount = h.refCount := by
  rw [incNonRootCount]
  split <;> rfl

/-- A handle in the heap is counted, and the mark is left alone. -/
theorem incNonRootCount_spec (hmax : h.refCount.toNat < 2 ^ 31)
    (hlt : h.nonRootCount.toNat < h.refCount.toNat) :
    h.incNonRootCount.nonRootCount.toNat = h.nonRootCount.toNat + 1 ∧
      h.incNonRootCount.isMarked = h.isMarked := by
  have hcell := h.nonRootCell.toNat_lt
  have hnat := toNat_nonRootCount h
  have hadd : (h.nonRootCell + 1).toNat = h.nonRootCell.toNat + 1 := by
    rw [UInt32.toNat_add, UInt32.toNat_one]
    omega
  rw [incNonRootCount, if_pos (UInt32.lt_iff_toNat_lt.mpr hlt), isMarked_eq, isMarked_eq,
    toNat_nonRootCount, hadd, decide_eq_decide]
  omega

/-- Dropping a handle does not change the count of handles in the heap. -/
@[simp] theorem nonRootCell_decRefCount (h : GcHeader) :
    h.decRefCount.nonRootCell = h.nonRootCell := rfl

/-- A handle that is dropped is no longer counted. -/
theorem toNat_refCount_decRefCount (hpos : 0 < h.refCount.toNat) :
    h.decRefCount.refCount.toNat = h.refCount.toNat - 1 := by
  have hone : (1 : UInt32) ≤ h.refCount := UInt32.le_iff_toNat_le.mpr hpos
  rw [decRefCount, UInt32.toNat_sub_of_le _ _ hone, UInt32.toNat_one]

/-- **After the sweep** a header is neither marked nor has it handles in the heap. -/
theorem reset_unmark (h : GcHeader) :
    h.unmark.resetNonRootCount = { refCount := h.refCount, nonRootCell := 0 } := by
  have hcell := h.nonRootCell.toNat_lt
  have hzero : h.nonRootCell &&& ~~~markMask &&& ~~~nonRootsMask = 0 := by
    rw [UInt32.and_assoc]
    exact UInt32.and_zero
  rw [unmark, resetNonRootCount, hzero]

end GcHeader

end BoaLigero
