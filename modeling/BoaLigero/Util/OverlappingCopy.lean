import Mathlib.Data.List.Range
import Mathlib.Logic.Function.Basic

/-!
# Copies between Overlapping Regions

Values that are copied one by one inside a memory, from left to right or from right to left, and
when that is a copy through a temporary one.

## Main results

* `OverlappingCopy.foldl_forward`, `OverlappingCopy.foldl_backward` — the direction that does not
  overwrite what is still to be copied.
* `OverlappingCopy.range_blocks` — a range as a head, blocks of one size, and a tail.
-/

namespace OverlappingCopy

variable {α : Type} {src dest count : ℕ} {bytes : ℕ → α}

/-- The value at an offset is copied. -/
def move (src dest : ℕ) (bytes : ℕ → α) (offset : ℕ) : ℕ → α :=
  Function.update bytes (dest + offset) (bytes (src + offset))

/-- All values are copied at once, as through a temporary. -/
def moved (src dest count : ℕ) (bytes : ℕ → α) : ℕ → α := fun address =>
  if dest ≤ address ∧ address < dest + count then bytes (src + (address - dest)) else bytes address

/-- The values are copied one by one, strictly from left to right. -/
def leftToRight (src dest count : ℕ) (bytes : ℕ → α) : ℕ → α :=
  (List.range count).foldl (move src dest) bytes

theorem moved_zero (src dest : ℕ) (bytes : ℕ → α) : moved src dest 0 bytes = bytes := by
  funext address
  exact if_neg (by omega)

/-- **From left to right**: nothing that is still to be copied is overwritten if the values are
copied to the left, or behind all of them. -/
theorem foldl_forward (h : dest ≤ src ∨ src + count ≤ dest) :
    leftToRight src dest count bytes = moved src dest count bytes := by
  induction count with
  | zero => exact (moved_zero src dest bytes).symm
  | succ count ih =>
      have hread : moved src dest count bytes (src + count) = bytes (src + count) :=
        if_neg (by omega)
      rw [leftToRight, List.range_succ, List.foldl_append, ← leftToRight, ih (by omega),
        List.foldl_cons, List.foldl_nil, move, hread]
      funext address
      rw [Function.update_apply]
      split
      · next heq =>
          subst heq
          rw [moved, if_pos (by omega), Nat.add_sub_cancel_left]
      · next hne =>
          rw [moved, moved]
          congr 1
          exact propext ⟨by omega, by omega⟩

/-- **From right to left**: nothing that is still to be copied is overwritten if the values are
copied to the right, or in front of all of them. -/
theorem foldl_backward (h : src ≤ dest ∨ dest + count ≤ src) :
    (List.range count).reverse.foldl (move src dest) bytes = moved src dest count bytes := by
  induction count generalizing bytes with
  | zero => exact (moved_zero src dest bytes).symm
  | succ count ih =>
      rw [List.range_succ, List.reverse_append, List.reverse_singleton, List.singleton_append,
        List.foldl_cons, ih (by omega)]
      funext address
      rw [moved, moved]
      by_cases hin : dest ≤ address ∧ address < dest + count
      · rw [if_pos hin, if_pos (by omega), move, Function.update_of_ne (by omega)]
      · rw [if_neg hin, move, Function.update_apply]
        by_cases hlast : address = dest + count
        · rw [if_pos hlast, if_pos (by omega), hlast, Nat.add_sub_cancel_left]
        · rw [if_neg hlast, if_neg (by omega)]

/-- Values that are copied from some offset on. -/
theorem foldl_move_map_add (offset : ℕ) (offsets : List ℕ) :
    (offsets.map (offset + ·)).foldl (move src dest) bytes =
      offsets.foldl (move (src + offset) (dest + offset)) bytes := by
  rw [List.foldl_map]
  congr 1
  funext bytes i
  rw [move, move, Nat.add_assoc, Nat.add_assoc]

/-- **A range** is a head, blocks of one size, and a tail. -/
theorem range_blocks (head chunks size tail : ℕ) :
    List.range (head + chunks * size + tail) =
      List.range head ++
        (List.range chunks).flatMap (fun i => (List.range size).map (head + i * size + ·)) ++
        (List.range tail).map (head + chunks * size + ·) := by
  have hchunks : List.range (head + chunks * size) = List.range head ++
      (List.range chunks).flatMap fun i => (List.range size).map (head + i * size + ·) := by
    induction chunks with
    | zero => simp
    | succ chunks ih =>
        rw [Nat.succ_mul, ← Nat.add_assoc, List.range_add, ih, List.range_succ,
          List.flatMap_append, List.flatMap_singleton, List.append_assoc]
  rw [List.range_add, hchunks]

end OverlappingCopy
