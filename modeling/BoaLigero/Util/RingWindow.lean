import Mathlib.Data.List.Basic
import Mathlib.Logic.Function.Iterate

/-!
# Windows of a Ring Buffer

The slots of a ring buffer between two indices, as a list: what writing behind the last one and
leaving the first one do to it.

## Main results

* `RingWindow.between_push` — a value that is written behind the window is its last one.
* `RingWindow.between_of_ne` — a window that is not empty starts with its first slot.
* `RingWindow.drop_between` — the window of an index in between is the rest of the window.
-/

namespace RingWindow

variable {α : Type} {N : ℕ}

/-- The index behind an index. -/
def succ (i : Fin N) : Fin N := ⟨(i.val + 1) % N, Nat.mod_lt _ (Nat.zero_lt_of_lt i.isLt)⟩

/-- The index in front of an index. -/
def pred (i : Fin N) : Fin N :=
  if i.val = 0 then ⟨N - 1, Nat.sub_lt (Nat.zero_lt_of_lt i.isLt) Nat.one_pos⟩
  else ⟨i.val - 1, Nat.lt_of_le_of_lt (Nat.sub_le _ _) i.isLt⟩

/-- The number of steps from an index to another. -/
def dist (i j : Fin N) : ℕ := if i.val ≤ j.val then j.val - i.val else j.val + N - i.val

/-- The values of a number of slots from an index on. -/
def window (slots : Vector α N) : Fin N → ℕ → List α
  | _, 0 => []
  | i, n + 1 => slots.get i :: window slots (succ i) n

/-- The values from an index up to another one, which is not included. -/
def between (slots : Vector α N) (i j : Fin N) : List α := window slots i (dist i j)

/-- The next slot is the one behind, or the first behind the last. -/
theorem val_succ (i : Fin N) : (succ i).val = if i.val + 1 < N then i.val + 1 else 0 := by
  rw [succ]
  dsimp only
  split
  · next h => exact Nat.mod_eq_of_lt h
  · next h =>
      have hlast : i.val + 1 = N := Nat.le_antisymm i.isLt (Nat.le_of_not_lt h)
      rw [hlast, Nat.mod_self]

/-- The slot before is the one in front, or the last before the first. -/
theorem val_pred (i : Fin N) : (pred i).val = if i.val = 0 then N - 1 else i.val - 1 := by
  rw [pred]
  split <;> rfl

/-! ### Steps -/

/-- The distance of two slots is less than the size of the ring. -/
theorem dist_lt (i j : Fin N) : dist i j < N := by
  have hi := i.isLt
  have hj := j.isLt
  rw [dist]
  split <;> omega

/-- Only a slot itself is at no distance. -/
@[simp] theorem dist_eq_zero_iff {i j : Fin N} : dist i j = 0 ↔ i = j := by
  have hi := i.isLt
  have hj := j.isLt
  rw [dist, Fin.ext_iff]
  split <;> omega

/-- One step forward from the start shortens the distance by one. -/
theorem dist_of_ne {i j : Fin N} (h : i ≠ j) : dist i j = dist (succ i) j + 1 := by
  have hi := i.isLt
  have hj := j.isLt
  rw [ne_eq, Fin.ext_iff] at h
  have hsucc := val_succ i
  rw [dist, dist]
  split at hsucc <;> split <;> split <;> omega

/-- One step forward of the end makes the distance longer by one, unless it gets to the start. -/
theorem dist_succ {i j : Fin N} (h : succ j ≠ i) : dist i (succ j) = dist i j + 1 := by
  have hi := i.isLt
  have hj := j.isLt
  rw [ne_eq, Fin.ext_iff] at h
  have hsucc := val_succ j
  rw [dist, dist]
  split at hsucc <;> split <;> split <;> omega

/-- All the way round, the distance is one less than the size of the ring. -/
theorem dist_succ_self (i : Fin N) : dist (succ i) i + 1 = N := by
  have hi := i.isLt
  have hsucc := val_succ i
  rw [dist]
  split at hsucc <;> split <;> omega

/-- There is room behind a window that leaves more than one slot free. -/
theorem succ_ne_of_lt {i j : Fin N} (h : dist i j + 1 < N) : succ j ≠ i := by
  rintro rfl
  have hself := dist_succ_self j
  omega

/-- A step back and forward leads back. -/
theorem succ_pred (i : Fin N) : succ (pred i) = i := by
  have hi := i.isLt
  have hpred := val_pred i
  rw [Fin.ext_iff, val_succ]
  split at hpred <;> split <;> omega

/-- A step forward and back leads back. -/
theorem pred_succ (i : Fin N) : pred (succ i) = i := by
  have hi := i.isLt
  have hsucc := val_succ i
  rw [Fin.ext_iff, val_pred]
  split at hsucc <;> split <;> omega

/-! ### Windows -/

/-- A window has the length that is asked for. -/
@[simp] theorem length_window (slots : Vector α N) (i : Fin N) (n : ℕ) :
    (window slots i n).length = n := by
  induction n generalizing i with
  | zero => rfl
  | succ n ih => rw [window, List.length_cons, ih]

/-- There are as many items between two slots as their distance is. -/
@[simp] theorem length_between (slots : Vector α N) (i j : Fin N) :
    (between slots i j).length = dist i j := length_window slots i _

/-- Between a slot and itself there is nothing. -/
@[simp] theorem between_self (slots : Vector α N) (i : Fin N) : between slots i i = [] := by
  rw [between, dist_eq_zero_iff.mpr rfl, window]

/-- Nothing is between two slots only if they are the same. -/
theorem between_eq_nil_iff {slots : Vector α N} {i j : Fin N} :
    between slots i j = [] ↔ i = j := by
  rw [← List.length_eq_zero_iff, length_between, dist_eq_zero_iff]

/-- **A window that is not empty** starts with its first slot. -/
theorem between_of_ne {slots : Vector α N} {i j : Fin N} (h : i ≠ j) :
    between slots i j = slots.get i :: between slots (succ i) j := by
  rw [between, dist_of_ne h, window, ← between]

/-- A slot that is not in the window does not count. -/
theorem window_set {slots : Vector α N} {i j : Fin N} {n : ℕ} (h : n ≤ dist i j) (x : α) :
    window (slots.set j x) i n = window slots i n := by
  induction n generalizing i with
  | zero => rfl
  | succ n ih =>
      have hne : i ≠ j := by
        rintro rfl
        rw [dist_eq_zero_iff.mpr rfl] at h
        omega
      have hget : (slots.set j x).get i = slots.get i :=
        Vector.getElem_set_ne _ _ (fun heq => hne (Fin.ext heq.symm))
      rw [dist_of_ne hne] at h
      rw [window, window, hget, ih (Nat.le_of_succ_le_succ h)]

/-- A window can be made longer by the item at its end. -/
theorem window_concat {slots : Vector α N} {i j : Fin N} {n : ℕ} (h : dist i j = n) :
    window slots i (n + 1) = window slots i n ++ [slots.get j] := by
  induction n generalizing i with
  | zero =>
      rw [dist_eq_zero_iff] at h
      rw [h]
      rfl
  | succ n ih =>
      have hne : i ≠ j := fun heq => by
        rw [dist_eq_zero_iff.mpr heq] at h
        omega
      rw [dist_of_ne hne] at h
      rw [window, ih (Nat.succ.inj h), window, List.cons_append]

/-- What is between two slots grows by the item at the end, when the end moves on. -/
theorem between_concat {slots : Vector α N} {i j : Fin N} (h : succ j ≠ i) :
    between slots i (succ j) = between slots i j ++ [slots.get j] := by
  rw [between, dist_succ h, window_concat rfl, ← between]

/-- **A value that is written** behind the window is its last one. -/
theorem between_push {slots : Vector α N} {i j : Fin N} (h : succ j ≠ i) (x : α) :
    between (slots.set j x) i (succ j) = between slots i j ++ [x] := by
  have hget : (slots.set j x).get j = x := Vector.getElem_set_self _
  rw [between_concat h, hget, between, window_set (Nat.le_refl _), ← between]

/-- A slot in front of the window does not count. -/
theorem between_set_front {slots : Vector α N} {i j : Fin N} (h : i ≠ j) (x : α) :
    between (slots.set i x) (succ i) j = between slots (succ i) j := by
  have hself := dist_succ_self i
  have hlt := dist_lt i j
  rw [dist_of_ne h] at hlt
  exact window_set (by omega) x

/-- The last slot of a window that is not empty is the one in front of its end. -/
theorem getLast?_between {slots : Vector α N} {i j : Fin N} (h : i ≠ j) :
    (between slots i j).getLast? = some (slots.get (pred j)) := by
  have hne : succ (pred j) ≠ i := by
    rw [succ_pred]
    exact h.symm
  rw [← succ_pred j, between_concat hne, List.getLast?_concat, succ_pred]

/-- **The window of an index in between** is the rest of the window. -/
theorem drop_between {slots : Vector α N} {i j : Fin N} {n : ℕ} (h : n ≤ dist i j) :
    (between slots i j).drop n = between slots (succ^[n] i) j := by
  induction n generalizing i with
  | zero => rfl
  | succ n ih =>
      have hne : i ≠ j := by
        rintro rfl
        rw [dist_eq_zero_iff.mpr rfl] at h
        omega
      rw [dist_of_ne hne] at h
      rw [between_of_ne hne, List.drop_succ_cons, ih (Nat.le_of_succ_le_succ h),
        Function.iterate_succ_apply]

/-- The slot of an index in between. -/
theorem getElem?_between {slots : Vector α N} {i j : Fin N} {n : ℕ} (h : n < dist i j) :
    (between slots i j)[n]? = some (slots.get (succ^[n] i)) := by
  have hdrop : (between slots i j).drop n = _ := drop_between (Nat.le_of_lt h)
  have hne : succ^[n] i ≠ j := by
    intro heq
    rw [heq, between_self, List.drop_eq_nil_iff, length_between] at hdrop
    omega
  rw [← List.head?_drop, hdrop, between_of_ne hne, List.head?_cons]

end RingWindow
