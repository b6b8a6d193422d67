import Mathlib.Algebra.Ring.Nat
import Mathlib.Data.List.DropRight
import Mathlib.Data.Nat.Notation

/-!
# Sequences

Searching, trimming and comparing lists: the windows of a given length, the first occurrence
of one list in another, the elements between the first and the last one of a kind.

The functions are those of slices; what they are for is said by `IsFirst`, by `dropWhile` and
`rdropWhile`, and for comparisons by invariance under a map that keeps comparisons.

## Main results

* `isFirst_findWindow` — a search through the windows finds the first occurrence.
* `slice_trimmed` — what is between the first and the last element of a kind.
-/

namespace Sequence

variable {α β : Type*}

/-! ### Slices -/

/-- The elements from `start` on, up to `stop`, which is left out. -/
def slice (start stop : ℕ) (xs : List α) : List α := (xs.take stop).drop start

/-- A slice within the bounds has the length of its range. -/
@[simp] theorem length_slice {start stop : ℕ} {xs : List α} (h : stop ≤ xs.length) :
    (slice start stop xs).length = stop - start := by
  simp [slice, Nat.min_eq_left h]

/-- Slicing and mapping commute. -/
@[simp] theorem slice_map (f : α → β) (start stop : ℕ) (xs : List α) :
    slice start stop (xs.map f) = (slice start stop xs).map f := by
  simp [slice, List.map_drop, List.map_take]

/-- A slice up to the end leaves a front away. -/
theorem slice_length (start : ℕ) (xs : List α) : slice start xs.length xs = xs.drop start := by
  simp [slice]

/-- A slice from the beginning is a front. -/
theorem slice_zero (stop : ℕ) (xs : List α) : slice 0 stop xs = xs.take stop := by
  simp [slice]

/-! ### Windows -/

/-- The overlapping parts of a given length (`windows`). -/
def windows (size : ℕ) (xs : List α) : List (List α) :=
  (List.range (xs.length + 1 - size)).map fun i => slice i (i + size) xs

/-- There is a window at each position at which one fits. -/
@[simp] theorem length_windows (size : ℕ) (xs : List α) :
    (windows size xs).length = xs.length + 1 - size := by
  simp [windows]

/-- The window at a position is the slice that begins there. -/
theorem getElem_windows {size i : ℕ} {xs : List α} (h : i < (windows size xs).length) :
    (windows size xs)[i] = slice i (i + size) xs := by
  simp [windows]

/-- The windows of mapped elements are the mapped windows. -/
theorem windows_map (f : α → β) (size : ℕ) (xs : List α) :
    windows size (xs.map f) = (windows size xs).map (List.map f) := by
  simp [windows]

/-! ### The first occurrence -/

/-- The answer of a search for the first index, from `start` on, with a property. -/
def IsFirst (P : ℕ → Prop) (start : ℕ) : Option ℕ → Prop
  | some i => start ≤ i ∧ P i ∧ ∀ j, start ≤ j → j < i → ¬ P j
  | none => ∀ j, start ≤ j → ¬ P j

/-- A search has one answer. -/
theorem IsFirst.unique {P : ℕ → Prop} {start : ℕ} {a b : Option ℕ} (ha : IsFirst P start a)
    (hb : IsFirst P start b) : a = b := by
  cases a with
  | none =>
      cases b with
      | none => rfl
      | some j => exact absurd hb.2.1 (ha j hb.1)
  | some i =>
      cases b with
      | none => exact absurd ha.2.1 (hb i ha.1)
      | some j =>
          obtain ⟨hi, hPi, hbefore⟩ := ha
          obtain ⟨hj, hPj, hbefore'⟩ := hb
          rcases Nat.lt_trichotomy i j with hlt | rfl | hgt
          · exact absurd hPi (hbefore' i hi hlt)
          · rfl
          · exact absurd hPj (hbefore j hj hgt)

/-- One list occurs in another at an index. -/
def OccursAt (xs needle : List α) (i : ℕ) : Prop :=
  i + needle.length ≤ xs.length ∧ slice i (i + needle.length) xs = needle

/-- **The search through the windows** finds the first occurrence. -/
theorem isFirst_findWindow (xs : List α) {needle : List α} {p : List α → Bool}
    (hp : ∀ w, p w = true ↔ w = needle) (hne : needle ≠ []) (start : ℕ) :
    IsFirst (OccursAt xs needle) start
      ((((windows needle.length xs).drop start).findIdx? p).map (· + start)) := by
  have hpos : 0 < needle.length := List.length_pos_iff.mpr hne
  have hwindow : ∀ i (h : i < ((windows needle.length xs).drop start).length),
      p ((windows needle.length xs).drop start)[i] = true ↔ OccursAt xs needle (i + start) := by
    intro i h
    rw [hp, List.getElem_drop, getElem_windows, OccursAt, Nat.add_comm i start]
    simp only [List.length_drop, length_windows] at h
    exact ⟨fun heq => ⟨by omega, heq⟩, fun hat => hat.2⟩
  cases hfind : ((windows needle.length xs).drop start).findIdx? p with
  | none =>
      intro j hj hat
      rw [List.findIdx?_eq_none_iff] at hfind
      have hlt : j - start < ((windows needle.length xs).drop start).length := by
        simp only [List.length_drop, length_windows]
        have hle := hat.1
        omega
      have hfalse := hfind _ (List.getElem_mem hlt)
      have htrue := (hwindow (j - start) hlt).mpr (by rwa [Nat.sub_add_cancel hj])
      rw [htrue] at hfalse
      cases hfalse
  | some i =>
      obtain ⟨hlt, hi, hbefore⟩ := List.findIdx?_eq_some_iff_getElem.mp hfind
      refine ⟨Nat.le_add_left _ _, (hwindow i hlt).mp hi, fun j hj hji hat => ?_⟩
      have hji : j - start < i := by
        have hlt : j < i + start := hji
        omega
      refine hbefore (j - start) hji ((hwindow _ (Nat.lt_trans hji hlt)).mpr ?_)
      rwa [Nat.sub_add_cancel hj]

/-- The empty list occurs first at the start of the search. -/
theorem isFirst_nil (xs : List α) (start : ℕ) :
    IsFirst (OccursAt xs []) start (if start ≤ xs.length then some start else none) := by
  split
  · next hle => exact ⟨le_rfl, ⟨hle, by simp [slice]⟩, fun j hj hlt => absurd hj (by omega)⟩
  · next hgt =>
      intro j hj hat
      have hle : j ≤ xs.length := hat.1
      omega

/-! ### Trimming -/

/-- The index of the last element with a property (`rposition`). -/
def rposition (p : α → Bool) (xs : List α) : Option ℕ :=
  (xs.reverse.findIdx? p).map fun i => xs.length - 1 - i

/-- A search from the end in mapped elements is a search with the composed test. -/
@[simp] theorem rposition_map (f : α → β) (p : β → Bool) (xs : List α) :
    rposition p (xs.map f) = rposition (p ∘ f) xs := by
  simp [rposition, ← List.map_reverse]

variable {p : α → Bool} {xs : List α}

/-- What is left after dropping a front begins at the first element that fails the test. -/
theorem dropWhile_of_findIdx?_eq_some {i : ℕ} (h : xs.findIdx? (fun x => !p x) = some i) :
    i < xs.length ∧ xs.dropWhile p = xs.drop i := by
  induction xs generalizing i with
  | nil => cases h
  | cons x xs ih =>
      rw [List.findIdx?_cons] at h
      cases hx : p x with
      | false =>
          simp only [hx, Bool.not_false, if_true, Option.some.injEq] at h
          subst h
          simp [hx]
      | true =>
          simp only [hx, Bool.not_true, Bool.false_eq_true, if_false, Option.map_eq_some_iff] at h
          obtain ⟨j, hj, rfl⟩ := h
          obtain ⟨hlt, heq⟩ := ih hj
          simp [hx, heq, hlt]

/-- If no element fails the test, nothing is left. -/
theorem dropWhile_of_findIdx?_eq_none (h : xs.findIdx? (fun x => !p x) = none) :
    xs.dropWhile p = [] := by
  rw [List.findIdx?_eq_none_iff] at h
  exact List.dropWhile_eq_nil_iff.mpr fun x hx => by simpa using h x hx

/-- What is left after dropping from the end ends with the last element that fails the test. -/
theorem rdropWhile_of_rposition_eq_some {i : ℕ} (h : rposition (fun x => !p x) xs = some i) :
    i < xs.length ∧ xs.rdropWhile p = xs.take (i + 1) := by
  obtain ⟨j, hj, rfl⟩ := Option.map_eq_some_iff.mp h
  obtain ⟨hlt, heq⟩ := dropWhile_of_findIdx?_eq_some hj
  rw [List.length_reverse] at hlt
  refine ⟨by omega, ?_⟩
  rw [List.rdropWhile, heq, List.drop_reverse, List.reverse_reverse]
  congr 1
  omega

/-- If no element fails the test, nothing is left. -/
theorem rdropWhile_of_rposition_eq_none (h : rposition (fun x => !p x) xs = none) :
    xs.rdropWhile p = [] := by
  rw [rposition, Option.map_eq_none_iff] at h
  rw [List.rdropWhile, dropWhile_of_findIdx?_eq_none h, List.reverse_nil]

/-- An element found from the front is found from the back, too. -/
theorem exists_rposition {i : ℕ} (hi : xs.findIdx? p = some i) : ∃ j, rposition p xs = some j := by
  obtain ⟨hlt, hx, -⟩ := List.findIdx?_eq_some_iff_getElem.mp hi
  cases hj : rposition p xs with
  | some j => exact ⟨j, rfl⟩
  | none =>
      rw [rposition, Option.map_eq_none_iff, List.findIdx?_eq_none_iff] at hj
      have hfalse := hj _ (List.mem_reverse.mpr (List.getElem_mem hlt))
      rw [hx] at hfalse
      cases hfalse

/-- **Trimming** leaves what is between the first and the last element to be kept. -/
theorem slice_trimmed {i j : ℕ} (hi : xs.findIdx? (fun x => !p x) = some i)
    (hj : rposition (fun x => !p x) xs = some j) :
    i ≤ j ∧ slice i (j + 1) xs = (xs.dropWhile p).rdropWhile p := by
  obtain ⟨hilt, hfront⟩ := dropWhile_of_findIdx?_eq_some hi
  obtain ⟨hjlt, hback⟩ := rdropWhile_of_rposition_eq_some hj
  obtain ⟨_, hx, -⟩ := List.findIdx?_eq_some_iff_getElem.mp hi
  have hne : (xs.drop i).rdropWhile p ≠ [] := by
    rw [Ne, List.rdropWhile_eq_nil_iff]
    intro hall
    have hp := hall xs[i] (List.drop_eq_getElem_cons hilt ▸ List.mem_cons_self)
    simp [hp] at hx
  -- The last element to be kept is behind the first one.
  have hsplit : xs.take (j + 1) = xs.take i ++ (xs.drop i).rdropWhile p := by
    have hempty : ((xs.drop i).reverse.dropWhile p).isEmpty = false := by
      rw [List.isEmpty_eq_false_iff]
      exact fun h => hne (by rw [List.rdropWhile, h, List.reverse_nil])
    have happend : xs.reverse.dropWhile p =
        (xs.drop i).reverse.dropWhile p ++ (xs.take i).reverse := by
      rw [← List.take_append_drop i xs, List.reverse_append, List.dropWhile_append]
      simp [hempty]
    rw [← hback, List.rdropWhile, happend]
    simp [List.rdropWhile]
  have hlength : i ≤ j := by
    have hlen := congrArg List.length hsplit
    have hpos := List.length_pos_iff.mpr hne
    simp only [List.length_append, List.length_take] at hlen
    omega
  refine ⟨hlength, ?_⟩
  rw [hfront, slice, hsplit]
  exact List.drop_left' (by simp; omega)

/-! ### Sublists -/

/-- A sublist of distinct elements is the list of its elements. -/
theorem eq_filter_of_sublist {sub : List α} (hsub : sub.Sublist xs) (hnd : xs.Nodup)
    (hp : ∀ x ∈ xs, x ∈ sub ↔ p x = true) : sub = xs.filter p := by
  induction hsub with
  | slnil => rfl
  | cons x hsub ih =>
      obtain ⟨hfresh, hnd⟩ := List.nodup_cons.mp hnd
      have hx : ¬ p x = true := fun hpx => hfresh (hsub.subset ((hp x (by simp)).mpr hpx))
      rw [List.filter_cons_of_neg hx]
      exact ih hnd fun y hy => hp y (List.mem_cons_of_mem _ hy)
  | cons_cons x hsub ih =>
      obtain ⟨hfresh, hnd⟩ := List.nodup_cons.mp hnd
      have hx : p x = true := (hp x (by simp)).mp (by simp)
      rw [List.filter_cons_of_pos hx, ← ih hnd fun y hy => ?_]
      have hne : y ≠ x := fun heq => hfresh (heq ▸ hy)
      simpa [hne] using hp y (List.mem_cons_of_mem _ hy)

/-- Leaving out more makes the sum over a filtered list no larger. -/
theorem sum_filter_le {p q : α → Bool} (f : α → ℕ) (hqp : ∀ x, q x = true → p x = true)
    (xs : List α) : ((xs.filter q).map f).sum ≤ ((xs.filter p).map f).sum := by
  induction xs with
  | nil => exact Nat.le_refl _
  | cons x xs ih =>
      simp only [List.filter_cons]
      split
      · next hq =>
          rw [if_pos (hqp x hq)]
          simp only [List.map_cons, List.sum_cons]
          omega
      · split
        · simp only [List.map_cons, List.sum_cons]
          omega
        · exact ih

/-- Leaving out an element makes the sum over a filtered list smaller. -/
theorem sum_filter_add_le {p q : α → Bool} {f : α → ℕ} (hqp : ∀ x, q x = true → p x = true)
    {x : α} (hx : x ∈ xs) (hpx : p x = true) (hqx : q x = false) :
    ((xs.filter q).map f).sum + f x ≤ ((xs.filter p).map f).sum := by
  induction xs with
  | nil => cases hx
  | cons y ys ih =>
      rcases List.mem_cons.mp hx with rfl | hx
      · rw [List.filter_cons_of_pos hpx, List.filter_cons_of_neg (by simp [hqx])]
        simp only [List.map_cons, List.sum_cons]
        have hrest := sum_filter_le f hqp ys
        omega
      · have hrest := ih hx
        simp only [List.filter_cons]
        split
        · next hq =>
            rw [if_pos (hqp y hq)]
            simp only [List.map_cons, List.sum_cons]
            omega
        · split
          · simp only [List.map_cons, List.sum_cons]
            omega
          · exact hrest

/-! ### Comparison -/

/-- Lists are compared element by element. -/
theorem compareLex_map {cmp : α → α → Ordering} {cmp' : β → β → Ordering} {f : α → β}
    (h : ∀ x y, cmp' (f x) (f y) = cmp x y) (xs ys : List α) :
    List.compareLex cmp' (xs.map f) (ys.map f) = List.compareLex cmp xs ys := by
  induction xs generalizing ys with
  | nil => cases ys <;> simp [List.compareLex_nil_nil, List.compareLex_nil_cons]
  | cons x xs ih =>
      cases ys with
      | nil => simp [List.compareLex_cons_nil]
      | cons y ys => simp [List.compareLex_cons_cons, h, ih]

end Sequence
