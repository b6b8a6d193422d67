import Mathlib.Logic.Function.Basic
import Mathlib.Data.Nat.Notation

/-!
# Sequences of Assignments

Assigning values to keys one after the other, in a function and in a list. Only the keys
decide what of the old values is left, so that assigning to the same keys again forgets the
first assignments.

## Main results

* `assign_assign` — the second of two sequences with the same keys counts.
* `setAll_setAll` — the same for the elements of a list.
-/

section Assign

variable {K V : Type*} [DecidableEq K]

/-- Assign values to keys, one after the other. -/
def assign (us : List (K × V)) (f : K → V) : K → V :=
  us.foldl (fun f u => Function.update f u.1 u.2) f

/-- No updates change nothing. -/
@[simp] theorem assign_nil (f : K → V) : assign [] f = f := rfl

/-- The first update is done first. -/
@[simp] theorem assign_cons (u : K × V) (us : List (K × V)) (f : K → V) :
    assign (u :: us) f = assign us (Function.update f u.1 u.2) := rfl

/-- Updates one after the other are done one after the other. -/
theorem assign_append (us us' : List (K × V)) (f : K → V) :
    assign (us ++ us') f = assign us' (assign us f) := by
  simp [assign]

variable {us us' : List (K × V)} {f g : K → V} {k : K}

/-- A key that is not assigned keeps its value. -/
theorem assign_of_notMem (h : k ∉ us.map Prod.fst) : assign us f k = f k := by
  induction us generalizing f with
  | nil => rfl
  | cons u us ih =>
      rw [List.map_cons, List.mem_cons, not_or] at h
      rw [assign_cons, ih h.2, Function.update_of_ne h.1]

/-- A key that is assigned forgets its value. -/
theorem assign_of_mem (h : k ∈ us.map Prod.fst) : assign us f k = assign us g k := by
  induction us generalizing f g with
  | nil => cases h
  | cons u us ih =>
      by_cases hmem : k ∈ us.map Prod.fst
      · exact ih hmem
      · obtain rfl : k = u.1 := by simpa [hmem] using h
        rw [assign_cons, assign_cons, assign_of_notMem hmem, assign_of_notMem hmem]
        simp

/-- **The second assignments count**, where the keys are the same. -/
theorem assign_assign (hkeys : us'.map Prod.fst = us.map Prod.fst) :
    assign us' (assign us f) = assign us' f := by
  funext k
  by_cases hmem : k ∈ us'.map Prod.fst
  · exact assign_of_mem hmem
  · rw [assign_of_notMem hmem, assign_of_notMem hmem, assign_of_notMem (hkeys ▸ hmem)]

/-- Assignments to other keys may be made before or after. -/
theorem assign_update (h : k ∉ us.map Prod.fst) (v : V) :
    assign us (Function.update f k v) = Function.update (assign us f) k v := by
  induction us generalizing f with
  | nil => rfl
  | cons u us ih =>
      rw [List.map_cons, List.mem_cons, not_or] at h
      rw [assign_cons, assign_cons, Function.update_comm h.1, ih h.2]

end Assign

section SetAll

variable {V : Type*}

/-- Set elements of a list, one after the other. -/
def setAll (us : List (ℕ × V)) (l : List V) : List V := us.foldl (fun l u => l.set u.1 u.2) l

/-- No updates change no list. -/
@[simp] theorem setAll_nil (l : List V) : setAll [] l = l := rfl

/-- The first update of a list is done first. -/
@[simp] theorem setAll_cons (u : ℕ × V) (us : List (ℕ × V)) (l : List V) :
    setAll (u :: us) l = setAll us (l.set u.1 u.2) := rfl

/-- Updates of a list do not change its length. -/
@[simp] theorem length_setAll (us : List (ℕ × V)) (l : List V) :
    (setAll us l).length = l.length := by
  induction us generalizing l with
  | nil => rfl
  | cons u us ih => rw [setAll_cons, ih, List.length_set]

/-- An element after the assignments. -/
theorem getElem?_setAll (us : List (ℕ × V)) (l : List V) (k : ℕ) :
    (setAll us l)[k]? = l[k]?.map fun old => assign us (fun _ => old) k := by
  induction us generalizing l with
  | nil => simp
  | cons u us ih =>
      rw [setAll_cons, ih, List.getElem?_set]
      by_cases hk : u.1 = k
      · subst hk
        have hself : ∀ old : V, Function.update (fun _ => old) u.1 u.2 u.1 = u.2 := by simp
        by_cases hlt : u.1 < l.length
        · simp only [if_pos hlt, if_true, Option.map_some, List.getElem?_eq_getElem hlt,
            assign_cons]
          by_cases hmem : u.1 ∈ us.map Prod.fst
          · exact congrArg some (assign_of_mem hmem)
          · rw [assign_of_notMem hmem, assign_of_notMem hmem, hself]
        · simp [hlt]
      · simp only [if_neg hk, assign_cons]
        congr 1
        funext old
        by_cases hmem : k ∈ us.map Prod.fst
        · exact assign_of_mem hmem
        · rw [assign_of_notMem hmem, assign_of_notMem hmem,
            Function.update_of_ne (Ne.symm hk)]

/-- **The second assignments count**, where the positions are the same. -/
theorem setAll_setAll {us us' : List (ℕ × V)} (hkeys : us'.map Prod.fst = us.map Prod.fst)
    (l : List V) : setAll us' (setAll us l) = setAll us' l := by
  apply List.ext_getElem?
  intro k
  simp only [getElem?_setAll, Option.map_map]
  congr 1
  funext old
  by_cases hmem : k ∈ us'.map Prod.fst
  · exact assign_of_mem hmem
  · simp [assign_of_notMem hmem, assign_of_notMem (hkeys ▸ hmem)]

end SetAll
