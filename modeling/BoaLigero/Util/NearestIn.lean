import Mathlib.Algebra.Order.Field.Basic
import Mathlib.Algebra.Order.Group.Abs
import Mathlib.Tactic.Linarith

/-!
# Nearest Elements of a Set of Numbers

The element of a set that is nearest to a number, and of two that are equally near the larger one.
Between two neighbours it is their midpoint that decides.

## Main results

* `Neighbours.isNearest_left`, `Neighbours.isNearest_right` — the nearest of two neighbours.
* `IsNearest.le_iff` — where a midpoint lies is read off the nearest element.
* `isNearest_iff_midpoints` — an element nearest to one number is nearest to another if no midpoint
  lies between the two.
-/

namespace NearestIn

variable {K : Type*} [Field K] [LinearOrder K] [IsStrictOrderedRing K]
  {s : Set K} {a b v w x y : K}

/-- The nearest element, the larger one of two. -/
structure IsNearest (s : Set K) (x v : K) : Prop where
  mem : v ∈ s
  le : ∀ w ∈ s, |v - x| ≤ |w - x|
  larger : ∀ w ∈ s, |w - x| = |v - x| → w ≤ v

/-- Two elements with none between them. -/
structure Neighbours (s : Set K) (a b : K) : Prop where
  left : a ∈ s
  right : b ∈ s
  lt : a < b
  gap : ∀ w ∈ s, w ≤ a ∨ b ≤ w

omit [IsStrictOrderedRing K] in
theorem IsNearest.unique (h : IsNearest s x v) (h' : IsNearest s x w) : v = w := by
  have heq : |w - x| = |v - x| := le_antisymm (h'.le v h.mem) (h.le w h'.mem)
  exact le_antisymm (h'.larger v h.mem heq.symm) (h.larger w h'.mem heq)

theorem isNearest_self (h : x ∈ s) : IsNearest s x x where
  mem := h
  le w _ := by
    rw [sub_self, abs_zero]
    exact abs_nonneg _
  larger w _ heq := by
    rw [sub_self, abs_zero, abs_eq_zero, sub_eq_zero] at heq
    exact heq.le

/-- From the midpoint on the upper neighbour is nearest. -/
theorem Neighbours.isNearest_right (h : Neighbours s a b) (hmid : (a + b) / 2 ≤ x) (hx : x ≤ b) :
    IsNearest s x b := by
  have hlt := h.lt
  have hb : |b - x| = b - x := abs_of_nonneg (sub_nonneg.mpr hx)
  refine ⟨h.right, fun w hw => ?_, fun w hw heq => ?_⟩
  · rcases h.gap w hw with hwa | hbw
    · rw [hb, abs_of_nonpos (by linarith)]
      linarith
    · rw [hb, abs_of_nonneg (by linarith)]
      linarith
  · rcases h.gap w hw with hwa | hbw
    · exact hwa.trans hlt.le
    · rw [hb, abs_of_nonneg (by linarith)] at heq
      linarith

/-- Below the midpoint the lower neighbour is nearest. -/
theorem Neighbours.isNearest_left (h : Neighbours s a b) (hx : a ≤ x) (hmid : x < (a + b) / 2) :
    IsNearest s x a := by
  have hlt := h.lt
  have ha : |a - x| = x - a := by rw [abs_of_nonpos (by linarith), neg_sub]
  refine ⟨h.left, fun w hw => ?_, fun w hw heq => ?_⟩
  · rcases h.gap w hw with hwa | hbw
    · rw [ha, abs_of_nonpos (by linarith)]
      linarith
    · rw [ha, abs_of_nonneg (by linarith)]
      linarith
  · rcases h.gap w hw with hwa | hbw
    · exact hwa
    · rw [ha, abs_of_nonneg (by linarith)] at heq
      linarith

/-- **Where a midpoint lies** is read off the nearest element. -/
theorem IsNearest.le_iff (h : IsNearest s x v) (hab : Neighbours s a b) :
    (a + b) / 2 ≤ x ↔ b ≤ v := by
  have hlt := hab.lt
  constructor
  · intro hmid
    rcases hab.gap v h.mem with hva | hbv
    · -- the upper neighbour is at least as near
      have hle := h.le b hab.right
      have hlarger := h.larger b hab.right
      rw [abs_of_nonpos (show v - x ≤ 0 by linarith)] at hle hlarger
      rcases le_total x b with hxb | hbx
      · rw [abs_of_nonneg (sub_nonneg.mpr hxb)] at hle hlarger
        exact hlarger (by linarith)
      · rw [abs_of_nonpos (sub_nonpos.mpr hbx)] at hle
        linarith
    · exact hbv
  · intro hbv
    by_contra hmid
    rw [not_le] at hmid
    -- the lower neighbour is nearer
    have hle := h.le a hab.left
    rw [abs_of_nonneg (show 0 ≤ v - x by linarith)] at hle
    rcases le_total a x with hax | hxa
    · rw [abs_of_nonpos (sub_nonpos.mpr hax)] at hle
      linarith
    · rw [abs_of_nonneg (sub_nonneg.mpr hxa)] at hle
      linarith

/-- **The nearest elements of two numbers are the same** if no midpoint separates the numbers. -/
theorem isNearest_iff_midpoints (hs : ∀ v ∈ s, ∃ b, Neighbours s v b)
    (hx : ∃ v, IsNearest s x v) (hy : IsNearest s y w) :
    IsNearest s x w ↔ ∀ a b, Neighbours s a b → ((a + b) / 2 ≤ x ↔ (a + b) / 2 ≤ y) := by
  constructor
  · intro h a b hab
    rw [h.le_iff hab, hy.le_iff hab]
  · intro hsame
    obtain ⟨v, hv⟩ := hx
    have hle {b c : K} (hc : Neighbours s b c) : c ≤ v ↔ c ≤ w := by
      rw [← hv.le_iff hc, ← hy.le_iff hc]
      exact hsame b c hc
    rcases lt_trichotomy v w with hlt | rfl | hgt
    · obtain ⟨c, hc⟩ := hs v hv.mem
      have hcw : c ≤ w := (hc.gap w hy.mem).resolve_left hlt.not_ge
      exact absurd ((hle hc).mpr hcw) hc.lt.not_ge
    · exact hv
    · obtain ⟨c, hc⟩ := hs w hy.mem
      have hcv : c ≤ v := (hc.gap v hv.mem).resolve_left hgt.not_ge
      exact absurd ((hle hc).mp hcv) hc.lt.not_ge

end NearestIn
