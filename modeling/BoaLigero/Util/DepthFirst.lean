import Mathlib.Data.Fintype.Card
import Mathlib.Logic.Relation

/-!
# Depth-First Order

A depth-first search through a finite graph from a vertex on, which keeps out of the
vertices to be skipped. A vertex is entered before its successors are searched and left
afterwards; the order in which vertices are left is the depth-first order.

The search is given a number of nested calls, of which there need be no more than vertices
that have not been entered.

## Main results

* `visits_visit` — what a search enters and leaves.
* `mem_order_iff` — the depth-first order has the vertices that can be reached.
* `reaches_iff_of_closed` — leaving out a closed set does not change what else is reached.
-/

namespace DepthFirst

variable {V : Type*}

/-- The vertices entered so far, and those left, latest last. -/
structure Visit (V : Type*) where
  entered : List V
  left : List V

section Search

variable [DecidableEq V] (next : V → List V) (skip : V → Bool)

/-- Search from a vertex. -/
def visit : ℕ → Visit V → V → Visit V
  | 0, t, _ => t
  | fuel + 1, t, v =>
      if skip v || v ∈ t.entered then t
      else
        let t := (next v).foldl (visit fuel) { t with entered := v :: t.entered }
        { t with left := t.left ++ [v] }

/-- The depth-first order from a vertex. -/
def order [Fintype V] (root : V) : List V :=
  (visit next skip (Fintype.card V + 1) ⟨[], []⟩ root).left

/-- One step to a vertex that is not skipped. -/
def Leads (v w : V) : Prop := w ∈ next v ∧ skip w = false

/-- The vertices that a search from `v` may enter. -/
def Reaches (v w : V) : Prop := skip v = false ∧ Relation.ReflTransGen (Leads next skip) v w

variable {next skip}

omit [DecidableEq V] in
theorem Reaches.head {v w x : V} (hv : skip v = false) (hw : w ∈ next v)
    (h : Reaches next skip w x) : Reaches next skip v x :=
  ⟨hv, .head ⟨hw, h.1⟩ h.2⟩

omit [DecidableEq V] in
/-- What is reached is not skipped. -/
theorem Reaches.skip_eq {v w : V} (h : Reaches next skip v w) : skip w = false := by
  obtain ⟨hv, hpath⟩ := h
  cases hpath with
  | refl => exact hv
  | tail _ hstep => exact hstep.2

omit [DecidableEq V] in
/-- Skipping a closed set of vertices, too, does not change which others are reached. -/
theorem reaches_iff_of_closed {skip' : V → Bool} {p : V → Prop}
    (hskip : ∀ x, skip' x = false ↔ skip x = false ∧ ¬ p x)
    (hclosed : ∀ x, p x → ∀ w ∈ next x, skip w = true ∨ p w) {v x : V} :
    Reaches next skip' v x ↔ Reaches next skip v x ∧ ¬ p x := by
  constructor
  · intro h
    refine ⟨⟨((hskip v).mp h.1).1, ?_⟩, ((hskip x).mp h.skip_eq).2⟩
    exact Relation.ReflTransGen.mono
      (fun y w hstep => ⟨hstep.1, ((hskip w).mp hstep.2).1⟩) _ _ h.2
  · rintro ⟨⟨hv, hpath⟩, hx⟩
    -- No vertex of the path is in the set, as the later ones would be.
    have hboth : ¬ p v ∧ Relation.ReflTransGen (Leads next skip') v x := by
      clear hv
      induction hpath using Relation.ReflTransGen.head_induction_on with
      | refl => exact ⟨hx, .refl⟩
      | head hstep _ ih =>
          obtain ⟨hnot, hrest⟩ := ih
          refine ⟨fun hin => ?_, .head ⟨hstep.1, (hskip _).mpr ⟨hstep.2, hnot⟩⟩ hrest⟩
          rcases hclosed _ hin _ hstep.1 with hskipped | hin'
          · simp [hstep.2] at hskipped
          · exact hnot hin'
    exact ⟨(hskip v).mpr ⟨hv, hboth.1⟩, hboth.2⟩

variable (next skip) in
/-- A search adds to the vertices left. -/
theorem left_prefix (fuel : ℕ) (t : Visit V) (v : V) :
    ∃ new, (visit next skip fuel t v).left = t.left ++ new := by
  induction fuel generalizing t v with
  | zero => exact ⟨[], by simp [visit]⟩
  | succ fuel ih =>
      have hfold : ∀ (vs : List V) (t : Visit V),
          ∃ new, (vs.foldl (visit next skip fuel) t).left = t.left ++ new := by
        intro vs
        induction vs with
        | nil => exact fun t => ⟨[], by simp⟩
        | cons w vs ihs =>
            intro t
            obtain ⟨new, hnew⟩ := ih t w
            obtain ⟨more, hmore⟩ := ihs (visit next skip fuel t w)
            exact ⟨new ++ more, by rw [List.foldl_cons, hmore, hnew, List.append_assoc]⟩
      rw [visit]
      split
      · exact ⟨[], by simp⟩
      · obtain ⟨new, hnew⟩ := hfold (next v) { t with entered := v :: t.entered }
        exact ⟨new ++ [v], by simp [hnew]⟩

variable (next skip) in
/-- Searches from one vertex after the other add to the vertices left. -/
theorem left_prefix_foldl (fuel : ℕ) (vs : List V) (t : Visit V) :
    ∃ new, (vs.foldl (visit next skip fuel) t).left = t.left ++ new := by
  induction vs generalizing t with
  | nil => exact ⟨[], by simp⟩
  | cons w vs ihs =>
      obtain ⟨new, hnew⟩ := left_prefix next skip fuel t w
      obtain ⟨more, hmore⟩ := ihs (visit next skip fuel t w)
      exact ⟨new ++ more, by rw [List.foldl_cons, hmore, hnew, List.append_assoc]⟩

end Search

/-! ### Fuel -/

section Fuel

variable [DecidableEq V] [Fintype V]

/-- How many vertices have not been entered. -/
def unentered (entered : List V) : ℕ := (Finset.univ.filter (· ∉ entered)).card

theorem unentered_cons_lt {entered : List V} {v : V} (hv : v ∉ entered) :
    unentered (v :: entered) < unentered entered := by
  refine Finset.card_lt_card ⟨fun x hx => ?_, fun hsub => ?_⟩
  · simp only [Finset.mem_filter, Finset.mem_univ, true_and, List.mem_cons, not_or] at hx ⊢
    exact hx.2
  · have hmem := hsub (Finset.mem_filter.mpr ⟨Finset.mem_univ v, hv⟩)
    simp at hmem

theorem unentered_le {entered entered' : List V} (hsub : entered ⊆ entered') :
    unentered entered' ≤ unentered entered := by
  refine Finset.card_le_card fun x hx => ?_
  simp only [Finset.mem_filter, Finset.mem_univ, true_and] at hx ⊢
  exact fun hin => hx (hsub hin)

theorem unentered_nil_lt : unentered ([] : List V) < Fintype.card V + 1 := by
  rw [unentered, Nat.lt_succ_iff]
  exact Finset.card_le_univ _

end Fuel

/-! ### What a search does -/

/-- Searches from vertices `vs` lead from `t` to `t'`. -/
structure Visits (next : V → List V) (skip : V → Bool) (vs : List V) (t t' : Visit V) :
    Prop where
  entered_sub : t.entered ⊆ t'.entered
  left_sub : t.left ⊆ t'.left
  new : ∀ x ∈ t'.entered, x ∉ t.entered → x ∈ t'.left ∧ ∃ v ∈ vs, Reaches next skip v x
  left_new : ∀ x ∈ t'.left, x ∉ t.left → x ∈ t'.entered ∧ x ∉ t.entered
  start : ∀ v ∈ vs, skip v = true ∨ v ∈ t'.entered
  closed : ∀ x ∈ t'.left, x ∉ t.left → ∀ w ∈ next x, skip w = true ∨ w ∈ t'.entered

namespace Visits

variable {next : V → List V} {skip : V → Bool} {vs ws : List V} {t t' t'' : Visit V}

theorem refl (t : Visit V) : Visits next skip [] t t where
  entered_sub _ hx := hx
  left_sub _ hx := hx
  new _ hx hnot := absurd hx hnot
  left_new _ hx hnot := absurd hx hnot
  start _ hv := nomatch hv
  closed _ hx hnot := absurd hx hnot

/-- One search after the other. -/
theorem trans (h : Visits next skip vs t t') (h' : Visits next skip ws t' t'') :
    Visits next skip (vs ++ ws) t t'' where
  entered_sub _ hx := h'.entered_sub (h.entered_sub hx)
  left_sub _ hx := h'.left_sub (h.left_sub hx)
  new x hx hnot := by
    by_cases hin : x ∈ t'.entered
    · obtain ⟨hleft, v, hv, hreach⟩ := h.new x hin hnot
      exact ⟨h'.left_sub hleft, v, List.mem_append_left _ hv, hreach⟩
    · obtain ⟨hleft, v, hv, hreach⟩ := h'.new x hx hin
      exact ⟨hleft, v, List.mem_append_right _ hv, hreach⟩
  left_new x hx hnot := by
    by_cases hin : x ∈ t'.left
    · obtain ⟨hentered, hfresh⟩ := h.left_new x hin hnot
      exact ⟨h'.entered_sub hentered, hfresh⟩
    · obtain ⟨hentered, hfresh⟩ := h'.left_new x hx hin
      exact ⟨hentered, fun hold => hfresh (h.entered_sub hold)⟩
  start v hv := by
    rcases List.mem_append.mp hv with hv | hv
    · exact (h.start v hv).imp_right fun hin => h'.entered_sub hin
    · exact h'.start v hv
  closed x hx hnot w hw := by
    by_cases hin : x ∈ t'.left
    · exact (h.closed x hin hnot w hw).imp_right fun hmem => h'.entered_sub hmem
    · exact h'.closed x hx hin w hw

end Visits

section Search

variable [DecidableEq V] [Fintype V] {next : V → List V} {skip : V → Bool}

/-- Searches from one vertex after the other, if each does what it should. -/
theorem visits_foldl_of {fuel : ℕ}
    (hvisit : ∀ {t : Visit V}, unentered t.entered < fuel → ∀ v, t.left ⊆ t.entered →
      Visits next skip [v] t (visit next skip fuel t v))
    {t : Visit V} (hfuel : unentered t.entered < fuel) (vs : List V) (hleft : t.left ⊆ t.entered) :
    Visits next skip vs t (vs.foldl (visit next skip fuel) t) := by
  induction vs generalizing t with
  | nil => exact .refl t
  | cons w vs ih =>
      have hfirst := hvisit hfuel w hleft
      refine hfirst.trans (ih ?_ fun x hx => ?_)
      · exact Nat.lt_of_le_of_lt (unentered_le hfirst.entered_sub) hfuel
      · by_cases hin : x ∈ t.left
        · exact hfirst.entered_sub (hleft hin)
        · exact (hfirst.left_new x hx hin).1

/-- **What a search does**, given as many nested calls as there are vertices to enter. -/
theorem visits_visit {fuel : ℕ} {t : Visit V} (hfuel : unentered t.entered < fuel) (v : V)
    (hleft : t.left ⊆ t.entered) : Visits next skip [v] t (visit next skip fuel t v) := by
  induction fuel generalizing t v with
  | zero => omega
  | succ fuel ih =>
      rw [visit]
      split
      · next hstop =>
          refine { Visits.refl t with new := fun _ hx hnot => absurd hx hnot, start := fun w hw => ?_ }
          obtain rfl := List.mem_singleton.mp hw
          simpa using hstop
      · next hgo =>
          simp only [Bool.or_eq_true, decide_eq_true_eq, not_or, Bool.not_eq_true] at hgo
          obtain ⟨hskip, hnew⟩ := hgo
          set s : Visit V := { t with entered := v :: t.entered } with hs
          have hlt : unentered s.entered < fuel := by
            have hless : unentered s.entered < unentered t.entered := unentered_cons_lt hnew
            omega
          -- The searches from the successors, one after the other.
          have hall := visits_foldl_of (fun hfuel v hleft => ih hfuel v hleft) hlt (next v)
            fun x hx => List.mem_cons_of_mem _ (hleft hx)
          set u := (next v).foldl (visit next skip fuel) s with hu
          have hvin : v ∈ u.entered := hall.entered_sub List.mem_cons_self
          refine ⟨fun x hx => hall.entered_sub (List.mem_cons_of_mem _ hx),
            fun x hx => List.mem_append_left _ (hall.left_sub hx), fun x hx hnot => ?_,
            fun x hx hnot => ?_, fun w hw => ?_, fun x hx hnot w hw => ?_⟩
          · by_cases hxv : x = v
            · subst hxv
              exact ⟨by simp, x, by simp, hskip, .refl⟩
            · obtain ⟨hin, w, hw, hreach⟩ := hall.new x hx (by simp [hs, hxv, hnot])
              exact ⟨List.mem_append_left _ hin, v, by simp, hreach.head hskip hw⟩
          · rcases List.mem_append.mp hx with hx | hx
            · obtain ⟨hin, hfresh⟩ := hall.left_new x hx hnot
              exact ⟨hin, fun hold => hfresh (List.mem_cons_of_mem _ hold)⟩
            · obtain rfl := List.mem_singleton.mp hx
              exact ⟨hvin, hnew⟩
          · obtain rfl := List.mem_singleton.mp hw
            exact .inr hvin
          · rcases List.mem_append.mp hx with hx | hx
            · exact hall.closed x hx hnot w hw
            · obtain rfl := List.mem_singleton.mp hx
              exact hall.start w hw

/-- Searches from one vertex after the other. -/
theorem visits_foldl {fuel : ℕ} {t : Visit V} (hfuel : unentered t.entered < fuel) (vs : List V)
    (hleft : t.left ⊆ t.entered) : Visits next skip vs t (vs.foldl (visit next skip fuel) t) :=
  visits_foldl_of (fun hfuel v hleft => visits_visit hfuel v hleft) hfuel vs hleft

/-- **The depth-first order** has the vertices that can be reached without skipped ones. -/
theorem mem_order_iff {root x : V} : x ∈ order next skip root ↔ Reaches next skip root x := by
  have h : Visits next skip [root] ⟨[], []⟩
      (visit next skip (Fintype.card V + 1) ⟨[], []⟩ root) :=
    visits_visit unentered_nil_lt root fun _ hx => hx
  constructor
  · intro hx
    obtain ⟨hin, hnot⟩ := h.left_new x hx List.not_mem_nil
    obtain ⟨-, v, hv, hreach⟩ := h.new x hin hnot
    obtain rfl := List.mem_singleton.mp hv
    exact hreach
  · rintro ⟨hroot, hpath⟩
    have hleft : ∀ y, y ∈ (visit next skip (Fintype.card V + 1) ⟨[], []⟩ root).entered →
        y ∈ order next skip root := fun y hy => (h.new y hy List.not_mem_nil).1
    induction hpath with
    | refl =>
        refine hleft root ((h.start root (by simp)).resolve_left ?_)
        simp [hroot]
    | tail _ hstep ih =>
        refine hleft _ ((h.closed _ ih List.not_mem_nil _ hstep.1).resolve_left ?_)
        simp [hstep.2]

end Search

end DepthFirst
