import Mathlib.Data.List.Destutter

/-!
# Nested Ranges

Labelled half-open ranges that are nested in each other, and the list of segments that they
are flattened to: where one begins, another label holds.

## Main results

* `NestedRanges.lookup_flatten` — the flattened list gives the label of the innermost range.
* `NestedRanges.flatten_sorted` — its segments begin one behind the other.
* `lookup_destutter` — leaving out a segment with the label of the one before loses nothing.
-/

/-! ### Lists of segments -/

section Lookup

variable {α : Type*}

/-- The label of the last segment that begins at or in front of a position. -/
def lookup (l : List (ℕ × α)) (pc : ℕ) : Option α :=
  (l.filter fun x => x.1 ≤ pc).getLast?.map Prod.snd

variable {l l' : List (ℕ × α)} {pc : ℕ}

@[simp] theorem lookup_nil : lookup ([] : List (ℕ × α)) pc = none := rfl

/-- The segments further back come first. -/
theorem lookup_append : lookup (l ++ l') pc = (lookup l' pc).or (lookup l pc) := by
  simp only [lookup, List.filter_append, List.getLast?_append]
  cases (l'.filter fun x => decide (x.1 ≤ pc)).getLast? <;> rfl

theorem lookup_singleton (x : ℕ × α) :
    lookup [x] pc = if x.1 ≤ pc then some x.2 else none := by
  by_cases h : x.1 ≤ pc <;> simp [lookup, h]

theorem lookup_cons (x : ℕ × α) :
    lookup (x :: l) pc = (lookup l pc).or (if x.1 ≤ pc then some x.2 else none) := by
  rw [← List.singleton_append, lookup_append, lookup_singleton]

/-- In front of all segments there is no label. -/
theorem lookup_eq_none (h : ∀ x ∈ l, pc < x.1) : lookup l pc = none := by
  have hfilter : (l.filter fun x => decide (x.1 ≤ pc)) = [] := by
    rw [List.filter_eq_nil_iff]
    intro x hx
    simpa using h x hx
  simp [lookup, hfilter]

/-- Leaving out a segment that repeats the label of the one before, after a segment. -/
theorem lookup_destutter' {R : ℕ × α → ℕ × α → Prop} [DecidableRel R]
    (hR : ∀ x y, ¬ R x y → x.2 = y.2) (x : ℕ × α)
    (hsorted : (x :: l).Pairwise fun x y => x.1 ≤ y.1) :
    lookup (l.destutter' R x) pc = lookup (x :: l) pc := by
  induction l generalizing x with
  | nil => rfl
  | cons y l ih =>
      obtain ⟨hx, hl⟩ := List.pairwise_cons.mp hsorted
      by_cases h : R x y
      · rw [List.destutter'_cons_pos l h, lookup_cons, lookup_cons x, ih y hl]
      · have hxl : (x :: l).Pairwise fun x y => x.1 ≤ y.1 :=
          List.pairwise_cons.mpr ⟨fun z hz => hx z (List.mem_cons_of_mem _ hz), hl.of_cons⟩
        have hle := hx y List.mem_cons_self
        rw [List.destutter'_cons_neg l h, ih x hxl, lookup_cons x, lookup_cons x, lookup_cons y,
          hR x y h]
        cases lookup l pc with
        | some a => rfl
        | none =>
            by_cases hy : y.1 ≤ pc
            · simp [hy, Nat.le_trans hle hy]
            · simp [hy]

/-- **Leaving out segments** that repeat the label of the one before. -/
theorem lookup_destutter {R : ℕ × α → ℕ × α → Prop} [DecidableRel R]
    (hR : ∀ x y, ¬ R x y → x.2 = y.2) (hsorted : l.Pairwise fun x y => x.1 ≤ y.1) :
    lookup (l.destutter R) pc = lookup l pc := by
  cases l with
  | nil => rfl
  | cons x l => exact lookup_destutter' hR x hsorted

end Lookup

/-! ### Ranges -/

/-- Ranges that follow each other: the first one, with the ranges in it, and the rest. -/
inductive NestedRanges (α : Type*) where
  | nil
  | cons (start : ℕ) (label : α) (finish : ℕ) (children rest : NestedRanges α)
  deriving DecidableEq, Repr

namespace NestedRanges

variable {α : Type*}

/-- The ranges lie between two positions, in order. -/
def Ordered : NestedRanges α → ℕ → ℕ → Prop
  | nil, lo, hi => lo ≤ hi
  | cons start _ finish children rest, lo, hi =>
      lo ≤ start ∧ children.Ordered start finish ∧ rest.Ordered finish hi

/-- The label of the innermost range around a position. -/
def innermost : NestedRanges α → ℕ → Option α
  | nil, _ => none
  | cons start label finish children rest, pc =>
      if start ≤ pc ∧ pc < finish then some ((children.innermost pc).getD label)
      else rest.innermost pc

/-- The end of the last range of some length, or a default. -/
def current : NestedRanges α → ℕ → ℕ
  | nil, cur => cur
  | cons start _ finish _ rest, cur => rest.current (if start < finish then finish else cur)

/-- Close the last segment of a range at its end. -/
def close (l : List (ℕ × α)) (cur finish : ℕ) (label : α) : List (ℕ × α) :=
  l ++ if cur < finish then [(cur, label)] else []

/-- The segments of ranges inside a labelled one, which has come to a position; without the
segment that is left when all of them have ended. -/
def segments : NestedRanges α → ℕ → α → List (ℕ × α)
  | nil, _, _ => []
  | cons start label finish children rest, cur, outer =>
      if start < finish then
        close [] cur start outer ++
          close (children.segments start label) (children.current start) finish label ++
            rest.segments finish outer
      else rest.segments cur outer

/-- The segments of ranges that are in no other. -/
def flatten : NestedRanges α → List (ℕ × α)
  | nil => []
  | cons start label finish children rest =>
      close (children.segments start label) (children.current start) finish label ++ rest.flatten

section Ordered

variable {f : NestedRanges α} {lo hi cur pc : ℕ} {p : α}

theorem Ordered.le (h : f.Ordered lo hi) : lo ≤ hi := by
  induction f generalizing lo hi with
  | nil => exact h
  | cons start label finish children rest ihc ihr =>
      have := ihc h.2.1
      have := ihr h.2.2
      have := h.1
      omega

theorem Ordered.mono (h : f.Ordered lo hi) (hle : cur ≤ lo) : f.Ordered cur hi := by
  cases f with
  | nil => exact Nat.le_trans hle h
  | cons start label finish children rest => exact ⟨Nat.le_trans hle h.1, h.2⟩

/-- The position after the ranges. -/
theorem Ordered.current_mem (h : f.Ordered cur hi) : cur ≤ f.current cur ∧ f.current cur ≤ hi := by
  induction f generalizing cur with
  | nil => exact ⟨Nat.le_refl _, h⟩
  | cons start label finish children rest ihc ihr =>
      obtain ⟨hstart, hchildren, hrest⟩ := h
      have hle := hchildren.le
      by_cases hlt : start < finish
      · simp only [current, if_pos hlt]
        have := ihr hrest
        omega
      · simp only [current, if_neg hlt]
        exact ihr (hrest.mono (by omega))

theorem mem_close {l : List (ℕ × α)} {x : ℕ × α} {finish : ℕ} (h : x ∈ close l cur finish p) :
    x ∈ l ∨ x = (cur, p) ∧ cur < finish := by
  rcases List.mem_append.mp h with h | h
  · exact .inl h
  · by_cases hlt : cur < finish
    · exact .inr ⟨by simpa [hlt] using h, hlt⟩
    · simp [hlt] at h

/-- Where the segments begin. -/
theorem Ordered.segments_mem (h : f.Ordered cur hi) :
    ∀ x ∈ f.segments cur p, cur ≤ x.1 ∧ x.1 < f.current cur := by
  induction f generalizing cur p hi with
  | nil => nofun
  | cons start label finish children rest ihc ihr =>
      obtain ⟨hstart, hchildren, hrest⟩ := h
      have hle := hchildren.le
      intro x hx
      by_cases hlt : start < finish
      · simp only [segments, if_pos hlt, List.mem_append] at hx
        simp only [current, if_pos hlt]
        have hend := hrest.current_mem
        have hmid := hchildren.current_mem
        rcases hx with (hx | hx) | hx
        · rcases mem_close hx with hx | ⟨rfl, hcur⟩
          · cases hx
          · exact ⟨Nat.le_refl _, by omega⟩
        · rcases mem_close hx with hx | ⟨rfl, hcur⟩
          · have := ihc hchildren x hx
            omega
          · exact ⟨by omega, by omega⟩
        · have := ihr hrest x hx
          omega
      · simp only [segments, if_neg hlt] at hx
        simp only [current, if_neg hlt]
        exact ihr (hrest.mono (by omega)) x hx

/-- The segments of one range begin in it. -/
theorem Ordered.close_mem {children : NestedRanges α} {start finish : ℕ}
    (h : children.Ordered start finish) : ∀ x ∈ close (children.segments start p)
      (children.current start) finish p, start ≤ x.1 ∧ x.1 < finish := by
  intro x hx
  have hmid := h.current_mem
  rcases mem_close hx with hx | ⟨rfl, hcur⟩
  · have := h.segments_mem x hx
    omega
  · exact ⟨hmid.1, hcur⟩

/-- Lists that end where the next one begins. -/
theorem pairwise_append_of_bound {l l' : List (ℕ × α)} {b : ℕ}
    (hl : l.Pairwise fun x y => x.1 < y.1) (hl' : l'.Pairwise fun x y => x.1 < y.1)
    (h : ∀ x ∈ l, x.1 < b) (h' : ∀ x ∈ l', b ≤ x.1) :
    (l ++ l').Pairwise fun x y => x.1 < y.1 :=
  List.pairwise_append.mpr ⟨hl, hl', fun x hx y hy => Nat.lt_of_lt_of_le (h x hx) (h' y hy)⟩

theorem pairwise_close {l : List (ℕ × α)} {finish : ℕ} (hl : l.Pairwise fun x y => x.1 < y.1)
    (h : ∀ x ∈ l, x.1 < cur) : (close l cur finish p).Pairwise fun x y => x.1 < y.1 := by
  apply pairwise_append_of_bound hl _ h
  · intro x hx
    by_cases hlt : cur < finish
    · rw [if_pos hlt] at hx
      rw [List.mem_singleton.mp hx]
    · simp [hlt] at hx
  · by_cases hlt : cur < finish <;> simp [hlt]

/-- The segments begin one behind the other. -/
theorem Ordered.segments_sorted (h : f.Ordered cur hi) :
    (f.segments cur p).Pairwise fun x y => x.1 < y.1 := by
  induction f generalizing cur p hi with
  | nil => exact .nil
  | cons start label finish children rest ihc ihr =>
      obtain ⟨hstart, hchildren, hrest⟩ := h
      have hle := hchildren.le
      by_cases hlt : start < finish
      · simp only [segments, if_pos hlt]
        have hscope : (close (children.segments start label) (children.current start) finish
            label).Pairwise fun x y => x.1 < y.1 :=
          pairwise_close (ihc hchildren) fun x hx => (hchildren.segments_mem x hx).2
        have hfirst : (close [] cur start p ++ close (children.segments start label)
            (children.current start) finish label).Pairwise fun x y => x.1 < y.1 :=
          pairwise_append_of_bound (b := start) (pairwise_close .nil nofun) hscope
            (fun x hx => by
              rcases mem_close hx with hx | ⟨rfl, hcur⟩
              · cases hx
              · exact hcur)
            fun x hx => (hchildren.close_mem x hx).1
        refine pairwise_append_of_bound (b := finish) hfirst (ihr hrest) (fun x hx => ?_)
          fun x hx => (hrest.segments_mem x hx).1
        rcases List.mem_append.mp hx with hx | hx
        · rcases mem_close hx with hx | ⟨rfl, hcur⟩
          · cases hx
          · exact Nat.lt_trans hcur hlt
        · exact (hchildren.close_mem x hx).2
      · simp only [segments, if_neg hlt]
        exact ihr (hrest.mono (by omega))

/-- Where there is no range, there is none around. -/
theorem Ordered.innermost_eq_none (h : f.Ordered lo hi) (hpc : pc < lo ∨ hi ≤ pc) :
    f.innermost pc = none := by
  induction f generalizing lo with
  | nil => rfl
  | cons start label finish children rest ihc ihr =>
      obtain ⟨hstart, hchildren, hrest⟩ := h
      have hle := hchildren.le
      have hle' := hrest.le
      rw [innermost, if_neg (by omega)]
      exact ihr hrest (by omega)

/-- In an empty range there is nothing. -/
theorem Ordered.current_eq (h : f.Ordered cur cur) : f.current cur = cur := by
  have := h.current_mem
  omega

theorem lookup_close {l : List (ℕ × α)} {finish : ℕ} (hpc : pc < finish) :
    lookup (close l cur finish p) pc = lookup (l ++ [(cur, p)]) pc := by
  by_cases hlt : cur < finish
  · simp [close, hlt]
  · have hnot : ¬ cur ≤ pc := by omega
    simp [close, hlt, lookup_append, lookup_singleton, hnot]

/-- The segments of a range, with its last one, give what its inside gives. -/
theorem Ordered.lookup_range_of {start finish : ℕ} (h : f.Ordered start finish)
    (hpc : pc < finish) {v : Option α}
    (hin : start ≤ pc → lookup (f.segments start p ++ [(f.current start, p)]) pc = v) :
    lookup (close (f.segments start p) (f.current start) finish p) pc =
      if start ≤ pc then v else none := by
  by_cases hle : start ≤ pc
  · rw [lookup_close hpc, hin hle, if_pos hle]
  · rw [if_neg hle]
    apply lookup_eq_none
    intro x hx
    have := (h.close_mem x hx).1
    omega

/-- **The segments inside a range** give the label of the innermost one. -/
theorem Ordered.lookup_segments (h : f.Ordered cur hi) (hpc : cur ≤ pc) :
    lookup (f.segments cur p ++ [(f.current cur, p)]) pc = some ((f.innermost pc).getD p) := by
  induction f generalizing cur p hi with
  | nil => simp [segments, current, innermost, lookup_singleton, hpc]
  | cons start label finish children rest ihc ihr =>
      obtain ⟨hstart, hchildren, hrest⟩ := h
      have hle := hchildren.le
      by_cases hlt : start < finish
      · simp only [segments, current, if_pos hlt, List.append_assoc]
        rw [lookup_append, lookup_append]
        by_cases hbehind : finish ≤ pc
        · rw [innermost, if_neg (by omega), ihr hrest hbehind]
          rfl
        · -- in front of the end of the first range the others do not count
          have hafter : lookup (rest.segments finish p ++ [(rest.current finish, p)]) pc =
              none := by
            apply lookup_eq_none
            intro x hx
            rcases List.mem_append.mp hx with hx | hx
            · have := (hrest.segments_mem x hx).1
              omega
            · rw [List.mem_singleton.mp hx]
              have := hrest.current_mem
              omega
          rw [hafter, Option.none_or,
            hchildren.lookup_range_of (by omega) fun hin => ihc hchildren hin]
          by_cases hin : start ≤ pc
          · rw [if_pos hin, innermost, if_pos (by omega)]
            rfl
          · rw [if_neg hin, Option.none_or, innermost, if_neg (by omega),
              hrest.innermost_eq_none (by omega), lookup_close (by omega)]
            simp [lookup_singleton, hpc]
      · simp only [segments, current, if_neg hlt]
        rw [innermost, if_neg (by omega)]
        exact ihr (hrest.mono (by omega)) hpc

/-- The segments of a range, with its last one, give the label of the innermost one. -/
theorem Ordered.lookup_range {start finish : ℕ} (h : f.Ordered start finish)
    (hpc : pc < finish) :
    lookup (close (f.segments start p) (f.current start) finish p) pc =
      if start ≤ pc then some ((f.innermost pc).getD p) else none :=
  h.lookup_range_of hpc h.lookup_segments

end Ordered

/-! ### Outermost ranges -/

/-- The end of the last range, or a default. -/
def last : NestedRanges α → ℕ → ℕ
  | nil, lo => lo
  | cons _ _ finish _ rest, _ => rest.last finish

/-- The ranges follow each other without a gap, from a position on. -/
def ContiguousFrom : NestedRanges α → ℕ → Prop
  | nil, _ => True
  | cons start _ finish _ rest, lo => start = lo ∧ rest.ContiguousFrom finish

/-- The ranges follow each other without a gap. -/
def Contiguous : NestedRanges α → Prop
  | nil => True
  | cons _ _ finish _ rest => rest.ContiguousFrom finish

section Outermost

variable {f : NestedRanges α} {lo hi pc : ℕ}

/-- The end of the ranges. -/
theorem Ordered.last_mem (h : f.Ordered lo hi) : lo ≤ f.last lo ∧ f.last lo ≤ hi := by
  induction f generalizing lo with
  | nil => exact ⟨Nat.le_refl _, h⟩
  | cons start label finish children rest ihc ihr =>
      obtain ⟨hstart, hchildren, hrest⟩ := h
      have := hchildren.le
      have := ihr hrest
      rw [last]
      omega

/-- The ranges lie in front of their end. -/
theorem Ordered.up_to_last (h : f.Ordered lo hi) : f.Ordered lo (f.last lo) := by
  induction f generalizing lo with
  | nil => exact Nat.le_refl _
  | cons start label finish children rest ihc ihr => exact ⟨h.1, h.2.1, ihr h.2.2⟩

/-- Where the segments of the ranges begin. -/
theorem Ordered.flatten_mem (h : f.Ordered lo hi) :
    ∀ x ∈ f.flatten, lo ≤ x.1 ∧ x.1 < f.last lo := by
  induction f generalizing lo with
  | nil => nofun
  | cons start label finish children rest ihc ihr =>
      obtain ⟨hstart, hchildren, hrest⟩ := h
      have hle := hchildren.le
      have hlast := hrest.last_mem
      intro x hx
      rw [last]
      rcases List.mem_append.mp hx with hx | hx
      · have := hchildren.close_mem x hx
        omega
      · have := ihr hrest x hx
        omega

/-- **The segments begin one behind the other.** -/
theorem Ordered.flatten_sorted (h : f.Ordered lo hi) :
    f.flatten.Pairwise fun x y => x.1 < y.1 := by
  induction f generalizing lo with
  | nil => exact .nil
  | cons start label finish children rest ihc ihr =>
      obtain ⟨hstart, hchildren, hrest⟩ := h
      exact pairwise_append_of_bound
        (pairwise_close hchildren.segments_sorted fun x hx => (hchildren.segments_mem x hx).2)
        (ihr hrest) (fun x hx => (hchildren.close_mem x hx).2)
        fun x hx => (hrest.flatten_mem x hx).1

/-- Ranges without a gap cover everything up to their end. -/
theorem ContiguousFrom.innermost_isSome (h : f.ContiguousFrom lo) (hlo : lo ≤ pc)
    (hhi : pc < f.last lo) : (f.innermost pc).isSome := by
  induction f generalizing lo with
  | nil => exact absurd hhi (Nat.not_lt.mpr hlo)
  | cons start label finish children rest ihc ihr =>
      obtain ⟨rfl, hrest⟩ := h
      rw [innermost]
      by_cases hin : pc < finish
      · rw [if_pos ⟨hlo, hin⟩]
        rfl
      · rw [if_neg (by omega)]
        exact ihr hrest (by omega) hhi

theorem ContiguousFrom.contiguous (h : f.ContiguousFrom lo) : f.Contiguous := by
  cases f with
  | nil => trivial
  | cons start label finish children rest => exact h.2

/-- **The flattened list gives the label of the innermost range**, for ranges without a gap. -/
theorem Ordered.lookup_flatten (h : f.Ordered lo hi) (hcontiguous : f.Contiguous)
    (hpc : pc < f.last lo) : lookup f.flatten pc = f.innermost pc := by
  induction f generalizing lo with
  | nil => rfl
  | cons start label finish children rest ihc ihr =>
      obtain ⟨hstart, hchildren, hrest⟩ := h
      rw [flatten, lookup_append, innermost]
      by_cases hin : pc < finish
      · have hafter : lookup rest.flatten pc = none := by
          apply lookup_eq_none
          intro x hx
          have := (hrest.flatten_mem x hx).1
          omega
        rw [hafter, Option.none_or, hchildren.lookup_range hin]
        by_cases hle : start ≤ pc
        · rw [if_pos hle, if_pos ⟨hle, hin⟩]
        · rw [if_neg hle, if_neg (by omega), hrest.innermost_eq_none (by omega)]
      · have hsome := ContiguousFrom.innermost_isSome hcontiguous (by omega) hpc
        obtain ⟨v, hv⟩ := Option.isSome_iff_exists.mp hsome
        rw [ihr hrest (ContiguousFrom.contiguous hcontiguous) hpc, hv, if_neg (by omega)]
        rfl

end Outermost

end NestedRanges
