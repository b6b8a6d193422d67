import BoaLigero.Gc.Marking

/-!
# The Mark Phase

The phase goes through the boxes, then through the ephemerons and the weak maps, and then
through the pending ephemerons until none of them can be traced. Each step keeps what is
marked inside of a closed set (`Quiet`), and an ephemeron leaves the list of the pending ones
only when its value is marked (`Settled`).

## Main results

* `markHeap_spec` — marking ends; what is marked belongs to the closed set that bounds it and
  is closed itself; what is not marked is listed.
-/

namespace BoaLigero

open Liveness

variable {B E W : Type} [DecidableEq B] [DecidableEq E]

namespace Tracing

open BoaGc

variable {t t' t'' : Tracing B E W} {s : Handle B E → Prop} {gc₀ : BoaGc B E W}

/-! ### With an empty queue -/

/-- The invariant between the steps of the phase: besides, nothing is queued. -/
structure Quiet (gc₀ : BoaGc B E W) (s : Handle B E → Prop) (t : Tracing B E W) : Prop where
  tracking : Tracking gc₀ s t
  queue : t.queue = []

omit [DecidableEq B] [DecidableEq E] in
/-- With an empty queue, what is reached is marked. -/
theorem Quiet.reached_iff (h : Quiet gc₀ s t) (x : Handle B E) :
    t.Reached x ↔ t.gc.isMarked x = true := by
  rw [Reached, h.queue]
  simp

omit [DecidableEq B] [DecidableEq E] in
theorem Quiet.sound (h : Quiet gc₀ s t) {x : Handle B E} (hx : t.gc.isMarked x = true) : s x :=
  h.tracking.sound x (.inl hx)

omit [DecidableEq B] [DecidableEq E] in
/-- There is enough fuel. -/
theorem work_lt_fuel (t : Tracing B E W) : t.queue.length + work t.gc < t.fuel := by
  have hle := Sequence.sum_filter_le (p := fun _ => true)
    (fun b => (t.gc.box b).value.visited.length) (q := fun b => !t.gc.isMarked (.gc b))
    (fun _ _ => rfl) t.gc.strongs
  rw [List.filter_eq_self.mpr fun _ _ => rfl] at hle
  rw [fuel, work]
  omega

/-- **Draining** the queue. -/
theorem drain_spec (hs : Bound gc₀ s) (h : Tracking gc₀ s t) :
    ∃ t', t.drain = some t' ∧ Quiet gc₀ s t' ∧ Progress t t' := by
  obtain ⟨t', heq, ht', hprogress, hempty⟩ := traceUntilEmpty_spec hs h t.work_lt_fuel
  exact ⟨t', heq, ⟨ht', hempty⟩, hprogress⟩

theorem drain_of_empty (h : t.queue = []) : t.drain = some t := by
  rw [drain, fuel, traceUntilEmpty]
  split
  · rfl
  · next heq => rw [h] at heq; cases heq

omit [DecidableEq B] [DecidableEq E] in
/-- Tracing handles that belong to the set. -/
theorem Tracking.traces (h : Tracking gc₀ s t) {hs : List (Handle B E)} (hhs : ∀ x ∈ hs, s x)
    (htraces : Traces hs t t') : Tracking gc₀ s t' where
  marks := h.marks.trans htraces.marks
  sound x hx := by
    rcases hx with hm | ⟨b, hb, rfl⟩
    · rcases (htraces.isMarked x).mp hm with hm | ⟨hx, -⟩
      · exact h.sound x (.inl hm)
      · exact hhs x hx
    · rcases (htraces.queue b).mp hb with hb | hb
      · exact h.sound _ (.inr ⟨b, hb, rfl⟩)
      · exact hhs _ hb
  closed b hb x hx := by
    rcases (htraces.isMarked _).mp hb with hm | ⟨-, e, he⟩
    · exact htraces.progress.1.reached x (h.closed b hm x hx)
    · cases he

/-- Tracing a handle that belongs to the set, and draining the queue. -/
theorem Quiet.drain_traceHandle (hs : Bound gc₀ s) (h : Quiet gc₀ s t) {x : Handle B E}
    (hx : s x) : ∃ t', (t.traceHandle x).drain = some t' ∧ Quiet gc₀ s t' ∧ Marks t.gc t'.gc ∧
      t'.gc.isMarked x = true := by
  have htraces : Traces [x] t (t.traceHandle x) := trace_spec t [x]
  obtain ⟨t', heq, hquiet, hprogress⟩ :=
    drain_spec hs (h.tracking.traces (by simpa using hx) htraces)
  refine ⟨t', heq, hquiet, htraces.marks.trans hprogress.marks, (hquiet.reached_iff x).mp ?_⟩
  exact hprogress.reached x (htraces.progress.2 x (by simp))

/-! ### Boxes -/

/-- **The preliminary phase** marks the rooted boxes, and lists those that are not marked. -/
theorem markStrongs_spec (hs : Bound gc₀ s) {nodes : List B} (hnodes : ∀ b ∈ nodes, b ∈ gc₀.strongs)
    (h : Quiet gc₀ s t) :
    ∃ t' dead, markStrongs nodes t = some (t', dead) ∧ Quiet gc₀ s t' ∧ Marks t.gc t'.gc ∧
      (∀ b ∈ nodes, gc₀.isRooted (.gc b) = true → t'.gc.isMarked (.gc b) = true) ∧
      dead.Sublist nodes ∧ ∀ b ∈ nodes, t'.gc.isMarked (.gc b) = false → b ∈ dead := by
  induction nodes generalizing t with
  | nil => exact ⟨t, [], rfl, h, .refl _, by simp, .slnil, by simp⟩
  | cons node nodes ih =>
      have hnodes' : ∀ b ∈ nodes, b ∈ gc₀.strongs := fun b hb =>
        hnodes b (List.mem_cons_of_mem _ hb)
      rw [markStrongs]
      split
      · next hroot =>
          rw [h.tracking.marks.isRooted] at hroot
          have hnode : s (.gc node) := hs.closed.root _ ⟨hnodes node (by simp), hroot⟩
          obtain ⟨t₁, heq₁, hquiet₁, hmarks₁, hmarked₁⟩ := h.drain_traceHandle hs hnode
          obtain ⟨t', dead, heq, hquiet, hmarks, hrooted, hsub, hdead⟩ := ih hnodes' hquiet₁
          have hmarked : t'.gc.isMarked (.gc node) = true := hmarks.isMarked hmarked₁
          rw [traceHandle] at heq₁
          refine ⟨t', dead, by rw [heq₁]; exact heq, hquiet, hmarks₁.trans hmarks, ?_,
            hsub.cons node, ?_⟩
          · rintro b (_ | ⟨_, hb⟩) hroot
            · exact hmarked
            · exact hrooted b hb hroot
          · rintro b (_ | ⟨_, hb⟩) hfresh
            · rw [hmarked] at hfresh
              cases hfresh
            · exact hdead b hb hfresh
      · next hroot =>
          rw [h.tracking.marks.isRooted] at hroot
          obtain ⟨t', dead, heq, hquiet, hmarks, hrooted, hsub, hdead⟩ := ih hnodes' h
          refine ⟨t', _, by rw [heq]; rfl, hquiet, hmarks, ?_, ?_, ?_⟩
          · rintro b (_ | ⟨_, hb⟩) hroot'
            · exact absurd hroot' hroot
            · exact hrooted b hb hroot'
          · split
            · exact hsub.cons node
            · exact hsub.cons_cons node
          · rintro b (_ | ⟨_, hb⟩) hfresh
            · split
              · next hmarked =>
                  rw [hmarks.isMarked hmarked] at hfresh
                  cases hfresh
              · exact List.mem_cons_self
            · split
              · exact hdead b hb hfresh
              · exact List.mem_cons_of_mem _ (hdead b hb hfresh)

/-! ### Ephemerons -/

/-- An ephemeron that can be traced and has been. -/
def Settled (gc₀ : BoaGc B E W) (t : Tracing B E W) (eph : E) : Prop :=
  t.gc.traceable eph = true ∧
    ∀ x ∈ (gc₀.ephemeron eph).visited, t.gc.isMarked x = true

omit [DecidableEq B] [DecidableEq E] in
theorem traceable_mono {gc gc' : BoaGc B E W} (h : Marks gc gc') {eph : E}
    (heph : gc.traceable eph = true) : gc'.traceable eph = true := by
  rw [traceable, Bool.and_eq_true] at heph ⊢
  refine ⟨h.isMarked heph.1, ?_⟩
  rw [key_of_erase h.content]
  cases hkey : gc.key eph with
  | none => rfl
  | some key =>
      rw [hkey] at heph
      exact h.isMarked heph.2

omit [DecidableEq B] [DecidableEq E] in
theorem Settled.mono {eph : E} (h : Settled gc₀ t eph) (hmarks : Marks t.gc t'.gc) :
    Settled gc₀ t' eph :=
  ⟨traceable_mono hmarks h.1, fun x hx => hmarks.isMarked (h.2 x hx)⟩

/-- An ephemeron is traced if it can be. -/
theorem traceEphemeron_eq (t : Tracing B E W) (eph : E) :
    t.traceEphemeron eph =
      if t.gc.traceable eph = true then (t.trace (t.gc.ephemeron eph).visited, true)
      else (t, false) := by
  rw [traceEphemeron, traceable, key, EphemeronBox.visited]
  cases t.gc.isMarked (.ephemeron eph) with
  | false => rfl
  | true =>
      cases (t.gc.ephemeron eph).data with
      | none => rfl
      | some data => cases hkey : t.gc.isMarked (.gc data.1) <;> simp [hkey]

/-- What going to an ephemeron and draining the queue does. -/
structure Visits (gc₀ : BoaGc B E W) (s : Handle B E → Prop) (eph : E) (t t' : Tracing B E W) :
    Prop where
  quiet : Quiet gc₀ s t'
  marks : Marks t.gc t'.gc
  settled : t.gc.traceable eph = true → Settled gc₀ t' eph
  same : t.gc.traceable eph = false → t' = t

/-- **Going to an ephemeron.** -/
theorem Quiet.visits (hs : Bound gc₀ s) (h : Quiet gc₀ s t) (eph : E) :
    (t.traceEphemeron eph).2 = t.gc.traceable eph ∧
      ∃ t', (t.traceEphemeron eph).1.drain = some t' ∧ Visits gc₀ s eph t t' := by
  rw [traceEphemeron_eq]
  split
  · next htraceable =>
      rw [visited_of_erase h.tracking.marks.content]
      have htraces := trace_spec t (gc₀.ephemeron eph).visited
      have hvalue : ∀ x ∈ (gc₀.ephemeron eph).visited, s x := by
        intro x hx
        rw [traceable, Bool.and_eq_true] at htraceable
        obtain ⟨heph, hkey⟩ := htraceable
        rw [EphemeronBox.visited] at hx
        rw [key_of_erase h.tracking.marks.content, key] at hkey
        cases hdata : (gc₀.ephemeron eph).data with
        | none => simp [hdata] at hx
        | some data =>
            rw [hdata] at hx hkey
            exact hs.closed.gated _ _ _ (h.sound heph) (h.sound hkey)
              ⟨eph, data.1, data.2, rfl, rfl, hdata, hx⟩
      obtain ⟨t', heq, hquiet, hprogress⟩ := drain_spec hs (h.tracking.traces hvalue htraces)
      have hmarks : Marks t.gc t'.gc := htraces.marks.trans hprogress.marks
      refine ⟨htraceable.symm, t', heq, hquiet, hmarks, fun _ => ?_, fun hnot => ?_⟩
      · exact ⟨traceable_mono hmarks htraceable, fun x hx =>
          (hquiet.reached_iff x).mp (hprogress.reached x (htraces.progress.2 x hx))⟩
      · rw [htraceable] at hnot
        cases hnot
  · next hnot =>
      refine ⟨(Bool.not_eq_true _ ▸ hnot).symm, t, drain_of_empty h.queue, h, .refl _, ?_,
        fun _ => rfl⟩
      exact fun htraceable => absurd htraceable hnot

/-- What going through some ephemerons does: those that are not pending are settled. -/
structure Passes (gc₀ : BoaGc B E W) (s : Handle B E → Prop) (ephs : List E)
    (t t' : Tracing B E W) (pending : List E) : Prop where
  quiet : Quiet gc₀ s t'
  marks : Marks t.gc t'.gc
  sublist : pending.Sublist ephs
  settled : ∀ eph ∈ ephs, eph ∈ pending ∨ Settled gc₀ t' eph

omit [DecidableEq B] [DecidableEq E] in
/-- Going through one more ephemeron. -/
theorem Passes.cons {ephs pending : List E} {eph : E} (h : Visits gc₀ s eph t t')
    (h' : Passes gc₀ s ephs t' t'' pending) :
    Passes gc₀ s (eph :: ephs) t t'' (if t.gc.traceable eph then pending else eph :: pending) where
  quiet := h'.quiet
  marks := h.marks.trans h'.marks
  sublist := by
    split
    · exact h'.sublist.cons eph
    · exact h'.sublist.cons_cons eph
  settled d hd := by
    rcases List.mem_cons.mp hd with rfl | hd
    · split
      · next htraceable => exact .inr ((h.settled htraceable).mono h'.marks)
      · exact .inl List.mem_cons_self
    · rcases h'.settled d hd with hpending | hsettled
      · split
        · exact .inl hpending
        · exact .inl (List.mem_cons_of_mem _ hpending)
      · exact .inr hsettled

omit [DecidableEq B] [DecidableEq E] in
theorem Passes.nil (h : Quiet gc₀ s t) : Passes gc₀ s [] t t [] := ⟨h, .refl _, .slnil, by simp⟩

/-- Marking an ephemeron that belongs to the set. -/
theorem Quiet.markEphemeron (h : Quiet gc₀ s t) {eph : E} (heph : s (.ephemeron eph)) :
    Quiet gc₀ s { t with gc := t.gc.mapHeader (.ephemeron eph) .mark } :=
  ⟨h.tracking.traces (by simpa using heph) (trace_spec t [.ephemeron eph]), h.queue⟩

/-- **The first pass** marks the rooted ephemerons. -/
theorem markWeaks_spec (hs : Bound gc₀ s) {ephs : List E} (hephs : ∀ e ∈ ephs, e ∈ gc₀.weaks)
    (h : Quiet gc₀ s t) :
    ∃ t' pending, markWeaks ephs t = some (t', pending) ∧ Passes gc₀ s ephs t t' pending ∧
      ∀ e ∈ ephs, gc₀.isRooted (.ephemeron e) = true → t'.gc.isMarked (.ephemeron e) = true := by
  induction ephs generalizing t with
  | nil => exact ⟨t, [], rfl, .nil h, by simp⟩
  | cons eph ephs ih =>
      have hephs' : ∀ e ∈ ephs, e ∈ gc₀.weaks := fun e he => hephs e (List.mem_cons_of_mem _ he)
      rw [markWeaks]
      -- The heap in which the ephemeron is marked, if it is rooted.
      obtain ⟨t₁, heq₁, hquiet₁, hmarks₁, hrooted₁⟩ : ∃ t₁,
          (if t.gc.isRooted (.ephemeron eph) = true then
            { t with gc := t.gc.mapHeader (.ephemeron eph) .mark } else t) = t₁ ∧
          Quiet gc₀ s t₁ ∧ Marks t.gc t₁.gc ∧
          (gc₀.isRooted (.ephemeron eph) = true → t₁.gc.isMarked (.ephemeron eph) = true) := by
        rw [h.tracking.marks.isRooted]
        split
        · next hroot =>
            have heph : s (.ephemeron eph) := hs.closed.root _ ⟨hephs eph (by simp), hroot⟩
            have hmarked := (isMarked_mark_iff t.gc (.ephemeron eph) (.ephemeron eph)).mpr (.inl rfl)
            exact ⟨_, rfl, h.markEphemeron heph, .mark t.gc (.ephemeron eph), fun _ => hmarked⟩
        · next hroot => exact ⟨_, rfl, h, .refl _, fun hroot' => absurd hroot' hroot⟩
      obtain ⟨htraced, t₂, heq₂, hvisits⟩ := hquiet₁.visits hs eph
      obtain ⟨t', pending, heq, hpasses, hrooted⟩ := ih hephs' hvisits.quiet
      have hcons := hpasses.cons hvisits
      refine ⟨t', _, ?_, ⟨hcons.quiet, hmarks₁.trans hcons.marks, hcons.sublist, hcons.settled⟩, ?_⟩
      · simp only [heq₁, htraced, heq₂, heq, Option.bind_eq_bind, Option.bind_some]
      · rintro e (_ | ⟨_, he⟩) hroot
        · exact hcons.marks.isMarked (hrooted₁ hroot)
        · exact hrooted e he hroot

/-- **The weak maps** keep their ephemerons. -/
theorem traceWeakMaps_spec (hs : Bound gc₀ s) {ws : List W} (hws : ∀ w ∈ ws, w ∈ gc₀.weakMaps)
    (h : Quiet gc₀ s t) :
    ∃ t', traceWeakMaps ws t = some t' ∧ Quiet gc₀ s t' ∧ Marks t.gc t'.gc := by
  induction ws generalizing t with
  | nil => exact ⟨t, rfl, h, .refl _⟩
  | cons w ws ih =>
      have hws' : ∀ w ∈ ws, w ∈ gc₀.weakMaps := fun v hv => hws v (List.mem_cons_of_mem _ hv)
      rw [traceWeakMaps]
      split
      · have heph : s (.ephemeron (t.gc.weakMap w)) := by
          rw [weakMap_of_erase h.tracking.marks.content]
          exact hs.weakMaps w (hws w (by simp))
        obtain ⟨t₁, heq₁, hquiet₁, hmarks₁, -⟩ := h.drain_traceHandle hs heph
        obtain ⟨t', heq, hquiet, hmarks⟩ := ih hws' hquiet₁
        exact ⟨t', by rw [heq₁]; exact heq, hquiet, hmarks₁.trans hmarks⟩
      · obtain ⟨t', heq, hquiet, hmarks⟩ := ih hws' h
        exact ⟨t', by rw [drain_of_empty h.queue]; exact heq, hquiet, hmarks⟩

/-- **A pass through the pending ephemerons.** If none is removed, none could be traced. -/
theorem retainPending_spec (hs : Bound gc₀ s) (ephs : List E) (h : Quiet gc₀ s t) :
    ∃ t' pending, retainPending ephs t = some (t', pending) ∧ Passes gc₀ s ephs t t' pending ∧
      (ephs.length = pending.length → t' = t ∧ ∀ e ∈ ephs, t.gc.traceable e = false) := by
  induction ephs generalizing t with
  | nil => exact ⟨t, [], rfl, .nil h, fun _ => ⟨rfl, by simp⟩⟩
  | cons eph ephs ih =>
      obtain ⟨htraced, t₁, heq₁, hvisits⟩ := h.visits hs eph
      obtain ⟨t', pending, heq, hpasses, hsame⟩ := ih hvisits.quiet
      refine ⟨t', _, ?_, hpasses.cons hvisits, ?_⟩
      · rw [retainPending]
        simp only [htraced, heq₁, heq, Option.bind_eq_bind, Option.bind_some]
      · have hle := hpasses.sublist.length_le
        cases htraceable : t.gc.traceable eph with
        | true =>
            rw [if_pos rfl, List.length_cons]
            omega
        | false =>
            rw [if_neg Bool.false_ne_true, List.length_cons, List.length_cons]
            intro hlength
            obtain ⟨rfl, hnone⟩ := hsame (by omega)
            have ht : t' = t := hvisits.same htraceable
            refine ⟨ht, ?_⟩
            rintro e (_ | ⟨_, he⟩)
            · exact htraceable
            · exact ht ▸ hnone e he

/-- **The ephemeron loop** ends, when none of the pending ephemerons can be traced. -/
theorem markPending_spec (hs : Bound gc₀ s) {fuel : ℕ} {ephs : List E} (h : Quiet gc₀ s t)
    (hfuel : ephs.length < fuel) :
    ∃ t' pending, markPending fuel ephs t = some (t', pending) ∧
      Passes gc₀ s ephs t t' pending ∧ ∀ e ∈ pending, t'.gc.traceable e = false := by
  induction fuel generalizing t ephs with
  | zero => omega
  | succ fuel ih =>
      obtain ⟨t₁, pending₁, heq₁, hpasses₁, hsame⟩ := retainPending_spec hs ephs h
      rw [markPending, heq₁]
      simp only [Option.bind_eq_bind, Option.bind_some]
      split
      · next hlength =>
          obtain ⟨rfl, hnone⟩ := hsame hlength
          exact ⟨t₁, pending₁, rfl, hpasses₁, fun e he => hnone e (hpasses₁.sublist.subset he)⟩
      · next hlength =>
          have hle := hpasses₁.sublist.length_le
          have hfuel₁ : pending₁.length < fuel := by omega
          obtain ⟨t', pending, heq, hpasses, hnone⟩ := ih hpasses₁.quiet hfuel₁
          refine ⟨t', pending, heq, ⟨hpasses.quiet, hpasses₁.marks.trans hpasses.marks,
            hpasses.sublist.trans hpasses₁.sublist, fun e he => ?_⟩, hnone⟩
          rcases hpasses₁.settled e he with hpending | hsettled
          · exact hpasses.settled e hpending
          · exact .inr (hsettled.mono hpasses.marks)

/-! ### The phase -/

/-- What a mark phase does. -/
structure MarksHeap (gc₀ : BoaGc B E W) (s : Handle B E → Prop) (t : Tracing B E W)
    (u : Unreachables B E) : Prop where
  queue : t.queue = []
  marks : Marks gc₀ t.gc
  sound : ∀ x, t.gc.isMarked x = true → s x
  closed : Closed (gc₀.graph fun x => gc₀.isRooted x = true) fun x => t.gc.isMarked x = true
  strong : u.strong = gc₀.strongs.filter fun b => !t.gc.isMarked (.gc b)
  weak : u.weak = gc₀.weaks.filter fun e => !t.gc.traceable e

omit [DecidableEq B] [DecidableEq E] in
/-- A box that is not marked at the end was not marked before. -/
theorem filter_dead {nodes dead : List B} (hnd : nodes.Nodup) (hsub : dead.Sublist nodes)
    (hdead : ∀ b ∈ nodes, t.gc.isMarked (.gc b) = false → b ∈ dead) (hmarks : Marks t.gc t'.gc) :
    (dead.filter fun b => !t'.gc.isMarked (.gc b)) =
      nodes.filter fun b => !t'.gc.isMarked (.gc b) := by
  refine Sequence.eq_filter_of_sublist (List.filter_sublist.trans hsub) hnd fun b hb => ?_
  rw [List.mem_filter]
  refine and_iff_right_of_imp fun hfresh => hdead b hb ?_
  rw [Bool.not_eq_true'] at hfresh
  rw [← Bool.not_eq_true] at hfresh ⊢
  exact fun hm => hfresh (hmarks.isMarked hm)

omit [DecidableEq B] [DecidableEq E] in
/-- If nothing is pending that can be traced, what is marked is closed. -/
theorem Quiet.closed_marked (hs : Bound gc₀ s) (h : Quiet gc₀ s t)
    (hboxes : ∀ b ∈ gc₀.strongs, gc₀.isRooted (.gc b) = true → t.gc.isMarked (.gc b) = true)
    (hephs : ∀ e ∈ gc₀.weaks, gc₀.isRooted (.ephemeron e) = true →
      t.gc.isMarked (.ephemeron e) = true)
    (hsettled : ∀ e ∈ gc₀.weaks, t.gc.traceable e = true → Settled gc₀ t e) :
    Closed (gc₀.graph fun x => gc₀.isRooted x = true) fun x => t.gc.isMarked x = true where
  root x hx := by
    cases x with
    | gc b => exact hboxes b hx.1 hx.2
    | ephemeron e => exact hephs e hx.1 hx.2
  edge x y hx := by
    rintro ⟨b, rfl, hy⟩
    exact (h.reached_iff y).mp (h.tracking.closed b hx y hy)
  gated x gate y hx hgate := by
    rintro ⟨e, key, value, rfl, rfl, hdata, hy⟩
    have htraceable : t.gc.traceable e = true := by
      rw [traceable, key_of_erase h.tracking.marks.content, BoaGc.key, hdata, Bool.and_eq_true]
      exact ⟨hx, hgate⟩
    refine (hsettled e (hs.owned _ (h.sound hx)) htraceable).2 y ?_
    rw [EphemeronBox.visited, hdata]
    exact hy

/-- **The mark phase** ends with a closed set of marks inside of the set that bounds it, and
with the lists of what is not marked and of the ephemerons that could not be traced. -/
theorem markHeap_spec (hs : Bound gc₀ s) (hstrongs : gc₀.strongs.Nodup) (hweaks : gc₀.weaks.Nodup)
    (h : Quiet gc₀ s ⟨gc₀, []⟩) :
    ∃ t u, markHeap ⟨gc₀, []⟩ = some (t, u) ∧ MarksHeap gc₀ s t u := by
  obtain ⟨t₁, dead, heq₁, hquiet₁, hmarks₁, hrooted, hsub, hdead⟩ :=
    markStrongs_spec hs (fun b hb => hb) h
  have hcontent := hquiet₁.tracking.marks.content
  rw [markHeap, heq₁]
  simp only [Option.bind_eq_bind, Option.bind_some]
  split
  · next hempty =>
      have hnil : gc₀.weaks = [] := by
        rw [← weaks_of_erase hcontent]
        exact List.isEmpty_iff.mp hempty
      refine ⟨_, _, rfl, hquiet₁.queue, hmarks₁, fun x => hquiet₁.sound, ?_,
        filter_dead hstrongs hsub hdead (.refl _), by rw [hnil]; rfl⟩
      exact hquiet₁.closed_marked hs hrooted (by simp [hnil]) (by simp [hnil])
  · next =>
      rw [weaks_of_erase hcontent]
      obtain ⟨t₂, pending₂, heq₂, hpasses₂, hrooted₂⟩ := markWeaks_spec hs (fun e he => he) hquiet₁
      rw [heq₂]
      simp only [Option.bind_some]
      rw [weakMaps_of_erase hpasses₂.quiet.tracking.marks.content]
      obtain ⟨t₃, heq₃, hquiet₃, hmarks₃⟩ :=
        traceWeakMaps_spec hs (fun w hw => hw) hpasses₂.quiet
      rw [heq₃]
      simp only [Option.bind_some]
      obtain ⟨t, pending, heq, hpasses, hnone⟩ :=
        markPending_spec hs hquiet₃ (Nat.lt_succ_self pending₂.length)
      rw [heq]
      simp only [Option.bind_some]
      have hmarks : Marks t₂.gc t.gc := hmarks₃.trans hpasses.marks
      have hmarks' : Marks t₁.gc t.gc := hpasses₂.marks.trans hmarks
      have hsettled : ∀ e ∈ gc₀.weaks, e ∈ pending ∨ Settled gc₀ t e := by
        intro e he
        rcases hpasses₂.settled e he with hpending | hsettled
        · exact hpasses.settled e hpending
        · exact .inr (hsettled.mono hmarks)
      refine ⟨_, _, rfl, hpasses.quiet.queue, hpasses.quiet.tracking.marks,
        fun x => hpasses.quiet.sound, ?_, filter_dead hstrongs hsub hdead hmarks', ?_⟩
      · refine hpasses.quiet.closed_marked hs
          (fun b hb hroot => hmarks'.isMarked (hrooted b hb hroot))
          (fun e he hroot => hmarks.isMarked (hrooted₂ e he hroot)) fun e he htraceable => ?_
        refine (hsettled e he).resolve_left fun hpending => ?_
        rw [hnone e hpending] at htraceable
        cases htraceable
      · refine Sequence.eq_filter_of_sublist (hpasses.sublist.trans hpasses₂.sublist) hweaks
          fun e he => ?_
        rw [Bool.not_eq_true']
        refine ⟨hnone e, fun hnot => (hsettled e he).resolve_right fun hsettled => ?_⟩
        rw [hsettled.1] at hnot
        cases hnot

end Tracing

end BoaLigero
