import BoaLigero.Gc.MarkHeap
import BoaLigero.Gc.Sweep
import Mathlib.Data.Fin.VecNotation
import Mathlib.Data.Fintype.Basic
import Mathlib.Tactic.FinCases

/-!
# Collections

A collection keeps what is live (`IsLive`): what is held from outside, what is in a box that is
live, and what is in the value of an ephemeron that is live and whose key is. The first mark
phase marks this set. Finalizers that do not resurrect leave it closed, and nothing outside of
it is rooted, so that the second mark phase marks nothing more.

## Main results

* `collect_keeps_live` — a collection ends; it drops exactly what is not live, and leaves a heap
  with clean headers in which no handle dangles.
-/

namespace BoaLigero

open Liveness

variable {B E W : Type} [DecidableEq B] [DecidableEq E]

namespace BoaGc

/-- **What is live**: the least set with what is held from outside that is closed under the
handles in boxes, and under those in ephemerons with a live key. -/
def IsLive (gc : BoaGc B E W) : Handle B E → Prop := Live (gc.graph gc.External)

/-- **What is left after a collection.** -/
structure Collected (gc gc' : BoaGc B E W) : Prop where
  strongs : gc'.strongs.Sublist gc.strongs ∧ ∀ b, b ∈ gc'.strongs ↔ gc.IsLive (.gc b)
  weaks : gc'.weaks.Sublist gc.weaks ∧ ∀ e, e ∈ gc'.weaks ↔ gc.IsLive (.ephemeron e)
  finalized : gc'.finalized.Nodup ∧
    ∀ b, b ∈ gc'.finalized ↔ b ∈ gc.strongs ∧ ¬ gc.IsLive (.gc b)
  dropped : gc'.dropped.Nodup ∧ ∀ b, b ∈ gc'.dropped ↔ b ∈ gc.strongs ∧ ¬ gc.IsLive (.gc b)
  key : ∀ e ∈ gc'.weaks, ∀ b, gc'.key e = some b ↔ gc.key e = some b ∧ b ∉ gc'.dropped
  weakMaps : ∀ w, w ∈ gc'.weakMaps ↔
    w ∈ gc.weakMaps ∧ ∃ map ∈ gc'.strongs, gc.key (gc.weakMap w) = some map
  entries : ∀ w ∈ gc'.weakMaps, ∀ map table, gc'.key (gc'.weakMap w) = some map →
    (gc'.box map).value = .weakMap .unused table → ∀ e ∈ table, gc'.hasValue e = true
  owned : gc'.Owned
  clean : ∀ x, gc'.Owns x → (gc'.header x).nonRootCell = 0
  unmarked : ∀ x, gc'.isMarked x = false
  size : (∀ b, (gc'.box b).size = (gc.box b).size) ∧
    ∀ e, (gc'.ephemeron e).size = (gc.ephemeron e).size
  bytes : gc'.bytesAllocated = gc'.size

variable {gc gc' : BoaGc B E W} {finalizer : Finalizer B E W}

/-! ### The first mark phase -/

/-- After the count, the roots are what is held from outside. -/
theorem graph_traceNonRoots (h : gc.Consistent) :
    (gc.traceNonRoots.graph fun x => gc.traceNonRoots.isRooted x = true) =
      gc.graph gc.External := by
  have herase := erase_traceNonRoots gc
  rw [graph, graph, Liveness.Graph.mk.injEq]
  refine ⟨funext fun x => propext ?_, ?_, ?_⟩
  · rw [owns_of_erase herase]
    exact and_congr_right fun hx => isRooted_traceNonRoots h hx
  · simp only [value_of_erase herase]
  · simp only [data_of_erase herase]

/-- What is live belongs to the heap. -/
theorem IsLive.owns (h : gc.Owned) {x : Handle B E} (hx : gc.IsLive x) : gc.Owns x := by
  have hclosed : Closed (gc.graph gc.External) gc.Owns := by
    refine ⟨fun y hy => hy.1, ?_, ?_⟩
    · rintro y z hy ⟨b, rfl, hz⟩
      exact h.fields b hy z hz
    · rintro y gate z hy - ⟨e, key, value, rfl, rfl, hdata, hz⟩
      exact (h.values e hy key value hdata).2 z hz
  exact Live.of_closed hclosed hx

/-- **The first mark phase** ends, inside of what is live. -/
theorem markHeap_traceNonRoots (h : gc.Consistent) :
    ∃ t u, Tracing.markHeap ⟨gc.traceNonRoots, []⟩ = some (t, u) ∧
      Tracing.MarksHeap gc.traceNonRoots gc.IsLive t u := by
  have herase := erase_traceNonRoots gc
  have hmarks : ∀ x, gc.traceNonRoots.isMarked x = false := fun x => (h.traceNonRoots x).2.2
  refine Tracing.markHeap_spec ?_ (strongs_of_erase herase ▸ h.strongs)
    (weaks_of_erase herase ▸ h.weaks) ⟨⟨.refl _, fun x hx => ?_, fun b hb => ?_⟩, rfl⟩
  · refine ⟨?_, fun x hx => ?_, fun w hw => ?_⟩
    · rw [graph_traceNonRoots h]
      exact ⟨fun _ => .root, fun _ _ => .edge, fun _ _ _ => .gated⟩
    · exact (owns_of_erase herase x).mpr (hx.owns h.owned)
    · rw [weakMaps_of_erase herase] at hw
      rw [weakMap_of_erase herase]
      exact .root ⟨h.weakMaps w hw, h.external_weakMap hw⟩
  · rcases hx with hm | ⟨b, hb, -⟩
    · rw [hmarks] at hm
      cases hm
    · cases hb
  · rw [hmarks] at hb
    cases hb

/-- **The first mark phase marks what is live.** -/
theorem isMarked_iff_isLive (h : gc.Consistent) {t : Tracing B E W} {u : Unreachables B E}
    (ht : Tracing.MarksHeap gc.traceNonRoots gc.IsLive t u) (x : Handle B E) :
    t.gc.isMarked x = true ↔ gc.IsLive x := by
  refine ⟨ht.sound x, fun hx => ?_⟩
  have hclosed := ht.closed
  rw [graph_traceNonRoots h] at hclosed
  exact Live.of_closed hclosed hx

omit [DecidableEq B] [DecidableEq E] in
/-- An ephemeron with a value can be traced if it and its key are marked. -/
theorem traceable_iff_of_key {e : E} {key : B} (hkey : gc.key e = some key) :
    gc.traceable e = true ↔
      gc.isMarked (.ephemeron e) = true ∧ gc.isMarked (.gc key) = true := by
  rw [traceable, hkey, Bool.and_eq_true]

omit [DecidableEq B] [DecidableEq E] in
/-- What is in an ephemeron comes with a key. -/
theorem exists_data_of_mem_content {e : E} {x : Handle B E} (hx : x ∈ gc.content (.ephemeron e)) :
    ∃ key value, (gc.ephemeron e).data = some (key, value) ∧ x ∈ value := by
  rw [content, EphemeronBox.visited] at hx
  cases hdata : (gc.ephemeron e).data with
  | none => simp [hdata] at hx
  | some data =>
      rw [hdata] at hx
      exact ⟨data.1, data.2, rfl, hx⟩

/-- There are no more handles to be dropped than are in the heap. -/
theorem pending_le_count_contents (gc : BoaGc B E W) (x : Handle B E) :
    gc.pending x ≤ gc.contents.count x := by
  have hle := Sequence.sum_filter_le (p := fun _ => true) (fun n => (gc.content n).count x)
    (q := gc.condemned) (fun _ _ => rfl) gc.nodes
  rw [List.filter_eq_self.mpr fun _ _ => rfl] at hle
  rw [contents, List.count_flatMap]
  exact hle

/-- **What is not live is condemned** by the first mark phase. -/
theorem condemned_of_marksHeap (h : gc.Consistent) {t : Tracing B E W} {u : Unreachables B E}
    (ht : Tracing.MarksHeap gc.traceNonRoots gc.IsLive t u) : t.gc.Condemned [] := by
  have herase : t.gc.erase = gc.erase := ht.marks.content.trans (erase_traceNonRoots gc)
  refine ⟨fun x hx y hy => ?_, fun x hx hdead => ?_, fun x hx hdead => ?_⟩
  · rw [content_of_erase ht.marks.content] at hy
    cases x with
    | gc b => exact ht.closed.edge _ y hx ⟨b, rfl, hy⟩
    | ephemeron e =>
        obtain ⟨key, value, hdata, hy⟩ := exists_data_of_mem_content hy
        have hkey : t.gc.key e = some key := by
          rw [key_of_erase ht.marks.content, BoaGc.key, hdata]
          rfl
        obtain ⟨heph, hgate⟩ := (traceable_iff_of_key hkey).mp hx
        exact ht.closed.gated _ _ y heph hgate ⟨e, key, value, rfl, rfl, hdata, hy⟩
  · rw [ht.marks.isRooted, ← Bool.not_eq_true]
    intro hroot
    have howns := (owns_of_erase ht.marks.content x).mp hx
    rw [ht.closed.root x ⟨howns, hroot⟩] at hdead
    cases hdead
  · have howns := (owns_of_erase herase x).mp hx
    have hcontents : t.gc.contents = gc.contents := by
      rw [contents, contents, nodes, nodes, strongs_of_erase herase, weaks_of_erase herase,
        funext (content_of_erase herase)]
    have hrefs : (t.gc.header x).refCount = (gc.header x).refCount := by
      rw [← (h.traceNonRoots x).1]
      rcases ht.marks.header x with heq | heq
      · rw [heq]
      · rw [heq, GcHeader.refCount_mark]
    have hpending := pending_le_count_contents t.gc x
    have hcounted := h.counted x howns
    rw [hcontents] at hpending
    rw [hrefs, List.count_nil]
    omega

/-! ### The second mark phase -/

/-- **The second mark phase** marks nothing more, if the dead stayed dead. -/
theorem markHeap_of_condemned (h : gc.Condemned []) (hstrongs : gc.strongs.Nodup)
    (hweaks : gc.weaks.Nodup) (howns : ∀ x, gc.isMarked x = true → gc.Owns x)
    (hmaps : ∀ w ∈ gc.weakMaps, gc.isMarked (.ephemeron (gc.weakMap w)) = true) :
    ∃ t u, Tracing.markHeap ⟨gc, []⟩ = some (t, u) ∧ Marks gc t.gc ∧
      ∀ x, t.gc.isMarked x = gc.isMarked x := by
  have hclosed : Closed (gc.graph fun x => gc.isRooted x = true) fun x => gc.isMarked x = true := by
    refine ⟨?_, ?_, ?_⟩
    · rintro x ⟨hx, hroot⟩
      rw [← Bool.not_eq_false]
      intro hdead
      rw [h.unrooted x hx hdead] at hroot
      cases hroot
    · rintro x y hx ⟨b, rfl, hy⟩
      exact h.unheld (.gc b) hx y hy
    · rintro x gate y hx hgate ⟨e, key, value, rfl, rfl, hdata, hy⟩
      have hkey : gc.key e = some key := by rw [BoaGc.key, hdata]; rfl
      have hcontent : gc.content (.ephemeron e) = value := by
        rw [content, EphemeronBox.visited, hdata]
      exact h.unheld (.ephemeron e) ((traceable_iff_of_key hkey).mpr ⟨hx, hgate⟩) y
        (hcontent.symm ▸ hy)
  have hreached : ∀ x, Tracing.Reached ⟨gc, []⟩ x → gc.isMarked x = true := by
    rintro x (hm | ⟨b, hb, -⟩)
    · exact hm
    · cases hb
  obtain ⟨t, u, heq, ht⟩ := Tracing.markHeap_spec ⟨hclosed, howns, hmaps⟩ hstrongs hweaks
    ⟨⟨.refl gc, hreached, fun b hb x hx => .inl (h.unheld (.gc b) hb x hx)⟩, rfl⟩
  refine ⟨t, u, heq, ht.marks, fun x => ?_⟩
  rw [Bool.eq_iff_iff]
  exact ⟨ht.sound x, ht.marks.isMarked⟩

/-! ### Before the sweep -/

/-- The heap before the sweep: what is live is marked and holds only what is marked. -/
structure Prepared (gc gc' : BoaGc B E W) : Prop where
  strongs : gc'.strongs = gc.strongs
  weaks : gc'.weaks = gc.weaks
  weakMaps : gc'.weakMaps = gc.weakMaps
  weakMap : gc'.weakMap = gc.weakMap
  bytes : gc'.bytesAllocated = gc.bytesAllocated
  boxSize : ∀ b, (gc'.box b).size = (gc.box b).size
  ephemeronSize : ∀ e, (gc'.ephemeron e).size = (gc.ephemeron e).size
  dropped : gc'.dropped = gc.dropped
  finalized : gc'.finalized = gc.finalized ++ gc.strongs.filter fun b => !gc'.isMarked (.gc b)
  marked : ∀ x, gc'.isMarked x = true ↔ gc.IsLive x
  held : ∀ x, gc'.isMarked x = true → ∀ y ∈ gc'.content x, gc'.isMarked y = true
  key : ∀ e, gc'.isMarked (.ephemeron e) = true → ∀ b,
    gc'.key e = some b ↔ gc.key e = some b ∧ gc'.isMarked (.gc b) = true

/-- **Marking, finalizing and marking again.** -/
theorem prepared_of_finalizes (h : gc.Consistent) {t : Tracing B E W} {u : Unreachables B E}
    (ht : Tracing.MarksHeap gc.traceNonRoots gc.IsLive t u) {gc₂ gc₃ : BoaGc B E W}
    (h₂ : Finalizes u.strong u.weak t.gc gc₂) (hcondemned : gc₂.Condemned [])
    (hmarks : Marks gc₂ gc₃) (hsame : ∀ x, gc₃.isMarked x = gc₂.isMarked x) :
    Prepared gc gc₃ := by
  have herase : t.gc.erase = gc.erase := ht.marks.content.trans (erase_traceNonRoots gc)
  have hmarked : ∀ x, gc₃.isMarked x = t.gc.isMarked x := fun x => (hsame x).trans (h₂.isMarked x)
  have hweak : ∀ e ∈ gc.weaks, e ∉ u.weak ↔ t.gc.traceable e = true := by
    intro e he
    rw [ht.weak, List.mem_filter, weaks_of_erase (erase_traceNonRoots gc)]
    simp [he]
  have hkey : ∀ e, gc₃.key e = if e ∈ u.weak then none else gc.key e := fun e => by
    rw [key_of_erase hmarks.content, h₂.key, key_of_erase herase]
  exact {
    strongs := (strongs_of_erase hmarks.content).trans
      (h₂.strongs.trans (strongs_of_erase herase))
    weaks := (weaks_of_erase hmarks.content).trans (h₂.weaks.trans (weaks_of_erase herase))
    weakMaps := (weakMaps_of_erase hmarks.content).trans
      (h₂.weakMaps.trans (weakMaps_of_erase herase))
    weakMap := (weakMap_of_erase hmarks.content).trans
      (h₂.weakMap.trans (weakMap_of_erase herase))
    bytes := (congrArg (fun gc => gc.bytesAllocated) hmarks.content).trans
      (h₂.bytes.trans (congrArg (fun gc => gc.bytesAllocated) herase))
    boxSize := fun b => (congrArg (fun gc => (gc.box b).size) hmarks.content).trans
      ((h₂.boxSize b).trans (congrArg (fun gc => (gc.box b).size) herase))
    ephemeronSize := fun e => (congrArg (fun gc => (gc.ephemeron e).size) hmarks.content).trans
      ((h₂.ephemeronSize e).trans (congrArg (fun gc => (gc.ephemeron e).size) herase))
    dropped := (congrArg (fun gc => gc.dropped) hmarks.content).trans
      (h₂.dropped.trans (congrArg (fun gc => gc.dropped) herase))
    finalized := by
      have hlog : gc₃.finalized = t.gc.finalized ++ u.strong :=
        (congrArg (fun gc => gc.finalized) hmarks.content).trans h₂.finalized
      have hlog' : t.gc.finalized = gc.finalized := congrArg (fun gc => gc.finalized) herase
      rw [hlog, hlog', ht.strong, strongs_of_erase (erase_traceNonRoots gc)]
      simp only [hmarked]
    marked := fun x => by rw [hmarked, isMarked_iff_isLive h ht]
    held := fun x hx y hy => by
      have hx₂ : gc₂.isMarked x = true := by rw [← hsame, hx]
      rw [content_of_erase hmarks.content] at hy
      rw [hsame]
      cases x with
      | gc b => exact hcondemned.unheld (.gc b) hx₂ y hy
      | ephemeron e =>
          obtain ⟨key, value, hdata, -⟩ := exists_data_of_mem_content hy
          have hkey₂ : gc₂.key e = some key := by rw [BoaGc.key, hdata]; rfl
          have howns : e ∈ gc.weaks := ((isMarked_iff_isLive h ht _).mp
            ((hmarked _).symm.trans hx)).owns h.owned
          have hnot : e ∉ u.weak := by
            intro he
            rw [h₂.key, if_pos he] at hkey₂
            cases hkey₂
          have halive : gc₂.traceable e = true := by
            rw [h₂.traceable hnot]
            exact (hweak e howns).mp hnot
          exact hcondemned.unheld (.ephemeron e) halive y hy
    key := fun e he b => by
      have hlive : t.gc.isMarked (.ephemeron e) = true := (hmarked _).symm.trans he
      have howns : e ∈ gc.weaks := ((isMarked_iff_isLive h ht _).mp hlive).owns h.owned
      rw [hkey, hmarked]
      by_cases hmem : e ∈ u.weak
      · rw [if_pos hmem]
        refine ⟨fun hnone => (Option.some_ne_none b hnone.symm).elim, ?_⟩
        rintro ⟨hold, hb⟩
        have htraceable : t.gc.traceable e = true :=
          (traceable_iff_of_key ((key_of_erase herase e).trans hold)).mpr ⟨hlive, hb⟩
        exact absurd hmem ((hweak e howns).mpr htraceable)
      · rw [if_neg hmem]
        refine (and_iff_left_of_imp fun hold => ?_).symm
        exact ((traceable_iff_of_key ((key_of_erase herase e).trans hold)).mp
          ((hweak e howns).mp hmem)).2 }

/-- **The heap is prepared for the sweep.** -/
theorem exists_prepared (hf : finalizer.Harmless) (h : gc.Consistent) (hlog : gc.finalized = []) :
    ∃ t u, Tracing.markHeap ⟨gc.traceNonRoots, []⟩ = some (t, u) ∧ t.queue = [] ∧
      ∃ gc', finalizeAndMark finalizer t.gc u = some gc' ∧ Prepared gc gc' := by
  obtain ⟨t, u, heq, ht⟩ := markHeap_traceNonRoots h
  refine ⟨t, u, heq, ht.queue, ?_⟩
  have herase : t.gc.erase = gc.erase := ht.marks.content.trans (erase_traceNonRoots gc)
  have hstrongs : t.gc.strongs = gc.traceNonRoots.strongs := strongs_of_erase ht.marks.content
  have hweaks : t.gc.weaks = gc.traceNonRoots.weaks := weaks_of_erase ht.marks.content
  have hstrongs' : t.gc.strongs = gc.strongs := strongs_of_erase herase
  have hweaks' : t.gc.weaks = gc.weaks := weaks_of_erase herase
  have hfinalized : t.gc.finalized = [] :=
    (congrArg (fun gc => gc.finalized) herase).trans hlog
  have hcondemned := condemned_of_marksHeap h ht
  rw [finalizeAndMark]
  split
  · obtain ⟨h₂, hcondemned₂⟩ := finalize_spec (u := u) hf hcondemned
      (ht.strong ▸ (hstrongs ▸ hstrongs' ▸ h.strongs).filter _)
      (fun b hb => by
        rw [ht.strong, List.mem_filter] at hb
        rw [hstrongs, hfinalized]
        exact ⟨hb.1, by simpa using hb.2, List.not_mem_nil⟩)
      (ht.weak ▸ (hweaks ▸ hweaks' ▸ h.weaks).filter _)
      (fun e he => by
        rw [ht.weak, List.mem_filter] at he
        rw [hweaks]
        exact ⟨he.1, by simpa using he.2⟩)
    have hlive : ∀ x, (t.gc.finalize finalizer u).isMarked x = true ↔ gc.IsLive x := fun x => by
      rw [h₂.isMarked, isMarked_iff_isLive h ht]
    obtain ⟨t', u', heq', hmarks, hsame⟩ := markHeap_of_condemned hcondemned₂
      (by rw [h₂.strongs, hstrongs']; exact h.strongs)
      (by rw [h₂.weaks, hweaks']; exact h.weaks)
      (fun x hx => by
        rw [h₂.owns_iff, owns_of_erase herase]
        exact ((hlive x).mp hx).owns h.owned)
      (fun w hw => by
        rw [h₂.weakMaps, weakMaps_of_erase herase] at hw
        rw [hlive, h₂.weakMap, weakMap_of_erase herase]
        exact .root ⟨h.weakMaps w hw, h.external_weakMap hw⟩)
    exact ⟨t'.gc, by rw [heq']; rfl, prepared_of_finalizes h ht h₂ hcondemned₂ hmarks hsame⟩
  · next hempty =>
      have hnone : u.strong = [] ∧ u.weak = [] := by simpa using hempty
      have h₂ : Finalizes u.strong u.weak t.gc t.gc := by
        rw [hnone.1, hnone.2]
        exact .refl _
      exact ⟨t.gc, rfl, prepared_of_finalizes h ht h₂ hcondemned (.refl _) fun _ => rfl⟩

/-! ### After the sweep -/

omit [DecidableEq B] [DecidableEq E] in
/-- What a value visits when its table was cleared was visited before. -/
theorem Clears.visited (h : Clears gc gc') {b : B} {x : Handle B E}
    (hx : x ∈ (gc'.box b).value.visited) : x ∈ (gc.box b).value.visited := by
  rcases h.value b with hsame | ⟨table, hold, hnew⟩
  · rwa [← hsame]
  · rw [hnew, GcValue.visited] at hx
    · rw [hold, GcValue.visited]
      · exact List.map_subset _ List.filter_sublist.subset hx
      · simp
    · simp

/-- The sizes of what is kept and of what is dropped add up. -/
theorem sum_kept_add_dropped {α : Type} (marked : α → Bool) (f : α → ℕ) (xs : List α) :
    ((xs.filter marked).map f).sum + ((xs.filter fun x => !marked x).map f).sum =
      (xs.map f).sum := by
  simpa using List.sum_map_filter_add_sum_map_filter_not (fun x => marked x = true) f xs

/-- **Sweeping and clearing** leaves what is live. -/
theorem collected_of_prepared (h : gc.Consistent) (hfinalized : gc.finalized = [])
    (hdropped : gc.dropped = []) {gc₃ gc₄ gc₅ : BoaGc B E W} (hp : Prepared gc gc₃)
    (hs : Swept gc₃ gc₄) (hc : Clears gc₄ gc₅) {weakMaps : List W}
    (hmaps : weakMaps = gc₄.weakMaps.filter fun w => (gc₄.key (gc₄.weakMap w)).isSome)
    (hentries : ∀ w ∈ gc₄.weakMaps, ∀ map table, gc₄.key (gc₄.weakMap w) = some map →
      (gc₅.box map).value = .weakMap .unused table → ∀ e ∈ table, gc₄.hasValue e = true) :
    Collected gc { gc₅ with weakMaps } := by
  have hstrongs : gc₅.strongs = gc.strongs.filter fun b => gc₃.isMarked (.gc b) := by
    rw [← hp.strongs, ← hs.strongs]
    exact congrArg (fun gc => gc.strongs) hc.content
  have hweaks : gc₅.weaks = gc.weaks.filter fun e => gc₃.isMarked (.ephemeron e) := by
    rw [← hp.weaks, ← hs.weaks]
    exact congrArg (fun gc => gc.weaks) hc.content
  have hbox : ∀ b, b ∈ gc₅.strongs ↔ gc.IsLive (.gc b) := fun b => by
    rw [hstrongs, List.mem_filter, hp.marked]
    exact and_iff_right_of_imp fun hb => hb.owns h.owned
  have heph : ∀ e, e ∈ gc₅.weaks ↔ gc.IsLive (.ephemeron e) := fun e => by
    rw [hweaks, List.mem_filter, hp.marked]
    exact and_iff_right_of_imp fun he => he.owns h.owned
  have howns : ∀ x, gc₃.isMarked x = true → ({ gc₅ with weakMaps } : BoaGc B E W).Owns x := by
    intro x hx
    rw [hp.marked] at hx
    cases x with
    | gc b => exact (hbox b).mpr hx
    | ephemeron e => exact (heph e).mpr hx
  have hdead : ∀ b, b ∈ gc.strongs.filter (fun b => !gc₃.isMarked (.gc b)) ↔
      b ∈ gc.strongs ∧ ¬ gc.IsLive (.gc b) := fun b => by
    rw [List.mem_filter, Bool.not_eq_true', ← Bool.not_eq_true, hp.marked]
  have hkey : ∀ e, gc₅.key e = gc₃.key e := fun e =>
    (hc.key e).trans (congrArg (fun gc => (gc.ephemeron e).data.map Prod.fst) hs.content)
  have hdata : ∀ e, (gc₅.ephemeron e).data = (gc₃.ephemeron e).data := fun e =>
    (congrArg (fun gc => (gc.ephemeron e).data) hc.content).trans
      (congrArg (fun gc => (gc.ephemeron e).data) hs.content)
  have hdrop : gc₅.dropped = gc.strongs.filter fun b => !gc₃.isMarked (.gc b) := by
    have hsame : gc₅.dropped = gc₄.dropped := congrArg (fun gc => gc.dropped) hc.content
    rw [hsame, hs.dropped, hp.dropped, hp.strongs, hdropped, List.nil_append]
  have hlog : gc₅.finalized = gc.strongs.filter fun b => !gc₃.isMarked (.gc b) := by
    have hsame : gc₅.finalized = gc₃.finalized :=
      (congrArg (fun gc => gc.finalized) hc.content).trans
        (congrArg (fun gc => gc.finalized) hs.content)
    rw [hsame, hp.finalized, hfinalized, List.nil_append]
  have hboxSize : ∀ b, (gc₅.box b).size = (gc.box b).size := fun b =>
    (hc.size b).trans ((congrArg (fun gc => (gc.box b).size) hs.content).trans (hp.boxSize b))
  have hephSize : ∀ e, (gc₅.ephemeron e).size = (gc.ephemeron e).size := fun e =>
    (congrArg (fun gc => (gc.ephemeron e).size) hc.content).trans
      ((congrArg (fun gc => (gc.ephemeron e).size) hs.content).trans (hp.ephemeronSize e))
  have hcell : ∀ x, ({ gc₅ with weakMaps } : BoaGc B E W).header x = gc₅.header x := fun x => by
    cases x <;> rfl
  -- Of what is marked the header was cleared by the sweep.
  have hclean : ∀ x, gc₃.isMarked x = true → (gc₅.header x).nonRootCell = 0 := by
    intro x hx
    have hnode : x ∈ gc₃.nodes := by
      rw [nodes, hp.strongs, hp.weaks]
      exact (mem_nodes_iff x).mpr (((hp.marked x).mp hx).owns h.owned)
    rw [hc.nonRootCell, hs.header, if_pos ⟨hnode, hx⟩, sweepHeader, GcHeader.reset_unmark]
  have hmapKey : ∀ w ∈ gc.weakMaps, ∀ map, gc₄.key (gc₄.weakMap w) = some map ↔
      map ∈ gc₅.strongs ∧ gc.key (gc.weakMap w) = some map := by
    intro w hw map
    have hlive : gc₃.isMarked (.ephemeron (gc.weakMap w)) = true :=
      (hp.marked _).mpr (.root ⟨h.weakMaps w hw, h.external_weakMap hw⟩)
    have hmap : gc₄.weakMap = gc.weakMap :=
      (congrArg (fun gc => gc.weakMap) hs.content).trans hp.weakMap
    rw [← hc.key, hkey, hmap, hp.key _ hlive, hp.marked, hbox, and_comm]
  have hmaps₄ : gc₄.weakMaps = gc.weakMaps :=
    (congrArg (fun gc => gc.weakMaps) hs.content).trans hp.weakMaps
  exact {
    strongs := ⟨hstrongs ▸ List.filter_sublist, hbox⟩
    weaks := ⟨hweaks ▸ List.filter_sublist, heph⟩
    finalized := ⟨hlog ▸ h.strongs.filter _, fun b => by rw [← hdead, ← hlog]⟩
    dropped := ⟨hdrop ▸ h.strongs.filter _, fun b => by rw [← hdead, ← hdrop]⟩
    key := fun e he b => by
      have hlive : gc₃.isMarked (.ephemeron e) = true := (hp.marked _).mpr ((heph e).mp he)
      have hold : gc₅.key e = some b ↔ gc.key e = some b ∧ b ∉ gc₅.dropped := by
        rw [hkey, hp.key e hlive, hp.marked]
        refine and_congr_right fun hb => ?_
        obtain ⟨data, hdata', rfl⟩ := Option.map_eq_some_iff.mp hb
        have hstrong : data.1 ∈ gc.strongs :=
          (h.owned.values e (((heph e).mp he).owns h.owned) data.1 data.2 hdata').1
        rw [hdrop, hdead, not_and, not_not]
        exact ⟨fun hlive _ => hlive, fun hlive => hlive hstrong⟩
      exact hold
    weakMaps := fun w => by
      rw [hmaps, List.mem_filter, hmaps₄]
      refine and_congr_right fun hw => ?_
      rw [Option.isSome_iff_exists]
      exact exists_congr (hmapKey w hw)
    entries := fun w hw map table hkey' hvalue e he => by
      rw [hmaps] at hw
      have hmap : gc₅.weakMap = gc₄.weakMap := congrArg (fun gc => gc.weakMap) hc.content
      have hkey₄ : gc₄.key (gc₄.weakMap w) = some map := by
        rw [← hc.key, ← hmap]
        exact hkey'
      have hsome := hentries w (List.mem_filter.mp hw).1 map table hkey₄ hvalue e he
      rw [← hc.hasValue] at hsome
      exact hsome
    owned := by
      refine ⟨fun b hb x hx => ?_, fun e he key value hdata' => ?_⟩
      · have hvisited : x ∈ gc₃.content (.gc b) := by
          have hvalue : (gc₄.box b).value = (gc₃.box b).value :=
            congrArg (fun gc => (gc.box b).value) hs.content
          rw [content, ← hvalue]
          exact hc.visited hx
        exact howns x (hp.held _ ((hp.marked _).mpr ((hbox b).mp hb)) x hvisited)
      · have hlive : gc₃.isMarked (.ephemeron e) = true := (hp.marked _).mpr ((heph e).mp he)
        have hdata₃ : (gc₃.ephemeron e).data = some (key, value) := (hdata e).symm.trans hdata'
        have hkey₃ : gc₃.key e = some key := by rw [BoaGc.key, hdata₃]; rfl
        refine ⟨howns (.gc key) ((hp.key e hlive key).mp hkey₃).2, fun x hx => ?_⟩
        refine howns x (hp.held _ hlive x ?_)
        rw [content, EphemeronBox.visited, hdata₃]
        exact hx
    clean := fun x hx => by
      rw [hcell]
      refine hclean x ((hp.marked x).mpr ?_)
      cases x with
      | gc b => exact (hbox b).mp hx
      | ephemeron e => exact (heph e).mp hx
    unmarked := fun x => by
      rw [isMarked, hcell, GcHeader.isMarked]
      by_cases hx : gc₃.isMarked x = true
      · rw [hclean x hx]
        rfl
      · rw [hc.nonRootCell, hs.header, if_neg fun hand => hx hand.2]
        exact (Bool.not_eq_true _).mp hx
    size := ⟨hboxSize, hephSize⟩
    bytes := by
      have hbytes : gc₅.bytesAllocated = gc₄.bytesAllocated :=
        congrArg (fun gc => gc.bytesAllocated) hc.content
      have hboxes := sum_kept_add_dropped (fun b => gc₃.isMarked (.gc b))
        (fun b => (gc.box b).size) gc.strongs
      have hephs := sum_kept_add_dropped (fun e => gc₃.isMarked (.ephemeron e))
        (fun e => (gc.ephemeron e).size) gc.weaks
      have hgc : gc.bytesAllocated = (gc.strongs.map fun b => (gc.box b).size).sum +
        (gc.weaks.map fun e => (gc.ephemeron e).size).sum := h.bytes
      have hswept := hs.bytes
      simp only [hp.strongs, hp.weaks, hp.bytes, hp.boxSize, hp.ephemeronSize] at hswept
      have hsize : ({ gc₅ with weakMaps } : BoaGc B E W).size =
          (gc₅.strongs.map fun b => (gc₅.box b).size).sum +
            (gc₅.weaks.map fun e => (gc₅.ephemeron e).size).sum := rfl
      rw [hsize, hstrongs, hweaks, funext hboxSize, funext hephSize]
      show gc₅.bytesAllocated = _
      omega }

/-- **A collection keeps exactly what is live**, if no finalizer resurrects: it ends, frees what
cannot be reached from a root or through an ephemeron whose key is live, and leaves counts, marks
and the number of bytes as the next collection expects them. -/
theorem collect_keeps_live (hf : finalizer.Harmless) (h : gc.Consistent) :
    ∃ gc', gc.collect finalizer = some gc' ∧ Collected gc gc' := by
  let gc₀ : BoaGc B E W :=
    { gc with collections := gc.collections + 1, finalized := [], dropped := [] }
  have howned : gc₀.Owned := ⟨h.owned.fields, h.owned.values⟩
  have h₀ : gc₀.Consistent := ⟨h.strongs, h.weaks, howned, h.weakMaps, h.counted, h.max, h.clean,
    h.unmarked, h.bytes⟩
  obtain ⟨t, u, heq, hqueue, gc₃, heq₃, hp⟩ := exists_prepared hf h₀ rfl
  have hstrongs : gc₃.strongs.Nodup := hp.strongs ▸ h₀.strongs
  have hweaks : gc₃.weaks.Nodup := hp.weaks ▸ h₀.weaks
  have hs := sweep_spec hstrongs hweaks
  obtain ⟨gc₅, heq₅, hc, hentries⟩ := clearWeakMaps_spec gc₃.sweep.weakMaps gc₃.sweep
  have hcollected := collected_of_prepared h₀ rfl rfl hp hs hc rfl hentries
  refine ⟨_, ?_, hcollected.strongs, hcollected.weaks, hcollected.finalized, hcollected.dropped,
    hcollected.key, hcollected.weakMaps, hcollected.entries, hcollected.owned, hcollected.clean,
    hcollected.unmarked, hcollected.size, hcollected.bytes⟩
  simp only [collect, Option.bind_eq_bind]
  rw [heq, Option.bind_some, hqueue]
  simp only [List.isEmpty_nil, if_true]
  rw [heq₃, Option.bind_some, heq₅]

/-- A heap with a weak map: its entries have the keys 1, which is held from outside, and 3,
which only holds itself. Box 2 is in the value of the first. -/
def weakHeap : BoaGc (Fin 4) (Fin 3) Unit where
  collections := 0
  bytesAllocated := 70
  strongs := [0, 1, 2, 3]
  weaks := List.finRange 3
  weakMaps := [()]
  box := ![⟨⟨1, 0⟩, .weakMap .unused ((List.finRange 3).take 2), 10⟩, ⟨⟨1, 0⟩, .handles [], 10⟩,
    ⟨⟨2, 0⟩, .handles [.gc 2], 10⟩, ⟨⟨1, 0⟩, .handles [.gc 3], 10⟩]
  ephemeron := ![⟨⟨1, 0⟩, some (1, [.gc 2]), 10⟩, ⟨⟨1, 0⟩, some (3, []), 10⟩,
    ⟨⟨1, 0⟩, some (0, []), 10⟩]
  weakMap _ := Fin.last 2
  finalized := []
  dropped := []

theorem weakHeap_consistent : weakHeap.Consistent where
  strongs := by decide
  weaks := by decide
  owned := by
    refine ⟨by decide, fun e _ => ?_⟩
    fin_cases e <;>
      · intro key value hdata
        cases hdata
        decide
  weakMaps := by decide
  counted x _ := by cases x with
    | gc b => fin_cases b <;> decide
    | ephemeron e => fin_cases e <;> decide
  max x _ := by cases x with
    | gc b => fin_cases b <;> decide
    | ephemeron e => fin_cases e <;> decide
  clean x _ := by cases x with
    | gc b => fin_cases b <;> rfl
    | ephemeron e => fin_cases e <;> rfl
  unmarked x := by cases x with
    | gc b => fin_cases b <;> rfl
    | ephemeron e => fin_cases e <;> rfl
  bytes := by decide

end BoaGc

/-- Values without a finalizer of their own. -/
def Finalizer.idle (B E W : Type) : Finalizer B E W where
  box _ gc := gc
  value _ value gc := (gc, value)

theorem Finalizer.harmless_idle : (idle B E W).Harmless where
  box gc _ _ _ h := ⟨.refl gc, h⟩
  value gc _ _ h := ⟨.refl gc, h⟩

namespace BoaGc

theorem collect_weakHeap :
    ∃ gc', weakHeap.collect (.idle ..) = some gc' ∧ Collected weakHeap gc' :=
  collect_keeps_live Finalizer.harmless_idle weakHeap_consistent

example : (weakHeap.collect (.idle ..)).map (fun gc => (gc.strongs, gc.dropped, gc.weaks)) =
    some ([0, 1, 2], [3], [0, 1, 2]) := by decide

end BoaGc

end BoaLigero
