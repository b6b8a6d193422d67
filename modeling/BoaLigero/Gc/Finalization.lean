import BoaLigero.Gc.Roots

/-!
# Finalization

Between the two mark phases the values of what is dead are finalized, which drops the handles
in them. `Condemned` says that the dead stay dead: they are neither rooted nor held by what is
alive. It also bounds the handles that are still to be dropped by the reference counts, so
that none of these wraps around and becomes a root.

Finalizers are code of the values; `Harmless` says of them that they keep the dead dead.

## Main results

* `finalize_spec` — after finalization nothing that was dead is rooted or held.
-/

namespace BoaLigero

variable {B E W : Type} [DecidableEq E]

namespace BoaGc

variable {gc gc' gc'' : BoaGc B E W} {boxes boxes' : List B} {ephs ephs' : List E}

/-- Nothing is changed but values and reference counts; some boxes are logged as finalized,
and some ephemerons cleared. -/
structure Finalizes (boxes : List B) (ephs : List E) (gc gc' : BoaGc B E W) : Prop where
  strongs : gc'.strongs = gc.strongs
  weaks : gc'.weaks = gc.weaks
  weakMaps : gc'.weakMaps = gc.weakMaps
  weakMap : gc'.weakMap = gc.weakMap
  bytes : gc'.bytesAllocated = gc.bytesAllocated
  dropped : gc'.dropped = gc.dropped
  finalized : gc'.finalized = gc.finalized ++ boxes
  boxSize : ∀ b, (gc'.box b).size = (gc.box b).size
  ephemeronSize : ∀ e, (gc'.ephemeron e).size = (gc.ephemeron e).size
  nonRootCell : ∀ x, (gc'.header x).nonRootCell = (gc.header x).nonRootCell
  key : ∀ e, gc'.key e = if e ∈ ephs then none else gc.key e

/-- Whether the handles in a box or in an ephemeron are alive. -/
def isAlive (gc : BoaGc B E W) : Handle B E → Bool
  | .gc b => gc.isMarked (.gc b)
  | .ephemeron e => gc.traceable e

namespace Finalizes

/-- Finalizing nothing changes nothing. -/
theorem refl (gc : BoaGc B E W) : Finalizes [] [] gc gc :=
  ⟨rfl, rfl, rfl, rfl, rfl, rfl, by simp, fun _ => rfl, fun _ => rfl, fun _ => rfl, by simp⟩

/-- Finalizing some nodes and then others finalizes all of them. -/
theorem trans (h : Finalizes boxes ephs gc gc') (h' : Finalizes boxes' ephs' gc' gc'') :
    Finalizes (boxes ++ boxes') (ephs ++ ephs') gc gc'' where
  strongs := h'.strongs.trans h.strongs
  weaks := h'.weaks.trans h.weaks
  weakMaps := h'.weakMaps.trans h.weakMaps
  weakMap := h'.weakMap.trans h.weakMap
  bytes := h'.bytes.trans h.bytes
  dropped := h'.dropped.trans h.dropped
  finalized := by rw [h'.finalized, h.finalized, List.append_assoc]
  boxSize b := (h'.boxSize b).trans (h.boxSize b)
  ephemeronSize e := (h'.ephemeronSize e).trans (h.ephemeronSize e)
  nonRootCell x := (h'.nonRootCell x).trans (h.nonRootCell x)
  key e := by
    rw [h'.key, h.key]
    by_cases he : e ∈ ephs <;> by_cases he' : e ∈ ephs' <;> simp [he, he']

variable (h : Finalizes boxes ephs gc gc')
include h

/-- Finalizing does not change the marks. -/
theorem isMarked (x : Handle B E) : gc'.isMarked x = gc.isMarked x := by
  rw [BoaGc.isMarked, BoaGc.isMarked, GcHeader.isMarked, GcHeader.isMarked, h.nonRootCell]

/-- Finalizing does not change the counts of handles in the heap. -/
theorem nonRootCount (x : Handle B E) :
    (gc'.header x).nonRootCount = (gc.header x).nonRootCount := by
  rw [GcHeader.nonRootCount, GcHeader.nonRootCount, h.nonRootCell]

/-- Finalizing does not change what the collector owns. -/
theorem owns_iff (x : Handle B E) : gc'.Owns x ↔ gc.Owns x := by
  cases x with
  | gc b => rw [Owns, Owns, h.strongs]
  | ephemeron e => rw [Owns, Owns, h.weaks]

/-- Finalizing does not change the nodes of the heap. -/
theorem nodes : gc'.nodes = gc.nodes := by rw [BoaGc.nodes, BoaGc.nodes, h.strongs, h.weaks]

/-- An ephemeron that was not finalized leads to what it led to. -/
theorem traceable {e : E} (he : e ∉ ephs) : gc'.traceable e = gc.traceable e := by
  rw [BoaGc.traceable, BoaGc.traceable, h.key, if_neg he, h.isMarked]
  cases gc.key e with
  | none => rfl
  | some key => simp only [h.isMarked]

/-- What is not a finalized ephemeron is alive exactly if it was. -/
theorem isAlive {x : Handle B E} (hephs : ∀ e ∈ ephs, x ≠ .ephemeron e) :
    gc'.isAlive x = gc.isAlive x := by
  cases x with
  | gc b => exact h.isMarked _
  | ephemeron e => exact h.traceable fun he => hephs e he rfl

end Finalizes

end BoaGc

/-! ### The dead -/

variable [DecidableEq B]

namespace BoaGc

/-- Whether a value is dead and has not been finalized. -/
def condemned (gc : BoaGc B E W) : Handle B E → Bool
  | .gc b => !gc.isMarked (.gc b) && !decide (b ∈ gc.finalized)
  | .ephemeron e => (gc.key e).isSome && !gc.traceable e

/-- How many handles are in the values that are still to be finalized. -/
def pending (gc : BoaGc B E W) (x : Handle B E) : ℕ :=
  ((gc.nodes.filter gc.condemned).map fun node => (gc.content node).count x).sum

/-- **The dead stay dead**, while the handles `held` are to be dropped: what is alive holds
none of them, they are not rooted, and the handles to them that are to be dropped are counted. -/
structure Condemned (held : List (Handle B E)) (gc : BoaGc B E W) : Prop where
  unheld : ∀ x, gc.isAlive x = true → ∀ y ∈ gc.content x, gc.isMarked y = true
  unrooted : ∀ x, gc.Owns x → gc.isMarked x = false → gc.isRooted x = false
  counted : ∀ x, gc.Owns x → gc.isMarked x = false →
    gc.pending x + held.count x ≤ (gc.header x).refCount.toNat

end BoaGc

/-- **Finalizers that do not resurrect**: they may change what is alive, but the dead stay
dead, and handles to them are only dropped from values that are still to be finalized. -/
structure Finalizer.Harmless (finalizer : Finalizer B E W) : Prop where
  box : ∀ (gc : BoaGc B E W) node, node ∈ gc.strongs → gc.condemned (.gc node) = true →
    gc.Condemned [] → BoaGc.Finalizes [] [] gc (finalizer.box node gc) ∧
      (finalizer.box node gc).Condemned []
  value : ∀ (gc : BoaGc B E W) eph value, gc.Condemned value →
    BoaGc.Finalizes [] [] gc (finalizer.value eph value gc).1 ∧
      (finalizer.value eph value gc).1.Condemned (finalizer.value eph value gc).2

namespace BoaGc

variable {gc gc' : BoaGc B E W} {boxes : List B} {ephs : List E} {finalizer : Finalizer B E W}

/-- A value is still to be finalized, unless it has been. -/
theorem Finalizes.condemned (h : Finalizes boxes ephs gc gc') {x : Handle B E}
    (hboxes : ∀ b ∈ boxes, x ≠ .gc b) (hephs : ∀ e ∈ ephs, x ≠ .ephemeron e) :
    gc'.condemned x = gc.condemned x := by
  cases x with
  | gc b =>
      have hb : b ∉ boxes := fun hb => hboxes b hb rfl
      rw [BoaGc.condemned, BoaGc.condemned, h.isMarked, h.finalized]
      simp [hb]
  | ephemeron e =>
      have he : e ∉ ephs := fun he => hephs e he rfl
      rw [BoaGc.condemned, BoaGc.condemned, h.traceable he, h.key, if_neg he]

/-! ### Handles that are dropped -/

/-- Dropping handles changes reference counts, and nothing else. -/
theorem foldl_decRefCount (gc : BoaGc B E W) (hs : List (Handle B E)) :
    (hs.foldl decRefCount gc).erase = gc.erase ∧
      ∀ x, ((hs.foldl decRefCount gc).header x).nonRootCell = (gc.header x).nonRootCell := by
  induction hs generalizing gc with
  | nil => exact ⟨rfl, fun _ => rfl⟩
  | cons y hs ih =>
      obtain ⟨herase, hcell⟩ := ih (gc.decRefCount y)
      refine ⟨herase.trans (erase_mapHeader ..), fun x => (hcell x).trans ?_⟩
      rw [decRefCount, header_mapHeader]
      split
      · next heq => rw [heq, GcHeader.nonRootCell_decRefCount]
      · rfl

/-- A reference count goes down by the number of the handles. -/
theorem refCount_foldl_decRefCount {hs : List (Handle B E)} {x : Handle B E}
    (hle : hs.count x ≤ (gc.header x).refCount.toNat) :
    ((hs.foldl decRefCount gc).header x).refCount.toNat =
      (gc.header x).refCount.toNat - hs.count x := by
  induction hs generalizing gc with
  | nil => rfl
  | cons y hs ih =>
      have hheader := header_mapHeader gc y x .decRefCount
      rw [List.foldl_cons]
      by_cases hxy : x = y
      · rw [if_pos hxy, ← hxy] at hheader
        rw [← hxy, List.count_cons_self] at hle ⊢
        have hdec := GcHeader.toNat_refCount_decRefCount (h := gc.header x) (by omega)
        rw [ih (by rw [decRefCount, hheader]; omega), decRefCount, hheader]
        omega
      · rw [if_neg hxy] at hheader
        rw [List.count_cons_of_ne (Ne.symm hxy)] at hle ⊢
        rw [ih (by rw [decRefCount, hheader]; exact hle), decRefCount, hheader]

/-- Dropping handles finalizes nothing. -/
theorem Finalizes.foldl_decRefCount (gc : BoaGc B E W) (hs : List (Handle B E)) :
    Finalizes [] [] gc (hs.foldl decRefCount gc) := by
  obtain ⟨herase, hcell⟩ := BoaGc.foldl_decRefCount gc hs
  generalize hs.foldl decRefCount gc = gc' at herase hcell
  exact {
    strongs := strongs_of_erase herase
    weaks := weaks_of_erase herase
    weakMaps := weakMaps_of_erase herase
    weakMap := weakMap_of_erase herase
    bytes := congrArg (fun gc => gc.bytesAllocated) herase
    dropped := congrArg (fun gc => gc.dropped) herase
    finalized := (congrArg (fun gc => gc.finalized) herase).trans (List.append_nil _).symm
    boxSize := fun b => congrArg (fun gc => (gc.box b).size) herase
    ephemeronSize := fun e => congrArg (fun gc => (gc.ephemeron e).size) herase
    nonRootCell := hcell
    key := fun e => key_of_erase herase e }

/-- Fewer handles are to be dropped, when a value is no longer to be finalized. -/
theorem pending_add_le {node : Handle B E} (hnodes : gc'.nodes = gc.nodes) (hnode : node ∈ gc.nodes)
    (hold : gc.condemned node = true) (hnew : gc'.condemned node = false)
    (hsame : ∀ x, x ≠ node → gc'.condemned x = gc.condemned x ∧ gc'.content x = gc.content x)
    (x : Handle B E) : gc'.pending x + (gc.content node).count x ≤ gc.pending x := by
  have hcounts : (gc'.nodes.filter gc'.condemned).map (fun n => (gc'.content n).count x) =
      (gc.nodes.filter gc'.condemned).map fun n => (gc.content n).count x := by
    rw [hnodes]
    refine List.map_congr_left fun n hn => ?_
    have hne : n ≠ node := by
      rintro rfl
      rw [(List.mem_filter.mp hn).2] at hnew
      cases hnew
    rw [(hsame n hne).2]
  rw [pending, hcounts, pending]
  refine Sequence.sum_filter_add_le (fun n hn => ?_) hnode hold hnew
  have hne : n ≠ node := by
    rintro rfl
    rw [hn] at hnew
    cases hnew
  rwa [← (hsame n hne).1]

/-- The handles `held` are dropped. -/
theorem Condemned.drop {held : List (Handle B E)} (h : gc.Condemned held) :
    (held.foldl decRefCount gc).Condemned [] := by
  have hframe := Finalizes.foldl_decRefCount gc held
  have hcontent := content_of_erase (foldl_decRefCount gc held).1
  have hpending : ∀ x, (held.foldl decRefCount gc).pending x = gc.pending x := by
    intro x
    have hcondemned : (held.foldl decRefCount gc).condemned = gc.condemned :=
      funext fun n => hframe.condemned (by simp) (by simp)
    rw [pending, pending, hframe.nodes, hcondemned, funext hcontent]
  refine ⟨fun x hx y hy => ?_, fun x hx hfresh => ?_, fun x hx hfresh => ?_⟩
  · rw [hframe.isAlive (by simp)] at hx
    rw [hcontent] at hy
    rw [hframe.isMarked]
    exact h.unheld x hx y hy
  all_goals
    rw [hframe.owns_iff] at hx
    rw [hframe.isMarked] at hfresh
    have hcounted := h.counted x hx hfresh
    have hle : held.count x ≤ (gc.header x).refCount.toNat := by omega
    have hcount := refCount_foldl_decRefCount hle
  · have hroot := h.unrooted x hx hfresh
    rw [isRooted, GcHeader.isRooted_eq, decide_eq_false_iff_not] at hroot ⊢
    rw [hframe.nonRootCount, hcount]
    omega
  · rw [hpending, hcount, List.count_nil]
    omega

/-! ### Finalizing -/

omit [DecidableEq B] in

/-- Noting that a box was finalized is what finalizing it does. -/
theorem Finalizes.log (gc : BoaGc B E W) (node : B) :
    Finalizes [node] [] gc { gc with finalized := gc.finalized ++ [node] } :=
  ⟨rfl, rfl, rfl, rfl, rfl, rfl, rfl, fun _ => rfl, fun _ => rfl, fun _ => rfl, by simp [BoaGc.key]⟩

/-- **Finalizing a box.** -/
theorem runFinalizer_spec (hf : finalizer.Harmless) (h : gc.Condemned []) {node : B}
    (hnode : node ∈ gc.strongs) (hdead : gc.isMarked (.gc node) = false)
    (hfresh : node ∉ gc.finalized) :
    Finalizes [node] [] gc (gc.runFinalizer finalizer node) ∧
      (gc.runFinalizer finalizer node).Condemned [] := by
  have hcondemned : gc.condemned (.gc node) = true := by simp [condemned, hdead, hfresh]
  obtain ⟨hframe₁, h₁⟩ := hf.box gc node hnode hcondemned h
  rw [runFinalizer]
  generalize finalizer.box node gc = gc₁ at hframe₁ h₁
  have hlog := Finalizes.log gc₁ node
  have hnodes : (.gc node) ∈ gc₁.nodes := by
    rw [hframe₁.nodes]
    exact (mem_nodes_iff (.gc node)).mpr hnode
  have hold : gc₁.condemned (.gc node) = true :=
    (hframe₁.condemned (by simp) (by simp)).trans hcondemned
  have hpending := pending_add_le hlog.nodes hnodes hold (by simp [condemned])
    fun x hx => ⟨hlog.condemned (by simpa using hx) (by simp), rfl⟩
  have h₂ : Condemned (gc₁.content (.gc node))
      { gc₁ with finalized := gc₁.finalized ++ [node] } := by
    refine ⟨h₁.unheld, h₁.unrooted, fun x hx hdead => ?_⟩
    have hcounted := h₁.counted x hx hdead
    rw [List.count_nil, Nat.add_zero] at hcounted
    exact (hpending x).trans hcounted
  exact ⟨(hframe₁.trans hlog).trans (.foldl_decRefCount ..), h₂.drop⟩

/-- The data of an ephemeron is taken out of it. -/
def clear (gc : BoaGc B E W) (eph : E) : BoaGc B E W :=
  { gc with
    ephemeron := Function.update gc.ephemeron eph { gc.ephemeron eph with data := none } }

omit [DecidableEq B] in

/-- Clearing one ephemeron leaves the others alone. -/
theorem ephemeron_clear_of_ne {eph e : E} (h : e ≠ eph) :
    (gc.clear eph).ephemeron e = gc.ephemeron e := Function.update_of_ne h ..

omit [DecidableEq B] in

/-- A cleared ephemeron holds no handles. -/
theorem content_clear (gc : BoaGc B E W) (eph : E) :
    (gc.clear eph).content (.ephemeron eph) = [] := by simp [clear, content, EphemeronBox.visited]

omit [DecidableEq B] in

/-- Clearing an ephemeron leaves what other nodes hold alone. -/
theorem content_clear_of_ne {eph : E} {x : Handle B E} (h : x ≠ .ephemeron eph) :
    (gc.clear eph).content x = gc.content x := by
  cases x with
  | gc b => rfl
  | ephemeron e => rw [content, content, ephemeron_clear_of_ne (by simpa using h)]

omit [DecidableEq B] in

/-- Clearing an ephemeron does not change headers. -/
theorem header_clear (gc : BoaGc B E W) (eph : E) (x : Handle B E) :
    (gc.clear eph).header x = gc.header x := by
  cases x with
  | gc b => rfl
  | ephemeron e => by_cases h : e = eph <;> simp [clear, header, Function.update, h]

omit [DecidableEq B] in

/-- Clearing an ephemeron is what finalizing it does. -/
theorem Finalizes.clear (gc : BoaGc B E W) (eph : E) : Finalizes [] [eph] gc (gc.clear eph) where
  strongs := rfl
  weaks := rfl
  weakMaps := rfl
  weakMap := rfl
  bytes := rfl
  dropped := rfl
  finalized := (List.append_nil _).symm
  boxSize _ := rfl
  ephemeronSize e := by by_cases h : e = eph <;> simp [BoaGc.clear, Function.update, h]
  nonRootCell x := by rw [header_clear]
  key e := by by_cases h : e = eph <;> simp [BoaGc.clear, BoaGc.key, Function.update, h]

/-- **Clearing an ephemeron** that could not be traced. -/
theorem finalizeAndClear_spec (hf : finalizer.Harmless) (h : gc.Condemned []) {eph : E}
    (heph : eph ∈ gc.weaks) (hdead : gc.traceable eph = false) :
    Finalizes [] [eph] gc (gc.finalizeAndClear finalizer eph) ∧
      (gc.finalizeAndClear finalizer eph).Condemned [] := by
  rw [finalizeAndClear]
  cases hdata : (gc.ephemeron eph).data with
  | none =>
      have hsame := Finalizes.refl gc
      refine ⟨({ hsame with key := fun e => ?_ } : Finalizes [] [eph] gc gc), h⟩
      split
      · next he => rw [List.mem_singleton.mp he, BoaGc.key, hdata]; rfl
      · rfl
  | some data =>
      obtain ⟨key, value⟩ := data
      have hclear := Finalizes.clear gc eph
      have hcontent : gc.content (.ephemeron eph) = value := by
        rw [content, EphemeronBox.visited, hdata]
      have hold : gc.condemned (.ephemeron eph) = true := by
        simp [condemned, BoaGc.key, hdata, hdead]
      have hpending := pending_add_le hclear.nodes ((mem_nodes_iff (.ephemeron eph)).mpr heph) hold
        (by simp [condemned, hclear.key])
        fun x hx => ⟨hclear.condemned (by simp) (by simpa using hx), content_clear_of_ne hx⟩
      rw [hcontent] at hpending
      have h₁ : (gc.clear eph).Condemned value := by
        refine ⟨fun x hx y hy => ?_, fun x hx hdead => ?_, fun x hx hdead => ?_⟩
        · have hne : x ≠ .ephemeron eph := by
            rintro rfl
            rw [content_clear] at hy
            cases hy
          rw [hclear.isAlive (by simpa using hne)] at hx
          rw [content_clear_of_ne hne] at hy
          rw [hclear.isMarked]
          exact h.unheld x hx y hy
        all_goals rw [hclear.isMarked] at hdead
        · rw [BoaGc.isRooted, header_clear]
          exact h.unrooted x hx hdead
        · have hcounted := h.counted x hx hdead
          rw [List.count_nil, Nat.add_zero] at hcounted
          rw [header_clear]
          exact (hpending x).trans hcounted
      obtain ⟨hframe₂, h₂⟩ := hf.value (gc.clear eph) eph value h₁
      exact ⟨(hclear.trans hframe₂).trans (.foldl_decRefCount ..), h₂.drop⟩

/-- Clearing some ephemerons. -/
theorem foldl_finalizeAndClear_spec (hf : finalizer.Harmless) {ephs : List E} (hnd : ephs.Nodup)
    (h : gc.Condemned []) (hephs : ∀ e ∈ ephs, e ∈ gc.weaks ∧ gc.traceable e = false) :
    Finalizes [] ephs gc (ephs.foldl (finalizeAndClear finalizer) gc) ∧
      (ephs.foldl (finalizeAndClear finalizer) gc).Condemned [] := by
  induction ephs generalizing gc with
  | nil => exact ⟨.refl gc, h⟩
  | cons eph ephs ih =>
      obtain ⟨hfresh, hnd⟩ := List.nodup_cons.mp hnd
      obtain ⟨heph, hdead⟩ := hephs eph (by simp)
      obtain ⟨hframe, h₁⟩ := finalizeAndClear_spec hf h heph hdead
      have hephs' : ∀ e ∈ ephs, e ∈ (gc.finalizeAndClear finalizer eph).weaks ∧
          (gc.finalizeAndClear finalizer eph).traceable e = false := by
        intro e he
        have hne : e ∉ [eph] := by
          rw [List.mem_singleton]
          rintro rfl
          exact hfresh he
        rw [hframe.weaks, hframe.traceable hne]
        exact hephs e (List.mem_cons_of_mem _ he)
      obtain ⟨hframe', h'⟩ := ih hnd h₁ hephs'
      exact ⟨hframe.trans hframe', h'⟩

/-- Finalizing some boxes. -/
theorem foldl_runFinalizer_spec (hf : finalizer.Harmless) {nodes : List B} (hnd : nodes.Nodup)
    (h : gc.Condemned [])
    (hnodes : ∀ b ∈ nodes, b ∈ gc.strongs ∧ gc.isMarked (.gc b) = false ∧ b ∉ gc.finalized) :
    Finalizes nodes [] gc (nodes.foldl (runFinalizer finalizer) gc) ∧
      (nodes.foldl (runFinalizer finalizer) gc).Condemned [] := by
  induction nodes generalizing gc with
  | nil => exact ⟨.refl gc, h⟩
  | cons node nodes ih =>
      obtain ⟨hfresh, hnd⟩ := List.nodup_cons.mp hnd
      obtain ⟨hnode, hdead, hlog⟩ := hnodes node (by simp)
      obtain ⟨hframe, h₁⟩ := runFinalizer_spec hf h hnode hdead hlog
      have hnodes' : ∀ b ∈ nodes, b ∈ (gc.runFinalizer finalizer node).strongs ∧
          (gc.runFinalizer finalizer node).isMarked (.gc b) = false ∧
          b ∉ (gc.runFinalizer finalizer node).finalized := by
        intro b hb
        obtain ⟨hstrongs, hdead, hlog⟩ := hnodes b (List.mem_cons_of_mem _ hb)
        rw [hframe.strongs, hframe.isMarked, hframe.finalized]
        refine ⟨hstrongs, hdead, fun hmem => ?_⟩
        rcases List.mem_append.mp hmem with hmem | hmem
        · exact hlog hmem
        · exact hfresh (List.mem_singleton.mp hmem ▸ hb)
      obtain ⟨hframe', h'⟩ := ih hnd h₁ hnodes'
      exact ⟨hframe.trans hframe', h'⟩

/-- **Finalization** finalizes the boxes and clears the ephemerons, and the dead stay dead. -/
theorem finalize_spec (hf : finalizer.Harmless) (h : gc.Condemned []) {u : Unreachables B E}
    (hstrong : u.strong.Nodup)
    (hboxes : ∀ b ∈ u.strong, b ∈ gc.strongs ∧ gc.isMarked (.gc b) = false ∧ b ∉ gc.finalized)
    (hweak : u.weak.Nodup) (hephs : ∀ e ∈ u.weak, e ∈ gc.weaks ∧ gc.traceable e = false) :
    Finalizes u.strong u.weak gc (gc.finalize finalizer u) ∧
      (gc.finalize finalizer u).Condemned [] := by
  obtain ⟨hframe, h₁⟩ := foldl_runFinalizer_spec hf hstrong h hboxes
  have hephs' : ∀ e ∈ u.weak, e ∈ (u.strong.foldl (runFinalizer finalizer) gc).weaks ∧
      (u.strong.foldl (runFinalizer finalizer) gc).traceable e = false := by
    intro e he
    rw [hframe.weaks, hframe.traceable List.not_mem_nil]
    exact hephs e he
  obtain ⟨hframe', h'⟩ := foldl_finalizeAndClear_spec hf hweak h₁ hephs'
  have hboth := hframe.trans hframe'
  rw [List.append_nil, List.nil_append] at hboth
  exact ⟨hboth, h'⟩

end BoaGc

end BoaLigero
