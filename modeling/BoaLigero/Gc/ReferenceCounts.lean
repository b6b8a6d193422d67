import BoaLigero.Gc.Collect

/-!
# Reference Counts in a Collection

A reference count is right if it is the number of the handles in the heap, of those by which the
weak maps are known, and of those outside (`Counted`). A collection drops handles in three places:
in what is dead, in the values of ephemerons whose keys are dead, and in the tables of weak maps.
Each time it lowers the counts by the handles that are gone (`Drops`), so that what is outside is
counted as before.

## Main results

* `Consistent.kept_collect` — a collection keeps the reference counts right, and the values of
  what is live.
-/

namespace BoaLigero

variable {B E W : Type} [DecidableEq B] [DecidableEq E]

namespace BoaGc

variable {gc gc' gc'' : BoaGc B E W} {hs hs' outside : List (Handle B E)}

/-! ### Handles that are dropped -/

/-- The reference counts are lowered by the handles `hs`. -/
def Drops (hs : List (Handle B E)) (gc gc' : BoaGc B E W) : Prop :=
  ∀ x, hs.count x ≤ (gc.header x).refCount.toNat →
    (gc'.header x).refCount.toNat + hs.count x = (gc.header x).refCount.toNat

/-- If no count changes, nothing was dropped. -/
theorem Drops.of_refCount (h : ∀ x, (gc'.header x).refCount = (gc.header x).refCount) :
    Drops [] gc gc' := by
  intro x _
  rw [h, List.count_nil, Nat.add_zero]

/-- Handles that are dropped in two steps are all of them dropped. -/
theorem Drops.trans (h : Drops hs gc gc') (h' : Drops hs' gc' gc'') :
    Drops (hs ++ hs') gc gc'' := by
  intro x hle
  rw [List.count_append] at hle ⊢
  have hfirst := h x (by omega)
  have hsecond := h' x (by omega)
  omega

/-- Dropping handles one after the other drops all of them. -/
theorem drops_foldl_decRefCount (gc : BoaGc B E W) (hs : List (Handle B E)) :
    Drops hs gc (hs.foldl decRefCount gc) := by
  intro x hle
  rw [refCount_foldl_decRefCount hle]
  omega

/-- Marking drops nothing. -/
theorem Marks.drops (h : Marks gc gc') : Drops [] gc gc' := by
  refine .of_refCount fun x => ?_
  rcases h.header x with heq | heq
  · rw [heq]
  · rw [heq, GcHeader.refCount_mark]

/-- Sweeping headers drops nothing. -/
theorem Swept.drops (h : Swept gc gc') : Drops [] gc gc' := by
  refine .of_refCount fun x => ?_
  rw [h.header]
  split
  · rw [sweepHeader, GcHeader.reset_unmark]
  · rfl

/-! ### Finalization -/

/-- The ephemerons `ephs` are emptied, and no other value is changed. -/
structure Empties (ephs : List E) (gc gc' : BoaGc B E W) : Prop where
  value : ∀ b, (gc'.box b).value = (gc.box b).value
  data : ∀ e, (gc'.ephemeron e).data = if e ∈ ephs then none else (gc.ephemeron e).data

omit [DecidableEq B] in

/-- A change of headers empties no ephemeron. -/
theorem Empties.of_erase (h : gc'.erase = gc.erase) : Empties [] gc gc' :=
  ⟨value_of_erase h, fun e => by rw [if_neg List.not_mem_nil, data_of_erase h]⟩

omit [DecidableEq B] in

/-- Ephemerons that are emptied in two steps are all of them emptied. -/
theorem Empties.trans {ephs ephs' : List E} (h : Empties ephs gc gc')
    (h' : Empties ephs' gc' gc'') : Empties (ephs ++ ephs') gc gc'' where
  value b := (h'.value b).trans (h.value b)
  data e := by
    rw [h'.data, h.data]
    by_cases he : e ∈ ephs <;> by_cases he' : e ∈ ephs' <;> simp [he, he']

omit [DecidableEq B] in

/-- Emptying ephemerons does not change what boxes hold. -/
theorem Empties.content_gc {ephs : List E} (h : Empties ephs gc gc') (b : B) :
    gc'.content (.gc b) = gc.content (.gc b) := by rw [content, content, h.value]

omit [DecidableEq B] in

/-- An ephemeron holds nothing once it was emptied, and otherwise what it held. -/
theorem Empties.content_ephemeron {ephs : List E} (h : Empties ephs gc gc') (e : E) :
    gc'.content (.ephemeron e) = if e ∈ ephs then [] else gc.content (.ephemeron e) := by
  rw [content, content, EphemeronBox.visited, EphemeronBox.visited, h.data]
  split
  · next hnone => split <;> simp_all
  · next hsome => split <;> simp_all

/-- The handles in some boxes and ephemerons. -/
def heldBy (gc : BoaGc B E W) (nodes : List (Handle B E)) : List (Handle B E) :=
  nodes.flatMap gc.content

/-- Finalizing boxes drops the handles in them. -/
theorem foldl_runFinalizer_idle (nodes : List B) (gc : BoaGc B E W) :
    Drops (gc.heldBy (nodes.map .gc)) gc (nodes.foldl (runFinalizer (.idle B E W)) gc) ∧
      Empties [] gc (nodes.foldl (runFinalizer (.idle B E W)) gc) := by
  induction nodes generalizing gc with
  | nil => exact ⟨.of_refCount fun _ => rfl, .of_erase rfl⟩
  | cons node nodes ih =>
      let gc₁ : BoaGc B E W := { gc with finalized := gc.finalized ++ [node] }
      have hrun : gc.runFinalizer (.idle B E W) node =
          (gc.content (.gc node)).foldl decRefCount gc₁ := rfl
      have hlog : Drops [] gc gc₁ := .of_refCount fun x => by cases x <;> rfl
      have hfirst : Empties [] gc (gc.runFinalizer (.idle B E W) node) :=
        have herase := (foldl_decRefCount gc₁ (gc.content (.gc node))).1
        ⟨fun b => by rw [hrun, value_of_erase herase], fun e => by
          rw [if_neg List.not_mem_nil, hrun, data_of_erase herase]⟩
      have hdrops := hlog.trans (drops_foldl_decRefCount gc₁ (gc.content (.gc node)))
      rw [← hrun, List.nil_append] at hdrops
      obtain ⟨hrest, hempties⟩ := ih (gc.runFinalizer (.idle B E W) node)
      have hheld : (gc.runFinalizer (.idle B E W) node).heldBy (nodes.map .gc) =
          gc.heldBy (nodes.map .gc) := by
        rw [heldBy, heldBy, List.flatMap_map, List.flatMap_map]
        exact List.flatMap_congr fun b _ => hfirst.content_gc b
      rw [hheld] at hrest
      exact ⟨hdrops.trans hrest, hfirst.trans hempties⟩

/-- Clearing an ephemeron drops the handles in its value. -/
theorem finalizeAndClear_idle (gc : BoaGc B E W) (eph : E) :
    Drops (gc.content (.ephemeron eph)) gc (gc.finalizeAndClear (.idle B E W) eph) ∧
      Empties [eph] gc (gc.finalizeAndClear (.idle B E W) eph) := by
  cases hdata : (gc.ephemeron eph).data with
  | none =>
      have hempty : gc.content (.ephemeron eph) = [] := by
        rw [content, EphemeronBox.visited, hdata]
      have hclear : gc.finalizeAndClear (.idle B E W) eph = gc := by
        rw [finalizeAndClear, hdata]
      rw [hclear, hempty]
      refine ⟨.of_refCount fun _ => rfl, fun _ => rfl, fun e => ?_⟩
      split
      · next he => rw [List.mem_singleton.mp he, hdata]
      · rfl
  | some data =>
      obtain ⟨key, value⟩ := data
      have hcontent : gc.content (.ephemeron eph) = value := by
        rw [content, EphemeronBox.visited, hdata]
      have hclear : gc.finalizeAndClear (.idle B E W) eph =
          value.foldl decRefCount (gc.clear eph) := by
        rw [finalizeAndClear, hdata]
        rfl
      have hlog : Drops [] gc (gc.clear eph) := .of_refCount fun x => by rw [header_clear]
      have hempties : Empties [eph] gc (gc.clear eph) :=
        ⟨fun _ => rfl, fun e => by by_cases he : e = eph <;> simp [clear, Function.update, he]⟩
      rw [hclear, hcontent]
      exact ⟨hlog.trans (drops_foldl_decRefCount (gc.clear eph) value),
        hempties.trans (.of_erase (foldl_decRefCount (gc.clear eph) value).1)⟩

/-- Clearing ephemerons drops the handles in their values. -/
theorem foldl_finalizeAndClear_idle {ephs : List E} (hnd : ephs.Nodup) (gc : BoaGc B E W) :
    Drops (gc.heldBy (ephs.map .ephemeron)) gc
        (ephs.foldl (finalizeAndClear (.idle B E W)) gc) ∧
      Empties ephs gc (ephs.foldl (finalizeAndClear (.idle B E W)) gc) := by
  induction ephs generalizing gc with
  | nil => exact ⟨.of_refCount fun _ => rfl, .of_erase rfl⟩
  | cons eph ephs ih =>
      obtain ⟨hfresh, hnd⟩ := List.nodup_cons.mp hnd
      obtain ⟨hdrops, hfirst⟩ := finalizeAndClear_idle gc eph
      obtain ⟨hrest, hempties⟩ := ih hnd (gc.finalizeAndClear (.idle B E W) eph)
      have hheld : (gc.finalizeAndClear (.idle B E W) eph).heldBy (ephs.map .ephemeron) =
          gc.heldBy (ephs.map .ephemeron) := by
        rw [heldBy, heldBy, List.flatMap_map, List.flatMap_map]
        refine List.flatMap_congr fun e he => ?_
        rw [hfirst.content_ephemeron, if_neg]
        rw [List.mem_singleton]
        rintro rfl
        exact hfresh he
      rw [hheld] at hrest
      exact ⟨hdrops.trans hrest, hfirst.trans hempties⟩

/-- **Finalization** drops the handles in what is finalized and in what is cleared. -/
theorem finalize_idle {u : Unreachables B E} (hweak : u.weak.Nodup) (gc : BoaGc B E W) :
    Drops (gc.heldBy (u.strong.map .gc) ++ gc.heldBy (u.weak.map .ephemeron)) gc
        (gc.finalize (.idle B E W) u) ∧
      Empties u.weak gc (gc.finalize (.idle B E W) u) := by
  obtain ⟨hboxes, hfirst⟩ := foldl_runFinalizer_idle u.strong gc
  obtain ⟨hephs, hempties⟩ :=
    foldl_finalizeAndClear_idle hweak (u.strong.foldl (runFinalizer (.idle B E W)) gc)
  have hheld : (u.strong.foldl (runFinalizer (.idle B E W)) gc).heldBy (u.weak.map .ephemeron) =
      gc.heldBy (u.weak.map .ephemeron) := by
    rw [heldBy, heldBy, List.flatMap_map, List.flatMap_map]
    refine List.flatMap_congr fun e _ => ?_
    rw [hfirst.content_ephemeron, if_neg List.not_mem_nil]
  rw [hheld] at hephs
  exact ⟨hboxes.trans hephs, hfirst.trans hempties⟩

/-! ### Counting -/

/-- The handles by which weak maps are known. -/
def handlesOf (gc : BoaGc B E W) (maps : List W) : List (Handle B E) :=
  maps.map fun w => .ephemeron (gc.weakMap w)

/-- **The reference counts are right**: they count the handles in the heap, those by which the
weak maps are known, and those outside. -/
def Counted (gc : BoaGc B E W) (maps : List W) (outside : List (Handle B E)) : Prop :=
  ∀ x, gc.Owns x → (gc.header x).refCount.toNat =
    gc.contents.count x + (gc.handlesOf maps).count x + outside.count x

/-- What is in the heap, node by node. -/
theorem count_contents (gc : BoaGc B E W) (x : Handle B E) :
    gc.contents.count x = (gc.strongs.map fun b => (gc.content (.gc b)).count x).sum +
      (gc.weaks.map fun e => (gc.content (.ephemeron e)).count x).sum := by
  rw [contents, nodes, List.count_flatMap, List.map_append, List.map_map, List.map_map,
    List.sum_append]
  rfl

omit [DecidableEq B] [DecidableEq E] in

/-- A node occurs once if each box and each ephemeron does. -/
theorem nodup_nodes (hstrongs : gc.strongs.Nodup) (hweaks : gc.weaks.Nodup) :
    gc.nodes.Nodup := by
  refine List.Nodup.append (hstrongs.map fun b c h => ?_) (hweaks.map fun d e h => ?_) ?_
  · exact Handle.gc.inj h
  · exact Handle.ephemeron.inj h
  · intro x hx hx'
    obtain ⟨b, -, rfl⟩ := List.mem_map.mp hx
    obtain ⟨e, -, heq⟩ := List.mem_map.mp hx'
    cases heq

/-- When the content of one node changes, the handles in the heap change by as much. -/
theorem count_contents_update {node : Handle B E} (hnode : node ∈ gc.nodes)
    (hnd : gc.nodes.Nodup) (hnodes : gc'.nodes = gc.nodes)
    (hsame : ∀ n, n ≠ node → gc'.content n = gc.content n) (x : Handle B E) :
    gc'.contents.count x + (gc.content node).count x =
      gc.contents.count x + (gc'.content node).count x := by
  rw [contents, contents, hnodes, List.count_flatMap, List.count_flatMap,
    ← List.sum_map_erase (List.count x ∘ gc'.content) hnode,
    ← List.sum_map_erase (List.count x ∘ gc.content) hnode]
  have hrest : (gc.nodes.erase node).map (List.count x ∘ gc'.content) =
      (gc.nodes.erase node).map (List.count x ∘ gc.content) := by
    refine List.map_congr_left fun n hn => ?_
    have hne : n ≠ node := by
      rintro rfl
      exact (hnd.not_mem_erase) hn
    rw [Function.comp_apply, Function.comp_apply, hsame n hne]
  rw [hrest, Function.comp_apply, Function.comp_apply]
  omega

/-! ### Values that are replaced -/

/-- The value of a box is replaced. -/
def setValue (gc : BoaGc B E W) (node : B) (value : GcValue B E) : BoaGc B E W :=
  { gc with box := Function.update gc.box node { gc.box node with value } }

omit [DecidableEq E] in

/-- Setting a value does not change headers. -/
@[simp] theorem header_setValue (gc : BoaGc B E W) (node : B) (value : GcValue B E)
    (x : Handle B E) : (gc.setValue node value).header x = gc.header x := by
  cases x with
  | gc b => by_cases hb : b = node <;> simp [setValue, header, Function.update, hb]
  | ephemeron e => rfl

omit [DecidableEq E] in

/-- A box that was set holds the handles of its value. -/
@[simp] theorem content_setValue_self (gc : BoaGc B E W) (node : B) (value : GcValue B E) :
    (gc.setValue node value).content (.gc node) = value.visited := by
  simp [setValue, content]

omit [DecidableEq E] in

/-- Setting a value leaves what other nodes hold alone. -/
theorem content_setValue_of_ne {gc : BoaGc B E W} {node : B} {value : GcValue B E}
    {x : Handle B E} (hx : x ≠ .gc node) : (gc.setValue node value).content x = gc.content x := by
  cases x with
  | gc b =>
      have hb : b ≠ node := fun hb => hx (by rw [hb])
      simp [setValue, content, Function.update, hb]
  | ephemeron e => rfl

/-- What is in the heap when the value of a box is replaced. -/
theorem count_contents_setValue {node : B} (hnode : node ∈ gc.strongs) (hnd : gc.nodes.Nodup)
    (value : GcValue B E) (x : Handle B E) :
    (gc.setValue node value).contents.count x + (gc.content (.gc node)).count x =
      gc.contents.count x + value.visited.count x := by
  have hupdate := count_contents_update ((mem_nodes_iff (.gc node)).mpr hnode) hnd
    (show (gc.setValue node value).nodes = gc.nodes from rfl)
    (fun n hn => content_setValue_of_ne hn) x
  rwa [content_setValue_self] at hupdate

/-- The key and the value of an ephemeron are replaced. -/
def setData (gc : BoaGc B E W) (eph : E) (data : Option (B × List (Handle B E))) :
    BoaGc B E W :=
  { gc with ephemeron := Function.update gc.ephemeron eph { gc.ephemeron eph with data } }

section Data

variable (gc : BoaGc B E W) (eph : E) (data : Option (B × List (Handle B E)))

omit [DecidableEq B]

/-- Setting the data of an ephemeron does not change headers. -/
@[simp] theorem header_setData (x : Handle B E) :
    (gc.setData eph data).header x = gc.header x := by
  cases x with
  | gc b => rfl
  | ephemeron e => by_cases he : e = eph <;> simp [setData, header, Function.update, he]

/-- An ephemeron that was set holds the handles of its value. -/
@[simp] theorem content_setData_self :
    (gc.setData eph data).content (.ephemeron eph) = (data.map Prod.snd).getD [] := by
  rcases data with - | ⟨key, value⟩ <;> simp [setData, content, EphemeronBox.visited]

/-- Setting the data of an ephemeron leaves the others alone. -/
theorem data_setData (e : E) : ((gc.setData eph data).ephemeron e).data =
    if e = eph then data else (gc.ephemeron e).data := by
  by_cases he : e = eph <;> simp [setData, Function.update, he]

/-- Setting the data of an ephemeron leaves what other nodes hold alone. -/
theorem content_setData_of_ne {x : Handle B E} (hx : x ≠ .ephemeron eph) :
    (gc.setData eph data).content x = gc.content x := by
  cases x with
  | gc b => rfl
  | ephemeron e =>
      have he : e ≠ eph := fun he => hx (by rw [he])
      simp [setData, content, Function.update, he]

end Data

/-- What is in the heap when the data of an ephemeron is replaced. -/
theorem count_contents_setData {eph : E} (heph : eph ∈ gc.weaks) (hnd : gc.nodes.Nodup)
    (data : Option (B × List (Handle B E))) (x : Handle B E) :
    (gc.setData eph data).contents.count x + (gc.content (.ephemeron eph)).count x =
      gc.contents.count x + ((data.map Prod.snd).getD []).count x := by
  have hupdate := count_contents_update ((mem_nodes_iff (.ephemeron eph)).mpr heph) hnd
    (show (gc.setData eph data).nodes = gc.nodes from rfl)
    (fun n hn => content_setData_of_ne gc eph data hn) x
  rwa [content_setData_self] at hupdate

/-! ### Clearing the weak maps -/

omit [DecidableEq B] [DecidableEq E] in

/-- What all nodes hold does not depend on the headers. -/
theorem contents_of_erase (h : gc'.erase = gc.erase) : gc'.contents = gc.contents := by
  rw [contents, contents, nodes, nodes, strongs_of_erase h, weaks_of_erase h,
    funext (content_of_erase h)]

omit [DecidableEq B] [DecidableEq E] in

/-- The handles to a node do not depend on the headers. -/
theorem handlesOf_of_erase (h : gc'.erase = gc.erase) (maps : List W) :
    gc'.handlesOf maps = gc.handlesOf maps := by
  rw [handlesOf, handlesOf, weakMap_of_erase h]

/-- Dropping handles from the heap keeps the counts right. -/
theorem Counted.drop {ws : List W} {removed : List (Handle B E)}
    (hrefs : ∀ x, (gc'.header x).refCount = (gc.header x).refCount)
    (howns : ∀ x, gc'.Owns x ↔ gc.Owns x) (hmaps : gc'.handlesOf ws = gc.handlesOf ws)
    (hcount : ∀ x, gc'.contents.count x + removed.count x = gc.contents.count x)
    (h : gc.Counted ws outside) :
    (removed.foldl decRefCount gc').Counted ws outside ∧ ∀ x, gc.Owns x →
      ((removed.foldl decRefCount gc').header x).refCount.toNat ≤ (gc.header x).refCount.toNat := by
  have herase := (foldl_decRefCount gc' removed).1
  have hdrops : ∀ x, gc.Owns x →
      ((removed.foldl decRefCount gc').header x).refCount.toNat + removed.count x =
        (gc.header x).refCount.toNat := by
    intro x hx
    rw [← hrefs]
    refine drops_foldl_decRefCount gc' removed x ?_
    rw [hrefs, h x hx, ← hcount x]
    omega
  refine ⟨fun x hx => ?_, fun x hx => Nat.le_of_add_right_le (hdrops x hx).le⟩
  rw [owns_of_erase herase, howns] at hx
  have hdrop := hdrops x hx
  have hcounted := h x hx
  have hcount := hcount x
  rw [contents_of_erase herase, handlesOf_of_erase herase, hmaps]
  omega

/-- Clearing a weak map drops the handles to the entries that are removed. -/
theorem counted_clearDeadEntries {w : W} {ws : List W} (hnd : gc.nodes.Nodup)
    (hmap : ∀ map, gc.key (gc.weakMap w) = some map → map ∈ gc.strongs)
    (h : gc.Counted ws outside) :
    (gc.clearDeadEntries w).Counted ws outside ∧ ∀ x, gc.Owns x →
      ((gc.clearDeadEntries w).header x).refCount.toNat ≤ (gc.header x).refCount.toNat := by
  rw [clearDeadEntries]
  split
  · exact ⟨h, fun _ _ => Nat.le_refl _⟩
  · next map hkey =>
      split
      · next table hvalue =>
          let value : GcValue B E := .weakMap .unused (table.filter gc.hasValue)
          refine Counted.drop (fun x => congrArg GcHeader.refCount (header_setValue gc map value x))
            (fun x => by cases x <;> rfl) rfl (fun x => ?_) h
          change (gc.setValue map value).contents.count x + _ = _
          -- The entries that stay and those that are removed make up the table.
          have hupdate := count_contents_setValue (hmap map hkey) hnd value x
          have hold : gc.content (.gc map) = table.map .ephemeron := by
            rw [content, hvalue]
            rfl
          have hnew : value.visited = (table.filter gc.hasValue).map .ephemeron := rfl
          have hsplit := (List.filter_append_perm gc.hasValue table).map (Handle.ephemeron (B := B))
          have hperm := hsplit.count_eq x
          rw [List.map_append, List.count_append] at hperm
          rw [hnew, hold] at hupdate
          omega
      · exact ⟨h, fun _ _ => Nat.le_refl _⟩

/-- **Clearing the weak maps** keeps the counts right. -/
theorem counted_clearWeakMaps {ws : List W} (hnd : gc.nodes.Nodup)
    (hmaps : ∀ w ∈ ws, ∀ map, gc.key (gc.weakMap w) = some map → map ∈ gc.strongs)
    (h : gc.Counted ws outside) :
    (gc.clearWeakMaps ws).1.Counted (gc.clearWeakMaps ws).2 outside ∧ ∀ x, gc.Owns x →
      ((gc.clearWeakMaps ws).1.header x).refCount.toNat ≤ (gc.header x).refCount.toNat := by
  induction ws generalizing gc outside with
  | nil => exact ⟨h, fun _ _ => Nat.le_refl _⟩
  | cons w ws ih =>
      -- A weak map is counted with the rest of the list or with what is outside.
      have hmove : ∀ (g : BoaGc B E W) (ws : List W), g.Counted (w :: ws) outside ↔
          g.Counted ws (.ephemeron (g.weakMap w) :: outside) := by
        intro g ws
        refine forall₂_congr fun x _ => ?_
        rw [handlesOf, handlesOf, List.map_cons, List.count_cons, List.count_cons]
        split <;> omega
      rw [clearWeakMaps]
      split
      · obtain ⟨hclear, hentries⟩ := clearDeadEntries_spec gc w
        obtain ⟨hcounted, hle⟩ := counted_clearDeadEntries hnd (hmaps w List.mem_cons_self) h
        have hstrongs : (gc.clearDeadEntries w).strongs = gc.strongs :=
          congrArg (fun gc => gc.strongs) hclear.content
        have hweaks : (gc.clearDeadEntries w).weaks = gc.weaks :=
          congrArg (fun gc => gc.weaks) hclear.content
        have hmap : (gc.clearDeadEntries w).weakMap = gc.weakMap :=
          congrArg (fun gc => gc.weakMap) hclear.content
        have hnodes : (gc.clearDeadEntries w).nodes = gc.nodes := by
          rw [nodes, nodes, hstrongs, hweaks]
        have howns : ∀ x, (gc.clearDeadEntries w).Owns x ↔ gc.Owns x := fun x => by
          rw [← mem_nodes_iff, hnodes, mem_nodes_iff]
        rw [hmove] at hcounted
        obtain ⟨hrest, hle'⟩ := ih (hnodes.symm ▸ hnd) (fun v hv map hkey => by
          rw [hstrongs]
          rw [hmap, hclear.key] at hkey
          exact hmaps v (List.mem_cons_of_mem _ hv) map hkey) hcounted
        have hkept : ((gc.clearDeadEntries w).clearWeakMaps ws).1.weakMap =
            (gc.clearDeadEntries w).weakMap := by
          obtain ⟨g, heq, hclears, -⟩ := clearWeakMaps_spec ws (gc.clearDeadEntries w)
          rw [heq]
          exact congrArg (fun gc => gc.weakMap) hclears.content
        refine ⟨?_, fun x hx => (hle' x ((howns x).mpr hx)).trans (hle x hx)⟩
        rw [hmove, hkept]
        exact hrest
      · next hnone =>
          have herase : (gc.decRefCount (.ephemeron (gc.weakMap w))).erase = gc.erase :=
            erase_mapHeader ..
          have howns := owns_of_erase herase
          have hcons : ∀ x, (gc.handlesOf (w :: ws)).count x =
              [Handle.ephemeron (gc.weakMap w)].count x + (gc.handlesOf ws).count x :=
            fun x => by
              simp only [handlesOf, List.map_cons, List.count_cons, List.count_nil]
              omega
          -- The handle by which the weak map was known is dropped.
          have hheld : ∀ x, gc.Owns x → [Handle.ephemeron (gc.weakMap w)].count x ≤
              (gc.header x).refCount.toNat := by
            intro x hx
            rw [h x hx, hcons]
            omega
          have hdrop : ∀ x, gc.Owns x →
              ((gc.decRefCount (.ephemeron (gc.weakMap w))).header x).refCount.toNat +
                [Handle.ephemeron (gc.weakMap w)].count x = (gc.header x).refCount.toNat :=
            fun x hx => drops_foldl_decRefCount gc [.ephemeron (gc.weakMap w)] x (hheld x hx)
          have hcounted : (gc.decRefCount (.ephemeron (gc.weakMap w))).Counted ws outside := by
            intro x hx
            have hdrop := hdrop x ((howns x).mp hx)
            have hcounted := h x ((howns x).mp hx)
            rw [hcons] at hcounted
            rw [contents_of_erase herase, handlesOf_of_erase herase]
            omega
          have hnodes : (gc.decRefCount (.ephemeron (gc.weakMap w))).nodes.Nodup := by
            rw [nodes, strongs_of_erase herase, weaks_of_erase herase]
            exact hnd
          obtain ⟨hrest, hle⟩ := ih hnodes (fun v hv map hkey => by
            rw [strongs_of_erase herase]
            rw [weakMap_of_erase herase, key_of_erase herase] at hkey
            exact hmaps v (List.mem_cons_of_mem _ hv) map hkey) hcounted
          exact ⟨hrest, fun x hx => (hle x ((howns x).mpr hx)).trans
            (Nat.le_of_add_right_le (hdrop x hx).le)⟩

/-! ### A whole collection -/

/-- **Finalizing and marking again** drops the handles in what is not reachable. -/
theorem finalizeAndMark_idle (h : gc.Consistent) (hlog : gc.finalized = []) {t : Tracing B E W}
    {u : Unreachables B E} (ht : Tracing.MarksHeap gc.traceNonRoots gc.IsLive t u)
    (heq : finalizeAndMark (.idle B E W) t.gc u = some gc') :
    Drops (t.gc.heldBy (u.strong.map .gc) ++ t.gc.heldBy (u.weak.map .ephemeron)) t.gc gc' ∧
      Empties u.weak t.gc gc' := by
  have herase : t.gc.erase = gc.erase := ht.marks.content.trans (erase_traceNonRoots gc)
  have hstrongs : gc.traceNonRoots.strongs = gc.strongs := strongs_of_erase (erase_traceNonRoots gc)
  have hweaks : gc.traceNonRoots.weaks = gc.weaks := weaks_of_erase (erase_traceNonRoots gc)
  have hweak : u.weak.Nodup := ht.weak ▸ (hweaks ▸ h.weaks).filter _
  obtain ⟨hdrops, hempties⟩ := finalize_idle hweak t.gc
  rw [finalizeAndMark] at heq
  split at heq
  · have hfinalized : t.gc.finalized = [] := (congrArg (fun gc => gc.finalized) herase).trans hlog
    obtain ⟨hframe, hcondemned⟩ := finalize_spec Finalizer.harmless_idle
      (condemned_of_marksHeap h ht) (ht.strong ▸ (hstrongs ▸ h.strongs).filter _)
      (fun b hb => by
        rw [ht.strong, hstrongs, List.mem_filter] at hb
        rw [strongs_of_erase herase, hfinalized]
        exact ⟨hb.1, by simpa using hb.2, List.not_mem_nil⟩)
      hweak
      (fun e he => by
        rw [ht.weak, hweaks, List.mem_filter] at he
        rw [weaks_of_erase herase]
        exact ⟨he.1, by simpa using he.2⟩)
    have hlive : ∀ x, (t.gc.finalize (.idle B E W) u).isMarked x = true ↔ gc.IsLive x :=
      fun x => by rw [hframe.isMarked, isMarked_iff_isLive h ht]
    obtain ⟨t', u', heq', hmarks, -⟩ := markHeap_of_condemned hcondemned
      (by rw [hframe.strongs, strongs_of_erase herase]; exact h.strongs)
      (by rw [hframe.weaks, weaks_of_erase herase]; exact h.weaks)
      (fun x hx => by
        rw [hframe.owns_iff, owns_of_erase herase]
        exact ((hlive x).mp hx).owns h.owned)
      (fun w hw => by
        rw [hframe.weakMaps, weakMaps_of_erase herase] at hw
        rw [hlive, hframe.weakMap, weakMap_of_erase herase]
        exact .root ⟨h.weakMaps w hw, h.external_weakMap hw⟩)
    rw [heq'] at heq
    obtain rfl : t'.gc = gc' := Option.some.inj heq
    have hdrops' := hdrops.trans hmarks.drops
    have hempties' := hempties.trans (.of_erase hmarks.content)
    rw [List.append_nil] at hdrops' hempties'
    exact ⟨hdrops', hempties'⟩
  · next hempty =>
      have hnone : u.strong = [] ∧ u.weak = [] := by simpa using hempty
      obtain rfl : t.gc = gc' := Option.some.inj heq
      rw [hnone.1, hnone.2]
      exact ⟨.of_refCount fun _ => rfl, .of_erase rfl⟩

/-- The sum over what is kept, where what is settled counts for nothing, and the sum over what is
settled make up the whole. -/
theorem sum_settled {α : Type} {kept settled : α → Bool} {f g : α → ℕ} {xs : List α}
    (hkept : ∀ a, settled a = false → kept a = true)
    (hzero : ∀ a ∈ xs, settled a = true → g a = 0)
    (hsame : ∀ a ∈ xs, settled a = false → g a = f a) :
    ((xs.filter kept).map g).sum + ((xs.filter settled).map f).sum = (xs.map f).sum := by
  induction xs with
  | nil => rfl
  | cons a xs ih =>
      have hrest := ih (fun b hb => hzero b (List.mem_cons_of_mem _ hb))
        fun b hb => hsame b (List.mem_cons_of_mem _ hb)
      rw [List.filter_cons, List.filter_cons, List.map_cons, List.sum_cons]
      cases hsettled : settled a with
      | false =>
          rw [if_pos (hkept a hsettled), if_neg Bool.false_ne_true, List.map_cons, List.sum_cons,
            hsame a List.mem_cons_self hsettled]
          omega
      | true =>
          rw [if_pos rfl, List.map_cons, List.sum_cons]
          split
          · rw [List.map_cons, List.sum_cons, hzero a List.mem_cons_self hsettled]
            omega
          · omega

/-- The handles that several nodes hold are counted node by node. -/
theorem count_heldBy_map {α : Type} (gc : BoaGc B E W) (node : α → Handle B E) (xs : List α)
    (x : Handle B E) : (gc.heldBy (xs.map node)).count x =
      (xs.map fun a => (gc.content (node a)).count x).sum := by
  rw [heldBy, List.count_flatMap, List.map_map]
  rfl

/-- **The heap before the sweep**, compared with the heap before the collection: of what is live
the values are as they were, and the reference counts are lower by the handles that were in what
is not. -/
structure Emptied (gc gc' : BoaGc B E W) : Prop where
  value : ∀ b, (gc'.box b).value = (gc.box b).value
  data : ∀ e, gc.IsLive (.ephemeron e) → ∀ key value,
    (gc.ephemeron e).data = some (key, value) → gc.IsLive (.gc key) →
      (gc'.ephemeron e).data = some (key, value)
  refCount : ∀ x, gc.Owns x → (gc'.header x).refCount.toNat + gc.contents.count x =
    (gc.header x).refCount.toNat + gc'.sweep.contents.count x
  contents : ∀ x, gc'.sweep.contents.count x ≤ gc.contents.count x

/-- The sweep changes no values. -/
theorem Swept.content_eq (h : Swept gc gc') (x : Handle B E) : gc'.content x = gc.content x := by
  cases x with
  | gc b => exact congrArg (fun gc => (gc.box b).value.visited) h.content
  | ephemeron e => exact congrArg (fun gc => (gc.ephemeron e).visited) h.content

/-- What the heap holds after the sweep, and what was dropped, make up what it held before. -/
theorem count_contents_sweep (h : gc.Consistent) {t : Tracing B E W} {u : Unreachables B E}
    (ht : Tracing.MarksHeap gc.traceNonRoots gc.IsLive t u) (hp : Prepared gc gc')
    (hempties : Empties u.weak t.gc gc') (x : Handle B E) :
    gc'.sweep.contents.count x +
        (t.gc.heldBy (u.strong.map .gc) ++ t.gc.heldBy (u.weak.map .ephemeron)).count x =
      gc.contents.count x := by
  have hs := sweep_spec (hp.strongs ▸ h.strongs : gc'.strongs.Nodup) (hp.weaks ▸ h.weaks)
  have hmarked : ∀ x, gc'.isMarked x = t.gc.isMarked x := fun x => by
    rw [Bool.eq_iff_iff, hp.marked, isMarked_iff_isLive h ht]
  have hcontent : ∀ x, t.gc.content x = gc.content x :=
    content_of_erase (ht.marks.content.trans (erase_traceNonRoots gc))
  have hweak : u.weak = gc.weaks.filter fun e => !t.gc.traceable e := by
    rw [ht.weak, weaks_of_erase (erase_traceNonRoots gc)]
  have hstrong : u.strong = gc.strongs.filter fun b => !t.gc.isMarked (.gc b) := by
    rw [ht.strong, strongs_of_erase (erase_traceNonRoots gc)]
  have hbox : ∀ b, gc'.content (.gc b) = gc.content (.gc b) := fun b => by
    rw [hempties.content_gc, hcontent]
  have hboxes := sum_kept_add_dropped (fun b => t.gc.isMarked (.gc b))
    (fun b => (gc.content (.gc b)).count x) gc.strongs
  have hephs : ((gc.weaks.filter fun e => t.gc.isMarked (.ephemeron e)).map
        fun e => (gc'.content (.ephemeron e)).count x).sum +
      ((gc.weaks.filter fun e => !t.gc.traceable e).map
        fun e => (gc.content (.ephemeron e)).count x).sum =
      (gc.weaks.map fun e => (gc.content (.ephemeron e)).count x).sum := by
    refine sum_settled (fun e htraced => ?_) (fun e he hdead => ?_) fun e he htraced => ?_
    · rw [Bool.not_eq_false', traceable, Bool.and_eq_true] at htraced
      exact htraced.1
    · rw [hempties.content_ephemeron, if_pos (hweak ▸ List.mem_filter.mpr ⟨he, hdead⟩),
        List.count_nil]
    · have hkept : e ∉ u.weak := by
        rw [hweak, List.mem_filter, htraced]
        exact fun hdead => Bool.false_ne_true hdead.2
      rw [hempties.content_ephemeron, if_neg hkept, hcontent]
  rw [List.count_append, count_heldBy_map, count_heldBy_map, count_contents, count_contents,
    hs.strongs, hs.weaks, hp.strongs, hp.weaks, hstrong, hweak]
  simp only [hs.content_eq, hmarked, hcontent, hbox]
  omega

/-- **Marking, finalizing and marking again** empties what is not live. -/
theorem exists_emptied (h : gc.Consistent) (hlog : gc.finalized = []) :
    ∃ t u gc', Tracing.markHeap ⟨gc.traceNonRoots, []⟩ = some (t, u) ∧ t.queue = [] ∧
      finalizeAndMark (.idle B E W) t.gc u = some gc' ∧ Prepared gc gc' ∧ Emptied gc gc' := by
  obtain ⟨t, u, hmark, hqueue, gc', hfinal, hp⟩ := exists_prepared Finalizer.harmless_idle h hlog
  obtain ⟨t', u', hmark', ht⟩ := markHeap_traceNonRoots h
  obtain ⟨rfl, rfl⟩ : t = t' ∧ u = u' := by
    rw [hmark] at hmark'
    exact Prod.ext_iff.mp (Option.some.inj hmark')
  obtain ⟨hdrops, hempties⟩ := finalizeAndMark_idle h hlog ht hfinal
  have herase : t.gc.erase = gc.erase := ht.marks.content.trans (erase_traceNonRoots gc)
  refine ⟨t, u, gc', hmark, hqueue, hfinal, hp, ?_, fun e he key value hdata hkey => ?_,
    fun x hx => ?_, fun x => ?_⟩
  · intro b
    rw [hempties.value, value_of_erase herase]
  · have hkey' : t.gc.key e = some key := by
      rw [key_of_erase herase, BoaGc.key, hdata]
      rfl
    have htraced : t.gc.traceable e = true := (traceable_iff_of_key hkey').mpr
      ⟨(isMarked_iff_isLive h ht _).mpr he, (isMarked_iff_isLive h ht _).mpr hkey⟩
    rw [hempties.data, if_neg, data_of_erase herase, hdata]
    rw [ht.weak, List.mem_filter, htraced]
    exact fun hdead => Bool.false_ne_true hdead.2
  · have hsame : (t.gc.header x).refCount = (gc.header x).refCount := by
      rcases ht.marks.header x with heq | heq
      · rw [heq, (h.traceNonRoots x).1]
      · rw [heq, GcHeader.refCount_mark, (h.traceNonRoots x).1]
    have hcount := count_contents_sweep h ht hp hempties x
    have hcounted := h.counted x hx
    have hdrop := hdrops x (by rw [hsame]; omega)
    rw [hsame] at hdrop
    omega
  · exact Nat.le_of_add_right_le (count_contents_sweep h ht hp hempties x).le

/-- **What a collection leaves behind**, of the counts and of the values. -/
structure Kept (outside : List (Handle B E)) (gc gc' : BoaGc B E W) : Prop where
  counted : gc'.Counted gc'.weakMaps outside
  refCount : ∀ x, gc'.Owns x → (gc'.header x).refCount.toNat ≤ (gc.header x).refCount.toNat
  weakMap : gc'.weakMap = gc.weakMap
  value : ∀ b, (gc'.box b).value = (gc.box b).value ∨
    ∃ table, (gc.box b).value = .weakMap .unused table ∧
      (gc'.box b).value = .weakMap .unused (table.filter gc'.hasValue)
  data : ∀ e, gc.IsLive (.ephemeron e) → ∀ key value,
    (gc.ephemeron e).data = some (key, value) → gc.IsLive (.gc key) →
      (gc'.ephemeron e).data = some (key, value)

/-- The sweep keeps the counts right. -/
theorem counted_sweep (h : gc.Consistent) (hcounted : gc.Counted gc.weakMaps outside)
    (hp : Prepared gc gc') (he : Emptied gc gc') :
    gc'.sweep.Counted gc.weakMaps outside ∧ ∀ x, gc'.sweep.Owns x →
      gc.Owns x ∧ (gc'.sweep.header x).refCount.toNat ≤ (gc.header x).refCount.toNat := by
  have hs := sweep_spec (hp.strongs ▸ h.strongs : gc'.strongs.Nodup) (hp.weaks ▸ h.weaks)
  have hkept : ∀ x, gc'.sweep.Owns x → gc.Owns x := by
    intro x hx
    cases x with
    | gc b =>
        rw [Owns, hs.strongs, hp.strongs] at hx
        exact (List.mem_filter.mp hx).1
    | ephemeron e =>
        rw [Owns, hs.weaks, hp.weaks] at hx
        exact (List.mem_filter.mp hx).1
  have hsame : ∀ x, (gc'.sweep.header x).refCount = (gc'.header x).refCount := by
    intro x
    rw [hs.header]
    split
    · rw [sweepHeader, GcHeader.reset_unmark]
    · rfl
  have hmaps : gc'.sweep.handlesOf gc.weakMaps = gc.handlesOf gc.weakMaps := by
    have hmap : gc'.sweep.weakMap = gc.weakMap :=
      (congrArg (fun gc => gc.weakMap) hs.content).trans hp.weakMap
    rw [handlesOf, handlesOf, hmap]
  refine ⟨fun x hx => ?_, fun x hx => ⟨hkept x hx, ?_⟩⟩
  all_goals
    have hrefs := he.refCount x (hkept x hx)
    have hle := he.contents x
    have hcounted := hcounted x (hkept x hx)
    rw [hsame]
  · rw [hmaps]
    omega
  · omega

/-- **A collection keeps the reference counts right**, and changes no value of what is live, but
for entries of weak maps that are dropped. -/
theorem Consistent.kept_collect (h : gc.Consistent) (hcounted : gc.Counted gc.weakMaps outside)
    (heq : gc.collect (.idle B E W) = some gc') : Kept outside gc gc' := by
  let gc₀ : BoaGc B E W :=
    { gc with collections := gc.collections + 1, finalized := [], dropped := [] }
  have howned : gc₀.Owned := ⟨h.owned.fields, h.owned.values⟩
  have h₀ : gc₀.Consistent := ⟨h.strongs, h.weaks, howned, h.weakMaps, h.counted, h.max, h.clean,
    h.unmarked, h.bytes⟩
  obtain ⟨t, u, gc₃, hmark, hqueue, hfinal, hp, he⟩ := exists_emptied h₀ rfl
  have hs := sweep_spec (hp.strongs ▸ h₀.strongs : gc₃.strongs.Nodup) (hp.weaks ▸ h₀.weaks)
  obtain ⟨hcounted₄, hle₄⟩ := counted_sweep h₀ hcounted hp he
  have hweakMap : gc₃.sweep.weakMap = gc.weakMap :=
    (congrArg (fun gc => gc.weakMap) hs.content).trans hp.weakMap
  have hmaps : ∀ w ∈ gc.weakMaps, ∀ map, gc₃.sweep.key (gc₃.sweep.weakMap w) = some map →
      map ∈ gc₃.sweep.strongs := by
    intro w hw map hkey
    have hlive : gc₃.isMarked (.ephemeron (gc.weakMap w)) = true :=
      (hp.marked _).mpr (.root ⟨h₀.weakMaps w hw, h₀.external_weakMap hw⟩)
    have hsame : gc₃.sweep.key (gc.weakMap w) = gc₃.key (gc.weakMap w) :=
      congrArg (fun gc' => (gc'.ephemeron (gc.weakMap w)).data.map Prod.fst) hs.content
    rw [hweakMap, hsame, hp.key _ hlive] at hkey
    rw [hs.strongs, hp.strongs, List.mem_filter]
    exact ⟨((hp.marked _).mp hkey.2).owns h₀.owned, hkey.2⟩
  have hnd : gc₃.sweep.nodes.Nodup := by
    refine nodup_nodes ?_ ?_
    · rw [hs.strongs, hp.strongs]
      exact h.strongs.filter _
    · rw [hs.weaks, hp.weaks]
      exact h.weaks.filter _
  obtain ⟨hcounted₅, hle₅⟩ := counted_clearWeakMaps hnd hmaps hcounted₄
  obtain ⟨gc₅, hclear, hclears, -⟩ := clearWeakMaps_spec gc.weakMaps gc₃.sweep
  rw [hclear] at hcounted₅ hle₅
  have hcollect : gc' = { gc₅ with
      weakMaps := gc.weakMaps.filter fun w => (gc₃.sweep.key (gc₃.sweep.weakMap w)).isSome } := by
    have hweakMaps : gc₃.sweep.weakMaps = gc.weakMaps :=
      (congrArg (fun gc => gc.weakMaps) hs.content).trans hp.weakMaps
    simp only [collect, Option.bind_eq_bind] at heq
    rw [hmark, Option.bind_some, hqueue] at heq
    simp only [List.isEmpty_nil, if_true] at heq
    rw [hfinal, Option.bind_some, hweakMaps, hclear] at heq
    exact (Option.some.inj heq).symm
  have howns : ∀ x, gc'.Owns x → gc₃.sweep.Owns x := by
    have hstrongs : gc₅.strongs = gc₃.sweep.strongs :=
      congrArg (fun gc => gc.strongs) hclears.content
    have hweaks : gc₅.weaks = gc₃.sweep.weaks := congrArg (fun gc => gc.weaks) hclears.content
    rw [hcollect]
    intro x hx
    cases x with
    | gc b => exact (congrArg (b ∈ ·) hstrongs).mp hx
    | ephemeron e => exact (congrArg (e ∈ ·) hweaks).mp hx
  have hheader : ∀ x, gc'.header x = gc₅.header x := fun x => by
    rw [hcollect]
    cases x <;> rfl
  have hdata : ∀ e, (gc₅.ephemeron e).data = (gc₃.ephemeron e).data := fun e =>
    (congrArg (fun gc => (gc.ephemeron e).data) hclears.content).trans
      (congrArg (fun gc => (gc.ephemeron e).data) hs.content)
  refine ⟨?_, fun x hx => ?_, ?_, fun b => ?_, fun e hlive key value hold hkey => ?_⟩
  · intro x hx
    rw [hheader, hcollect]
    rw [hcollect] at hx
    exact hcounted₅ x hx
  · rw [hheader]
    exact (hle₅ x (howns x hx)).trans (hle₄ x (howns x hx)).2
  · rw [hcollect]
    exact (congrArg (fun gc => gc.weakMap) hclears.content).trans hweakMap
  · have hbox : (gc₃.sweep.box b).value = (gc.box b).value :=
      (congrArg (fun gc => (gc.box b).value) hs.content).trans (he.value b)
    have hhas : gc'.hasValue = gc₃.sweep.hasValue := by
      rw [hcollect]
      exact hclears.hasValue
    rw [hhas, ← hbox, hcollect]
    exact hclears.value b
  · rw [hcollect]
    exact (hdata e).trans (he.data e hlive key value hold hkey)

end BoaGc

end BoaLigero
