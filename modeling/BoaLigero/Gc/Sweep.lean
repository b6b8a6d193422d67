import BoaLigero.Gc.Finalization

/-!
# The Sweep

The sweep keeps what is marked and clears its header; what is not marked is dropped. After it
the weak maps that are alive lose the entries without a value.

## Main results

* `sweep_spec` — the lists keep what is marked, and the bytes of the rest are given back.
* `clearWeakMaps_spec` — the entries that are left have a value.
-/

namespace BoaLigero

variable {B E W : Type} [DecidableEq B] [DecidableEq E]

namespace BoaGc

variable {gc gc' gc'' : BoaGc B E W} {kept kept' : List (Handle B E)}

/-- Of the heap only the headers of `kept` are changed, besides what is counted and logged. -/
structure Sweeps (kept : List (Handle B E)) (gc gc' : BoaGc B E W) : Prop where
  content : ({ gc' with bytesAllocated := gc.bytesAllocated, dropped := gc.dropped } :
    BoaGc B E W).erase = gc.erase
  header : ∀ x, gc'.header x = if x ∈ kept then sweepHeader (gc.header x) else gc.header x

/-- Sweeping nothing changes nothing. -/
theorem Sweeps.refl (gc : BoaGc B E W) : Sweeps [] gc gc := ⟨rfl, by simp⟩

/-- Sweeping a header twice does no more than sweeping it once. -/
theorem sweepHeader_sweepHeader (h : GcHeader) : sweepHeader (sweepHeader h) = sweepHeader h := by
  rw [sweepHeader, sweepHeader, GcHeader.reset_unmark, GcHeader.reset_unmark]

/-- Sweeping can be done in several steps. -/
theorem Sweeps.trans (h : Sweeps kept gc gc') (h' : Sweeps kept' gc' gc'') :
    Sweeps (kept ++ kept') gc gc'' where
  content := (congrArg (fun g : BoaGc B E W =>
    { g with bytesAllocated := gc.bytesAllocated, dropped := gc.dropped }) h'.content).trans h.content
  header x := by
    rw [h'.header, h.header]
    by_cases hx : x ∈ kept <;> by_cases hx' : x ∈ kept' <;> simp [hx, hx', sweepHeader_sweepHeader]

/-- What is not swept keeps its mark. -/
theorem Sweeps.isMarked (h : Sweeps kept gc gc') {x : Handle B E} (hx : x ∉ kept) :
    gc'.isMarked x = gc.isMarked x := by
  rw [BoaGc.isMarked, BoaGc.isMarked, h.header, if_neg hx]

/-- Sweeping one header keeps its node. -/
theorem Sweeps.mapHeader (gc : BoaGc B E W) (x : Handle B E) :
    Sweeps [x] gc (gc.mapHeader x sweepHeader) := by
  refine ⟨?_, fun y => ?_⟩
  · have herase := erase_mapHeader gc x sweepHeader
    cases x <;> exact herase
  · rw [header_mapHeader]
    by_cases hy : y = x <;> simp [hy]

/-- **Sweeping the boxes.** -/
theorem sweepStrongs_spec {nodes : List B} (hnd : nodes.Nodup) (gc : BoaGc B E W) :
    ∃ gc', gc.sweepStrongs nodes = (gc', nodes.filter fun b => gc.isMarked (.gc b)) ∧
      Sweeps ((nodes.filter fun b => gc.isMarked (.gc b)).map .gc) gc gc' ∧
      gc'.bytesAllocated = gc.bytesAllocated -
        ((nodes.filter fun b => !gc.isMarked (.gc b)).map fun b => (gc.box b).size).sum ∧
      gc'.dropped = gc.dropped ++ nodes.filter fun b => !gc.isMarked (.gc b) := by
  induction nodes generalizing gc with
  | nil => exact ⟨gc, rfl, .refl gc, rfl, (List.append_nil _).symm⟩
  | cons node nodes ih =>
      obtain ⟨hfresh, hnd⟩ := List.nodup_cons.mp hnd
      rw [sweepStrongs]
      split
      · next hmarked =>
          have hsweep := Sweeps.mapHeader gc (.gc node)
          obtain ⟨gc', heq, hsweeps, hbytes, hdropped⟩ := ih hnd (gc.mapHeader (.gc node) sweepHeader)
          have hmarks : ∀ b ∈ nodes,
              (gc.mapHeader (.gc node) sweepHeader).isMarked (.gc b) = gc.isMarked (.gc b) := by
            refine fun b hb => hsweep.isMarked ?_
            rw [List.mem_singleton, Handle.gc.injEq]
            rintro rfl
            exact hfresh hb
          have hsizes : (fun b => ((gc.mapHeader (.gc node) sweepHeader).box b).size) =
              fun b => (gc.box b).size := congrArg (fun gc b => (gc.box b).size) hsweep.content
          rw [List.filter_congr hmarks] at heq hsweeps
          rw [List.filter_congr fun b hb => congrArg not (hmarks b hb)] at hbytes hdropped
          rw [hsizes] at hbytes
          rw [List.filter_cons_of_pos (p := fun b => gc.isMarked (.gc b)) hmarked,
            List.filter_cons_of_neg (p := fun b => !gc.isMarked (.gc b)) (by simp [hmarked]), heq]
          exact ⟨gc', rfl, hsweep.trans hsweeps, hbytes, hdropped⟩
      · next hdead =>
          obtain ⟨gc', heq, hsweeps, hbytes, hdropped⟩ := ih hnd
            { gc with
              bytesAllocated := gc.bytesAllocated - (gc.box node).size
              dropped := gc.dropped ++ [node] }
          rw [List.filter_cons_of_neg (p := fun b => gc.isMarked (.gc b)) hdead,
            List.filter_cons_of_pos (p := fun b => !gc.isMarked (.gc b)) (by simpa using hdead)]
          refine ⟨gc', heq, ⟨?_, hsweeps.header⟩, ?_, ?_⟩
          · exact congrArg (fun g : BoaGc B E W =>
              { g with bytesAllocated := gc.bytesAllocated, dropped := gc.dropped }) hsweeps.content
          · rw [hbytes, List.map_cons, List.sum_cons, ← Nat.sub_sub]
            rfl
          · rw [hdropped, List.append_assoc]
            rfl

/-- **Sweeping the ephemerons.** -/
theorem sweepWeaks_spec {ephs : List E} (hnd : ephs.Nodup) (gc : BoaGc B E W) :
    ∃ gc', gc.sweepWeaks ephs = (gc', ephs.filter fun e => gc.isMarked (.ephemeron e)) ∧
      Sweeps ((ephs.filter fun e => gc.isMarked (.ephemeron e)).map .ephemeron) gc gc' ∧
      gc'.bytesAllocated = gc.bytesAllocated -
        ((ephs.filter fun e => !gc.isMarked (.ephemeron e)).map
          fun e => (gc.ephemeron e).size).sum ∧
      gc'.dropped = gc.dropped := by
  induction ephs generalizing gc with
  | nil => exact ⟨gc, rfl, .refl gc, rfl, rfl⟩
  | cons eph ephs ih =>
      obtain ⟨hfresh, hnd⟩ := List.nodup_cons.mp hnd
      rw [sweepWeaks]
      split
      · next hmarked =>
          have hsweep := Sweeps.mapHeader gc (.ephemeron eph)
          obtain ⟨gc', heq, hsweeps, hbytes, hdropped⟩ :=
            ih hnd (gc.mapHeader (.ephemeron eph) sweepHeader)
          have hmarks : ∀ e ∈ ephs, (gc.mapHeader (.ephemeron eph) sweepHeader).isMarked
              (.ephemeron e) = gc.isMarked (.ephemeron e) := by
            refine fun e he => hsweep.isMarked ?_
            rw [List.mem_singleton, Handle.ephemeron.injEq]
            rintro rfl
            exact hfresh he
          have hsizes : (fun e => ((gc.mapHeader (.ephemeron eph) sweepHeader).ephemeron e).size) =
              fun e => (gc.ephemeron e).size :=
            congrArg (fun gc e => (gc.ephemeron e).size) hsweep.content
          rw [List.filter_congr hmarks] at heq hsweeps
          rw [List.filter_congr fun e he => congrArg not (hmarks e he), hsizes] at hbytes
          rw [List.filter_cons_of_pos (p := fun e => gc.isMarked (.ephemeron e)) hmarked,
            List.filter_cons_of_neg (p := fun e => !gc.isMarked (.ephemeron e)) (by simp [hmarked]), heq]
          exact ⟨gc', rfl, hsweep.trans hsweeps, hbytes, hdropped⟩
      · next hdead =>
          obtain ⟨gc', heq, hsweeps, hbytes, hdropped⟩ := ih hnd
            { gc with bytesAllocated := gc.bytesAllocated - (gc.ephemeron eph).size }
          rw [List.filter_cons_of_neg (p := fun e => gc.isMarked (.ephemeron e)) hdead,
            List.filter_cons_of_pos (p := fun e => !gc.isMarked (.ephemeron e)) (by simpa using hdead)]
          refine ⟨gc', heq, ⟨?_, hsweeps.header⟩, ?_, hdropped⟩
          · exact congrArg (fun g : BoaGc B E W =>
              { g with bytesAllocated := gc.bytesAllocated, dropped := gc.dropped }) hsweeps.content
          · rw [hbytes, List.map_cons, List.sum_cons, ← Nat.sub_sub]
            rfl

/-- What the sweep does. -/
structure Swept (gc gc' : BoaGc B E W) : Prop where
  strongs : gc'.strongs = gc.strongs.filter fun b => gc.isMarked (.gc b)
  weaks : gc'.weaks = gc.weaks.filter fun e => gc.isMarked (.ephemeron e)
  content : ({ gc' with
    strongs := gc.strongs
    weaks := gc.weaks
    bytesAllocated := gc.bytesAllocated
    dropped := gc.dropped } : BoaGc B E W).erase = gc.erase
  header : ∀ x, gc'.header x =
    if x ∈ gc.nodes ∧ gc.isMarked x = true then sweepHeader (gc.header x) else gc.header x
  bytes : gc'.bytesAllocated = gc.bytesAllocated -
    ((gc.strongs.filter fun b => !gc.isMarked (.gc b)).map fun b => (gc.box b).size).sum -
    ((gc.weaks.filter fun e => !gc.isMarked (.ephemeron e)).map fun e => (gc.ephemeron e).size).sum
  dropped : gc'.dropped = gc.dropped ++ gc.strongs.filter fun b => !gc.isMarked (.gc b)

/-- **The sweep.** -/
theorem sweep_spec (hstrongs : gc.strongs.Nodup) (hweaks : gc.weaks.Nodup) : Swept gc gc.sweep := by
  obtain ⟨gc₁, heq₁, hsweeps₁, hbytes₁, hdropped₁⟩ := sweepStrongs_spec hstrongs gc
  let gc₂ := { gc₁ with strongs := gc.strongs.filter fun b => gc.isMarked (.gc b) }
  have hweaks₂ : gc₂.weaks = gc.weaks := congrArg (fun gc => gc.weaks) hsweeps₁.content
  have hnodup : gc₂.weaks.Nodup := hweaks₂.symm ▸ hweaks
  obtain ⟨gc₃, heq₃, hsweeps₃, hbytes₃, hdropped₃⟩ := sweepWeaks_spec hnodup gc₂
  have hsweep : gc.sweep =
      { gc₃ with weaks := gc₂.weaks.filter fun e => gc₂.isMarked (.ephemeron e) } := by
    rw [sweep, heq₁]
    dsimp only
    rw [heq₃]
  have hmarks : (fun e => gc₂.isMarked (.ephemeron e)) = fun e => gc.isMarked (.ephemeron e) :=
    funext fun e => hsweeps₁.isMarked (x := .ephemeron e) (by simp)
  have hsizes : (fun e => (gc₂.ephemeron e).size) = fun e => (gc.ephemeron e).size :=
    congrArg (fun gc e => (gc.ephemeron e).size) hsweeps₁.content
  have hmarks' : (fun e => !gc₂.isMarked (.ephemeron e)) =
      fun e => !gc.isMarked (.ephemeron e) := funext fun e => congrArg not (congrFun hmarks e)
  rw [hweaks₂, hmarks] at hsweeps₃ hsweep
  rw [hweaks₂, hmarks', hsizes] at hbytes₃
  have hheader₂ : ∀ x, gc₂.header x = gc₁.header x := fun x => by cases x <;> rfl
  have hheader₃ : ∀ x, gc.sweep.header x = gc₃.header x := fun x => by
    rw [hsweep]
    cases x <;> rfl
  refine ⟨?_, by rw [hsweep], ?_, fun x => ?_, ?_, ?_⟩
  · rw [hsweep]
    exact strongs_of_erase hsweeps₃.content
  · have hcontent₁ := congrArg (fun g : BoaGc B E W =>
      { g with strongs := gc.strongs, weaks := gc.weaks }) hsweeps₁.content
    have hcontent₃ := congrArg (fun g : BoaGc B E W =>
      { g with
        strongs := gc.strongs
        weaks := gc.weaks
        bytesAllocated := gc.bytesAllocated
        dropped := gc.dropped }) hsweeps₃.content
    rw [hsweep]
    exact hcontent₃.trans hcontent₁
  · rw [hheader₃, hsweeps₃.header, hheader₂, hsweeps₁.header]
    cases x with
    | gc b => simp [nodes]
    | ephemeron e => simp [nodes]
  · rw [hsweep]
    exact hbytes₃.trans (by rw [← hbytes₁])
  · rw [hsweep]
    exact hdropped₃.trans hdropped₁

/-! ### Weak maps -/

/-- Tables of weak maps lose entries without a value, and reference counts change. -/
structure Clears (gc gc' : BoaGc B E W) : Prop where
  content : ({ gc' with box := gc.box } : BoaGc B E W).erase = gc.erase
  size : ∀ b, (gc'.box b).size = (gc.box b).size
  nonRootCell : ∀ x, (gc'.header x).nonRootCell = (gc.header x).nonRootCell
  value : ∀ b, (gc'.box b).value = (gc.box b).value ∨
    ∃ table, (gc.box b).value = .weakMap .unused table ∧
      (gc'.box b).value = .weakMap .unused (table.filter gc.hasValue)

omit [DecidableEq B] [DecidableEq E] in

/-- Nothing has to be cleared. -/
theorem Clears.refl (gc : BoaGc B E W) : Clears gc gc :=
  ⟨rfl, fun _ => rfl, fun _ => rfl, fun _ => .inl rfl⟩

omit [DecidableEq B] [DecidableEq E] in

/-- Clearing entries of weak maps does not change which ephemerons have values. -/
theorem Clears.hasValue (h : Clears gc gc') : gc'.hasValue = gc.hasValue :=
  funext fun e => congrArg (fun gc => (gc.ephemeron e).data.isSome) h.content

omit [DecidableEq B] [DecidableEq E] in

/-- Clearing entries of weak maps does not change keys. -/
theorem Clears.key (h : Clears gc gc') (e : E) : gc'.key e = gc.key e :=
  congrArg (fun gc => (gc.ephemeron e).data.map Prod.fst) h.content

omit [DecidableEq B] [DecidableEq E] in

/-- Clearing can be done in several steps. -/
theorem Clears.trans (h : Clears gc gc') (h' : Clears gc' gc'') : Clears gc gc'' where
  content := (congrArg (fun g : BoaGc B E W => { g with box := gc.erase.box }) h'.content).trans
    h.content
  size b := (h'.size b).trans (h.size b)
  nonRootCell x := (h'.nonRootCell x).trans (h.nonRootCell x)
  value b := by
    rcases h.value b with hsame | ⟨table, hold, hnew⟩
    · rw [← hsame, ← h.hasValue]
      exact h'.value b
    · refine .inr ⟨table, hold, ?_⟩
      rcases h'.value b with hsame | ⟨table', hold', hnew'⟩
      · exact hsame.trans hnew
      · rw [hnew] at hold'
        cases hold'
        rw [hnew', h.hasValue, List.filter_filter, funext fun e => Bool.and_self (gc.hasValue e)]

/-- Dropping handles clears nothing. -/
theorem Clears.foldl_decRefCount (gc : BoaGc B E W) (hs : List (Handle B E)) :
    Clears gc (hs.foldl decRefCount gc) := by
  obtain ⟨herase, hcell⟩ := BoaGc.foldl_decRefCount gc hs
  exact ⟨congrArg (fun g : BoaGc B E W => { g with box := gc.erase.box }) herase,
    fun b => congrArg (fun gc => (gc.box b).size) herase, hcell,
    fun b => .inl (value_of_erase herase b)⟩

/-- **Clearing a weak map**: the entries that are left have a value. -/
theorem clearDeadEntries_spec (gc : BoaGc B E W) (w : W) :
    Clears gc (gc.clearDeadEntries w) ∧
      ∀ map table, gc.key (gc.weakMap w) = some map →
        ((gc.clearDeadEntries w).box map).value = .weakMap .unused table →
        ∀ e ∈ table, gc.hasValue e = true := by
  rw [clearDeadEntries]
  split
  · next hnone => exact ⟨.refl gc, fun map table hkey => by rw [hnone] at hkey; cases hkey⟩
  · next map hkey =>
      split
      · next table hvalue =>
          dsimp only
          let node : GcBox B E :=
            { gc.box map with value := .weakMap .unused (table.filter gc.hasValue) }
          let gc₁ : BoaGc B E W := { gc with box := Function.update gc.box map node }
          have hclears : Clears gc gc₁ := by
            refine ⟨rfl, fun b => ?_, fun x => ?_, fun b => ?_⟩
            · by_cases hb : b = map <;> simp [gc₁, node, Function.update, hb]
            · cases x with
              | gc b => by_cases hb : b = map <;> simp [gc₁, node, header, Function.update, hb]
              | ephemeron e => rfl
            · by_cases hb : b = map
              · exact .inr ⟨table, hb ▸ hvalue, by simp [gc₁, node, hb]⟩
              · exact .inl (by simp [gc₁, Function.update, hb])
          have hdrop := Clears.foldl_decRefCount gc₁
            ((table.filter fun eph => !gc.hasValue eph).map .ephemeron)
          have hboxes := value_of_erase (foldl_decRefCount gc₁
            ((table.filter fun eph => !gc.hasValue eph).map .ephemeron)).1
          refine ⟨hclears.trans hdrop, fun map' table' hkey' hvalue' e he => ?_⟩
          rw [hkey] at hkey'
          cases hkey'
          have htable : (gc₁.box map).value = .weakMap .unused (table.filter gc.hasValue) := by
            simp [gc₁, node]
          rw [hboxes map, htable] at hvalue'
          cases hvalue'
          exact (List.mem_filter.mp he).2
      · next hother =>
          refine ⟨.refl gc, fun map' table' hkey' hvalue' => ?_⟩
          rw [hkey] at hkey'
          cases hkey'
          exact absurd hvalue' (hother table')

/-- **Clearing the weak maps** that are alive. -/
theorem clearWeakMaps_spec (ws : List W) (gc : BoaGc B E W) :
    ∃ gc', gc.clearWeakMaps ws = (gc', ws.filter fun w => (gc.key (gc.weakMap w)).isSome) ∧
      Clears gc gc' ∧ ∀ w ∈ ws, ∀ map table, gc.key (gc.weakMap w) = some map →
        (gc'.box map).value = .weakMap .unused table → ∀ e ∈ table, gc.hasValue e = true := by
  induction ws generalizing gc with
  | nil => exact ⟨gc, rfl, .refl gc, by simp⟩
  | cons w ws ih =>
      rw [clearWeakMaps]
      -- The heap from which the other weak maps are cleared.
      obtain ⟨gc₁, hgc₁, hclears₁, hentries₁⟩ : ∃ gc₁,
          (if (gc.key (gc.weakMap w)).isSome = true then gc.clearDeadEntries w
            else gc.decRefCount (.ephemeron (gc.weakMap w))) = gc₁ ∧ Clears gc gc₁ ∧
          ∀ map table, gc.key (gc.weakMap w) = some map →
            (gc₁.box map).value = .weakMap .unused table → ∀ e ∈ table, gc.hasValue e = true := by
        split
        · exact ⟨_, rfl, clearDeadEntries_spec gc w⟩
        · next hnone =>
            refine ⟨_, rfl, Clears.foldl_decRefCount gc [.ephemeron (gc.weakMap w)], ?_⟩
            intro map table hkey
            simp [hkey] at hnone
      obtain ⟨gc', heq, hclears, hentries⟩ := ih gc₁
      have hmaps : gc₁.weakMap = gc.weakMap := congrArg (fun gc => gc.weakMap) hclears₁.content
      have hkeys : (fun w => (gc₁.key (gc₁.weakMap w)).isSome) =
          fun w => (gc.key (gc.weakMap w)).isSome := by
        funext v
        rw [hmaps, hclears₁.key]
      rw [hkeys] at heq
      refine ⟨gc', ?_, hclears₁.trans hclears, fun v hv map table hkey hvalue e he => ?_⟩
      · split
        · next hsome =>
            rw [if_pos hsome] at hgc₁
            rw [hgc₁, heq, List.filter_cons_of_pos (p := fun w => (gc.key (gc.weakMap w)).isSome) hsome]
        · next hnone =>
            rw [if_neg hnone] at hgc₁
            rw [hgc₁, heq, List.filter_cons_of_neg (p := fun w => (gc.key (gc.weakMap w)).isSome) hnone]
      · rcases List.mem_cons.mp hv with rfl | hv
        · rcases hclears.value map with hsame | ⟨table', hold, hnew⟩
          · exact hentries₁ map table hkey (hsame ▸ hvalue) e he
          · rw [hnew] at hvalue
            cases hvalue
            exact hclears₁.hasValue ▸ (List.mem_filter.mp he).2
        · rw [← hclears₁.hasValue]
          exact hentries v hv map table (by rw [hmaps, hclears₁.key, hkey]) hvalue e he

end BoaGc

end BoaLigero
