import BoaLigero.Gc.Mutator

/-!
# Memory Safety of the Garbage Collector

A program that owns its handles cannot see the collector free anything that it can get at. The
invariant of its runs (`Sound`) is that the reference counts are right, that no handle dangles, and
that each box was dropped once for each time it was allocated, but for those that exist. A
collection starts in such a heap and leaves one behind.

## Main results

* `Sound.collect` — a collection of a sound program succeeds and leaves a sound program.
* `Sound.pushBox`, `Sound.pushEphemeron`, `Sound.pushWeakMap` — so does an allocation.
* `Sound.setValue`, `Sound.setData`, `Sound.recount` — handles may move, and be dropped and cloned.
-/

namespace BoaLigero

variable {B E W : Type} [DecidableEq B] [DecidableEq E]

namespace Mutator

open BoaGc Liveness

variable {m m' : Mutator B E W}

/-- **The invariant of a program's runs.** -/
structure Sound (m : Mutator B E W) : Prop where
  strongs : m.gc.strongs.Nodup
  weaks : m.gc.weaks.Nodup
  owned : m.gc.Owned
  roots : ∀ x ∈ m.roots, m.gc.Owns x
  weakMaps : ∀ w ∈ m.gc.weakMaps, m.gc.weakMap w ∈ m.gc.weaks
  counted : m.gc.Counted m.gc.weakMaps m.roots
  max : ∀ x, m.gc.Owns x → (m.gc.header x).refCount ≤ nonRootsMax
  clean : ∀ x, m.gc.Owns x → (m.gc.header x).nonRootCell = 0
  unmarked : ∀ x, m.gc.isMarked x = false
  bytes : m.gc.bytesAllocated = m.gc.size
  balance : ∀ b, m.allocated.count b = m.freed.count b + m.gc.strongs.count b
  keyed : ∀ e ∈ m.gc.weaks, ∀ b, m.gc.key e = some b →
    m.target e = some (b, m.allocated.count b)
  expired : ∀ e ∈ m.gc.weaks, ∀ b n, m.target e = some (b, n) → n ≤ m.allocated.count b ∧
    (m.gc.key e = none → b ∉ m.gc.strongs ∨ n < m.allocated.count b)

/-- The heap of a sound program may be collected. -/
theorem Sound.consistent (h : m.Sound) : m.gc.Consistent where
  strongs := h.strongs
  weaks := h.weaks
  owned := h.owned
  weakMaps := h.weakMaps
  counted x hx := (h.counted x hx).symm ▸ Nat.le_add_right _ _
  max := h.max
  clean := h.clean
  unmarked := h.unmarked
  bytes := h.bytes

/-- What is held from outside: the handles of the program, and those of the weak maps. -/
theorem Sound.external_iff (h : m.Sound) {x : Handle B E} (hx : m.gc.Owns x) :
    m.gc.External x ↔ x ∈ m.roots ∨ x ∈ m.gc.weakMapHandles := by
  have hcounted := h.counted x hx
  have hmaps : m.gc.weakMapHandles = m.gc.handlesOf m.gc.weakMaps := rfl
  rw [External, ← List.count_pos_iff, ← List.count_pos_iff, hmaps]
  omega

/-- **What a program can get at is live.** -/
theorem Sound.isLive (h : m.Sound) {x : Handle B E} (hx : m.Reachable x) : m.gc.IsLive x := by
  refine Live.of_closed ⟨fun y hy => ?_, fun _ _ => .edge, fun _ _ _ => .gated⟩ hx
  exact .root ⟨hy.1, (h.external_iff hy.1).mpr (.inl hy.2)⟩

/-- **No handle dangles.** -/
theorem Sound.owns (h : m.Sound) {x : Handle B E} (hx : m.Reachable x) : m.gc.Owns x :=
  (h.isLive hx).owns h.owned

/-- What a root refers to is reachable for the program. -/
theorem Sound.reachable_root (h : m.Sound) {x : Handle B E} (hx : x ∈ m.roots) : m.Reachable x :=
  .root ⟨h.roots x hx, hx⟩

/-! ### Collections -/

/-- **A collection** succeeds and leaves a sound program. What is left in the heap is what is
live, and of this the values are what they were. -/
theorem Sound.collect (h : m.Sound) : ∃ m', m.collect = .ok m' ∧ m'.Sound ∧
    Collected m.gc m'.gc ∧ Kept m.roots m.gc m'.gc ∧ m'.roots = m.roots ∧
    m'.allocated = m.allocated ∧ m'.threshold = m.threshold ∧ m'.target = m.target := by
  obtain ⟨gc, heq, hc⟩ := collect_keeps_live Finalizer.harmless_idle h.consistent
  have hk := h.consistent.kept_collect h.counted heq
  have hlive : ∀ x, gc.Owns x ↔ m.gc.IsLive x := fun x => by
    cases x with
    | gc b => exact hc.strongs.2 b
    | ephemeron e => exact hc.weaks.2 e
  have howns : ∀ x, gc.Owns x → m.gc.Owns x := fun x hx => ((hlive x).mp hx).owns h.owned
  refine ⟨{ m with gc, freed := m.freed ++ gc.dropped }, ?_, ?_, hc, hk, rfl, rfl, rfl, rfl⟩
  · rw [Mutator.collect, heq]
  · exact {
      strongs := h.strongs.sublist hc.strongs.1
      weaks := h.weaks.sublist hc.weaks.1
      owned := hc.owned
      roots := fun x hx => (hlive x).mpr (h.isLive (h.reachable_root hx))
      weakMaps := fun w hw => by
        have hw := ((hc.weakMaps w).mp hw).1
        refine (hlive (.ephemeron (gc.weakMap w))).mpr (hk.weakMap ▸ ?_)
        exact .root ⟨h.weakMaps w hw, h.consistent.external_weakMap hw⟩
      counted := hk.counted
      max := fun x hx => UInt32.le_iff_toNat_le.mpr
        ((hk.refCount x hx).trans (UInt32.le_iff_toNat_le.mp (h.max x (howns x hx))))
      clean := hc.clean
      unmarked := hc.unmarked
      bytes := hc.bytes
      balance := fun b => by
        have hsplit : m.gc.strongs.count b = gc.strongs.count b + gc.dropped.count b := by
          rw [h.strongs.count, (h.strongs.sublist hc.strongs.1).count, hc.dropped.1.count]
          have hkept := hc.strongs.2 b
          have hdropped := hc.dropped.2 b
          have howned : b ∈ gc.strongs → b ∈ m.gc.strongs := howns (.gc b)
          by_cases hlive : m.gc.IsLive (.gc b)
          · rw [if_pos (howned (hkept.mpr hlive)), if_pos (hkept.mpr hlive),
              if_neg fun hdrop => (hdropped.mp hdrop).2 hlive]
          · by_cases hb : b ∈ m.gc.strongs
            · rw [if_pos hb, if_neg fun hkeep => hlive (hkept.mp hkeep),
                if_pos (hdropped.mpr ⟨hb, hlive⟩)]
            · rw [if_neg hb, if_neg fun hkeep => hlive (hkept.mp hkeep),
                if_neg fun hdrop => hb (hdropped.mp hdrop).1]
        have hbalance := h.balance b
        change m.allocated.count b = (m.freed ++ gc.dropped).count b + gc.strongs.count b
        rw [List.count_append]
        omega
      keyed := fun e he b hkey => by
        have hkey := ((hc.key e he b).mp hkey).1
        exact h.keyed e (howns (.ephemeron e) he) b hkey
      expired := fun e he b n htarget => by
        obtain ⟨hle, hexpired⟩ := h.expired e (howns (.ephemeron e) he) b n htarget
        refine ⟨hle, fun hnone => ?_⟩
        cases hkey : m.gc.key e with
        | none =>
            rcases hexpired hkey with hgone | hlater
            · exact .inl fun hb => hgone (hc.strongs.1.subset hb)
            · exact .inr hlater
        | some b' =>
            -- The key was taken because its box was dropped.
            have hsame := h.keyed e (howns (.ephemeron e) he) b' hkey
            rw [htarget, Option.some.injEq, Prod.mk.injEq] at hsame
            obtain ⟨rfl, -⟩ := hsame
            refine .inl fun hb => ?_
            have hkept := (hc.key e he b).mpr
              ⟨hkey, fun hdrop => ((hc.dropped.2 b).mp hdrop).2 ((hc.strongs.2 b).mp hb)⟩
            rw [hnone] at hkept
            exact Option.some_ne_none b hkept.symm }

/-- **Managing the state** succeeds, and runs a collection or none. -/
theorem Sound.manageState (h : m.Sound) : ∃ m', m.manageState = .ok m' ∧ m'.Sound ∧
    m'.roots = m.roots ∧ m'.allocated = m.allocated ∧ m'.target = m.target ∧
    (∀ x, m.Reachable x → m'.gc.Owns x) ∧ m'.gc.weakMaps ⊆ m.gc.weakMaps ∧
    ∀ b, (m'.gc.box b).value = (m.gc.box b).value ∨
      ∃ table, (m.gc.box b).value = .weakMap .unused table := by
  rw [Mutator.manageState]
  split
  · obtain ⟨m', heq, hsound, hc, hk, hroots, hallocated, -, htarget⟩ := h.collect
    rw [heq]
    have howns : ∀ x, m.Reachable x → m'.gc.Owns x := fun x hx => by
      have hlive := h.isLive hx
      cases x with
      | gc b => exact (hc.strongs.2 b).mpr hlive
      | ephemeron e => exact (hc.weaks.2 e).mpr hlive
    have hmaps : m'.gc.weakMaps ⊆ m.gc.weakMaps := fun w hw => ((hc.weakMaps w).mp hw).1
    have hvalue : ∀ b, (m'.gc.box b).value = (m.gc.box b).value ∨
        ∃ table, (m.gc.box b).value = .weakMap .unused table := fun b => by
      rcases hk.value b with hsame | ⟨table, hold, -⟩
      · exact .inl hsame
      · exact .inr ⟨table, hold⟩
    by_cases hraise : m'.threshold / 100 * usedSpacePercentage < m'.gc.bytesAllocated
    · refine ⟨_, if_pos hraise, ⟨hsound.strongs, hsound.weaks, hsound.owned, hsound.roots,
        hsound.weakMaps, hsound.counted, hsound.max, hsound.clean, hsound.unmarked, hsound.bytes,
        hsound.balance, hsound.keyed, hsound.expired⟩, hroots, hallocated, htarget, howns, hmaps,
        hvalue⟩
    · exact ⟨m', if_neg hraise, hsound, hroots, hallocated, htarget, howns, hmaps, hvalue⟩
  · exact ⟨m, rfl, h, rfl, rfl, rfl, fun x hx => h.owns hx, List.Subset.refl _,
      fun b => .inl rfl⟩

/-! ### Values -/

/-- **Moving handles** between the value of a box and what is outside. -/
theorem Sound.setValue (h : m.Sound) {node : B} (hnode : node ∈ m.gc.strongs)
    {value : GcValue B E} {roots : List (Handle B E)}
    (hcount : ∀ x, value.visited.count x + roots.count x =
      (m.gc.content (.gc node)).count x + m.roots.count x) :
    ({ m with gc := m.gc.setValue node value, roots } : Mutator B E W).Sound := by
  have hheader := header_setValue m.gc node value
  have hfrom : ∀ x, x ∈ value.visited ∨ x ∈ roots → m.gc.Owns x := by
    intro x hx
    rw [← List.count_pos_iff, ← List.count_pos_iff] at hx
    have hcount := hcount x
    have hold : 0 < (m.gc.content (.gc node)).count x ∨ 0 < m.roots.count x := by omega
    rcases hold with hold | hold
    · exact h.owned.content (x := .gc node) hnode (List.count_pos_iff.mp hold)
    · exact h.roots x (List.count_pos_iff.mp hold)
  have howns : ∀ x, (m.gc.setValue node value).Owns x ↔ m.gc.Owns x := fun x => by
    cases x <;> rfl
  have hsize : ∀ b, ((m.gc.setValue node value).box b).size = (m.gc.box b).size := fun b => by
    by_cases hb : b = node <;> simp [BoaGc.setValue, Function.update, hb]
  exact {
    strongs := h.strongs
    weaks := h.weaks
    owned := by
      refine ⟨fun b hb x hx => (howns x).mpr ?_, fun e he key value hdata => ?_⟩
      · by_cases hbn : b = node
        · subst hbn
          change x ∈ (m.gc.setValue b value).content (.gc b) at hx
          rw [content_setValue_self] at hx
          exact hfrom x (.inl hx)
        · change x ∈ (m.gc.setValue node value).content (.gc b) at hx
          rw [content_setValue_of_ne (by simpa using hbn)] at hx
          exact h.owned.fields b hb x hx
      · exact h.owned.values e he key value hdata
    roots := fun x hx => (howns x).mpr (hfrom x (.inr hx))
    weakMaps := h.weakMaps
    counted := fun x hx => by
      have hcounted := h.counted x ((howns x).mp hx)
      have hcontents := count_contents_setValue hnode (nodup_nodes h.strongs h.weaks) value x
      have hcount := hcount x
      rw [hheader]
      change _ = (m.gc.setValue node value).contents.count x +
        (m.gc.handlesOf m.gc.weakMaps).count x + roots.count x
      omega
    max := fun x hx => by
      rw [hheader]
      exact h.max x ((howns x).mp hx)
    clean := fun x hx => by
      rw [hheader]
      exact h.clean x ((howns x).mp hx)
    unmarked := fun x => by
      rw [isMarked, hheader]
      exact h.unmarked x
    bytes := by
      rw [size, funext hsize]
      exact h.bytes
    balance := h.balance
    keyed := h.keyed
    expired := h.expired }

/-- **Changing the key and the value** of an ephemeron: handles move, and the key is a box. -/
theorem Sound.setData (h : m.Sound) {eph : E} (heph : eph ∈ m.gc.weaks)
    {data : Option (B × List (Handle B E))} {roots : List (Handle B E)}
    {target : E → Option (B × ℕ)}
    (hcount : ∀ x, ((data.map Prod.snd).getD []).count x + roots.count x =
      (m.gc.content (.ephemeron eph)).count x + m.roots.count x)
    (hkey : ∀ key, data.map Prod.fst = some key →
      key ∈ m.gc.strongs ∧ target eph = some (key, m.allocated.count key))
    (hnone : data = none → target eph = m.target eph ∧ m.gc.key eph = none)
    (htarget : ∀ e, e ≠ eph → target e = m.target e) :
    ({ m with gc := m.gc.setData eph data, roots, target } : Mutator B E W).Sound := by
  have hheader := header_setData m.gc eph data
  have hfrom : ∀ x, x ∈ (data.map Prod.snd).getD [] ∨ x ∈ roots → m.gc.Owns x := by
    intro x hx
    rw [← List.count_pos_iff, ← List.count_pos_iff] at hx
    have hcount := hcount x
    have hold : 0 < (m.gc.content (.ephemeron eph)).count x ∨ 0 < m.roots.count x := by omega
    rcases hold with hold | hold
    · exact h.owned.content (x := .ephemeron eph) heph (List.count_pos_iff.mp hold)
    · exact h.roots x (List.count_pos_iff.mp hold)
  have howns : ∀ x, (m.gc.setData eph data).Owns x ↔ m.gc.Owns x := fun x => by
    cases x <;> rfl
  have hsize : ∀ e, ((m.gc.setData eph data).ephemeron e).size = (m.gc.ephemeron e).size :=
    fun e => by by_cases he : e = eph <;> simp [BoaGc.setData, Function.update, he]
  have hother : ∀ e, e ≠ eph → (m.gc.setData eph data).key e = m.gc.key e := fun e he => by
    rw [BoaGc.key, data_setData, if_neg he, BoaGc.key]
  have hself : (m.gc.setData eph data).key eph = data.map Prod.fst := by
    rw [BoaGc.key, data_setData, if_pos rfl]
  exact {
    strongs := h.strongs
    weaks := h.weaks
    owned := by
      refine ⟨fun b hb x hx => (howns x).mpr (h.owned.fields b hb x hx),
        fun e he key value hdata => ?_⟩
      rw [data_setData] at hdata
      split at hdata
      · refine ⟨(hkey key (by rw [hdata]; rfl)).1, fun x hx => (howns x).mpr (hfrom x (.inl ?_))⟩
        rw [hdata]
        exact hx
      · obtain ⟨hkey, hvalue⟩ := h.owned.values e he key value hdata
        exact ⟨hkey, fun x hx => (howns x).mpr (hvalue x hx)⟩
    roots := fun x hx => (howns x).mpr (hfrom x (.inr hx))
    weakMaps := h.weakMaps
    counted := fun x hx => by
      have hcounted := h.counted x ((howns x).mp hx)
      have hcontents := count_contents_setData heph (nodup_nodes h.strongs h.weaks) data x
      have hcount := hcount x
      rw [hheader]
      change _ = (m.gc.setData eph data).contents.count x +
        (m.gc.handlesOf m.gc.weakMaps).count x + roots.count x
      omega
    max := fun x hx => by
      rw [hheader]
      exact h.max x ((howns x).mp hx)
    clean := fun x hx => by
      rw [hheader]
      exact h.clean x ((howns x).mp hx)
    unmarked := fun x => by
      rw [isMarked, hheader]
      exact h.unmarked x
    bytes := by
      rw [size, funext hsize]
      exact h.bytes
    balance := h.balance
    keyed := fun e he b hb => by
      by_cases heq : e = eph
      · subst heq
        exact (hkey b (hself.symm.trans hb)).2
      · rw [hother e heq] at hb
        exact (htarget e heq).trans (h.keyed e he b hb)
    expired := fun e he b n hb => by
      by_cases heq : e = eph
      · subst heq
        rw [hself]
        cases hdata : data with
        | none =>
            obtain ⟨hsame, hnone⟩ := hnone hdata
            obtain ⟨hle, hexpired⟩ := h.expired e he b n (hsame.symm.trans hb)
            exact ⟨hle, fun _ => hexpired hnone⟩
        | some data' =>
            have hsome := (hkey data'.1 (by rw [hdata]; rfl)).2
            obtain ⟨rfl, rfl⟩ := Prod.mk.inj (Option.some.inj (hsome.symm.trans hb))
            exact ⟨Nat.le_refl _, fun hnone => by cases hnone⟩
      · rw [hother e heq]
        exact h.expired e he b n ((htarget e heq).symm.trans hb) }

/-! ### Handles -/

/-- **Counting handles anew**: what is outside changes, and the reference counts with it. -/
theorem Sound.recount (h : m.Sound) {gc : BoaGc B E W} {roots : List (Handle B E)}
    (herase : gc.erase = m.gc.erase)
    (hcell : ∀ x, (gc.header x).nonRootCell = (m.gc.header x).nonRootCell)
    (hroots : ∀ x ∈ roots, m.gc.Owns x)
    (hcount : ∀ x, m.gc.Owns x → (gc.header x).refCount.toNat + m.roots.count x =
      (m.gc.header x).refCount.toNat + roots.count x)
    (hmax : ∀ x, m.gc.Owns x → (gc.header x).refCount ≤ nonRootsMax) :
    ({ m with gc, roots } : Mutator B E W).Sound := by
  have howns := owns_of_erase herase
  have hstrongs := strongs_of_erase herase
  have hweaks := weaks_of_erase herase
  have hbytes : gc.bytesAllocated = m.gc.bytesAllocated :=
    congrArg (fun gc => gc.bytesAllocated) herase
  have hsize : gc.size = m.gc.size := by
    rw [size, size, hstrongs, hweaks]
    exact congrArg (fun gc => (m.gc.strongs.map fun b => (gc.box b).size).sum +
      (m.gc.weaks.map fun e => (gc.ephemeron e).size).sum) herase
  exact {
    strongs := hstrongs.symm ▸ h.strongs
    weaks := hweaks.symm ▸ h.weaks
    owned := by
      refine ⟨fun b hb x hx => ?_, fun e he key value hdata => ?_⟩
      · rw [value_of_erase herase] at hx
        exact (howns x).mpr (h.owned.fields b (hstrongs ▸ hb) x hx)
      · rw [data_of_erase herase] at hdata
        obtain ⟨hkey, hvalue⟩ := h.owned.values e (hweaks ▸ he) key value hdata
        exact ⟨hstrongs.symm ▸ hkey, fun x hx => (howns x).mpr (hvalue x hx)⟩
    roots := fun x hx => (howns x).mpr (hroots x hx)
    weakMaps := fun w hw => by
      rw [weakMaps_of_erase herase] at hw
      rw [weakMap_of_erase herase, hweaks]
      exact h.weakMaps w hw
    counted := fun x hx => by
      have hx := (howns x).mp hx
      have hcounted := h.counted x hx
      have hcount := hcount x hx
      rw [contents_of_erase herase, handlesOf_of_erase herase, weakMaps_of_erase herase]
      change (gc.header x).refCount.toNat = _ + roots.count x
      omega
    max := fun x hx => hmax x ((howns x).mp hx)
    clean := fun x hx => (hcell x).trans (h.clean x ((howns x).mp hx))
    unmarked := fun x => by
      have hsame := congrArg (fun w => w &&& markMask != 0) (hcell x)
      exact hsame.trans (h.unmarked x)
    bytes := hbytes.trans (h.bytes.trans hsize.symm)
    balance := fun b => by
      rw [hstrongs]
      exact h.balance b
    keyed := fun e he b hb => by
      rw [key_of_erase herase] at hb
      exact h.keyed e (hweaks ▸ he) b hb
    expired := fun e he b n hb => by
      rw [key_of_erase herase, hstrongs]
      exact h.expired e (hweaks ▸ he) b n hb }

/-- Dropping a handle. -/
theorem Sound.drop (h : m.Sound) {x : Handle B E} (hx : x ∈ m.roots) : (m.drop x).Sound := by
  obtain ⟨herase, hcell⟩ := foldl_decRefCount m.gc [x]
  have hone : ∀ y, [x].count y ≤ m.roots.count y := fun y => by
    refine List.Subperm.count_le (List.singleton_subperm_iff.mpr hx) y
  have hdrops : ∀ y, m.gc.Owns y →
      ((m.gc.decRefCount x).header y).refCount.toNat + [x].count y =
        (m.gc.header y).refCount.toNat := fun y hy => by
    refine drops_foldl_decRefCount m.gc [x] y ?_
    have hcounted := h.counted y hy
    have hone := hone y
    omega
  refine h.recount herase hcell (fun y hy => h.roots y (List.mem_of_mem_erase hy))
    (fun y hy => ?_) fun y hy => ?_
  · have hdrops := hdrops y hy
    have hone := hone y
    have herased : (m.roots.erase x).count y = m.roots.count y - [x].count y := by
      rw [List.count_erase, List.count_singleton]
    omega
  · have hdrops := hdrops y hy
    exact UInt32.le_iff_toNat_le.mpr
      ((Nat.le_of_add_right_le hdrops.le).trans (UInt32.le_iff_toNat_le.mp (h.max y hy)))

/-- Dropping some handles to ephemerons. -/
theorem Sound.foldl_drop (h : m.Sound) {ephs : List E}
    (hephs : (ephs.map Handle.ephemeron).Subperm m.roots) :
    (ephs.foldl (fun m eph => m.drop (.ephemeron eph)) m).Sound := by
  induction ephs generalizing m with
  | nil => exact h
  | cons eph ephs ih =>
      have hrest := hephs.erase (.ephemeron eph)
      rw [List.map_cons, List.erase_cons_head] at hrest
      exact ih (h.drop (hephs.subset List.mem_cons_self)) hrest

/-- **Cloning a handle** fails only if there are as many as can be counted. -/
theorem Sound.clone (h : m.Sound) {x : Handle B E} (hx : m.gc.Owns x) :
    (∃ m', m.clone x = .ok m' ∧ m'.Sound) ∨
      m.clone x = .error .tooManyReferences ∧ (m.gc.header x).refCount = nonRootsMax := by
  have hle := UInt32.le_iff_toNat_le.mp (h.max x hx)
  have hmax : nonRootsMax.toNat = 2 ^ 31 - 1 := rfl
  have hadd : ((m.gc.header x).refCount + 1).toNat = (m.gc.header x).refCount.toNat + 1 := by
    rw [UInt32.toNat_add, UInt32.toNat_one]
    omega
  rw [Mutator.clone, GcHeader.incRefCount]
  by_cases hfull : (m.gc.header x).refCount + 1 = 0 ∨ nonRootsMax < (m.gc.header x).refCount + 1
  · refine .inr ⟨by rw [if_pos hfull], UInt32.toNat_inj.mp ?_⟩
    rw [UInt32.lt_iff_toNat_lt, ← UInt32.toNat_inj, UInt32.toNat_zero] at hfull
    omega
  · refine .inl ⟨_, by rw [if_neg hfull], h.recount (erase_mapHeader ..) (fun y => ?_)
      (fun y hy => ?_) (fun y hy => ?_) fun y hy => ?_⟩
    · rw [header_mapHeader]
      split
      · next heq => rw [heq]
      · rfl
    · rcases List.mem_cons.mp hy with rfl | hy
      · exact hx
      · exact h.roots y hy
    · rw [header_mapHeader]
      by_cases heq : y = x
      · rw [if_pos heq, heq, List.count_cons_self]
        change ((m.gc.header x).refCount + 1).toNat + _ = _
        omega
      · rw [if_neg heq, List.count_cons_of_ne (Ne.symm heq)]
    · rw [header_mapHeader]
      split
      · rw [UInt32.le_iff_toNat_le]
        rw [not_or, UInt32.not_lt, UInt32.le_iff_toNat_le] at hfull
        exact hfull.2
      · exact h.max y hy

/-! ### Allocation -/

/-- A value takes its handles from those outside, where the new handle goes. -/
theorem count_cons_diff {hs roots : List (Handle B E)} (h : hs.Subperm roots)
    (new x : Handle B E) : (new :: roots.diff hs).count x + hs.count x =
      roots.count x + if x = new then 1 else 0 := by
  have hle := h.count_le x
  rw [List.count_cons, List.count_diff, beq_eq_decide]
  by_cases hx : x = new
  · rw [if_pos hx, if_pos (by rw [hx]; exact decide_eq_true rfl)]
    omega
  · rw [if_neg hx, if_neg (by rw [decide_eq_true_iff]; exact Ne.symm hx)]
    omega

/-- Nothing leads to what is not in the heap. -/
theorem Sound.count_eq_zero (h : m.Sound) {x : Handle B E} (hx : ¬ m.gc.Owns x) :
    m.gc.contents.count x + (m.gc.handlesOf m.gc.weakMaps).count x + m.roots.count x = 0 := by
  have hcontents : m.gc.contents.count x = 0 :=
    List.count_eq_zero.mpr fun hmem => hx (h.owned.contents hmem)
  have hroots : m.roots.count x = 0 := List.count_eq_zero.mpr fun hmem => hx (h.roots x hmem)
  have hmaps : (m.gc.handlesOf m.gc.weakMaps).count x = 0 := by
    refine List.count_eq_zero.mpr fun hmem => hx ?_
    obtain ⟨w, hw, rfl⟩ := List.mem_map.mp hmem
    exact h.weakMaps w hw
  rw [hcontents, hroots, hmaps]

section PushBox

variable {node : B} {size : ℕ} {value : GcValue B E}

/-- A new box holds what it was made with, under a new header. -/
theorem box_pushBox_self : (m.pushBox node size value).gc.box node = ⟨.new, value, size⟩ :=
  Function.update_self ..

/-- A new box changes no other one. -/
theorem box_pushBox_of_ne {b : B} (hb : b ≠ node) :
    (m.pushBox node size value).gc.box b = m.gc.box b := Function.update_of_ne hb ..

/-- The collector owns the new box besides those it owned. -/
theorem owns_pushBox (x : Handle B E) :
    (m.pushBox node size value).gc.Owns x ↔ m.gc.Owns x ∨ x = .gc node := by
  cases x with
  | gc b =>
      rw [Handle.gc.injEq]
      exact List.mem_append.trans (or_congr_right List.mem_singleton)
  | ephemeron e =>
      refine ⟨.inl, fun he => he.resolve_right fun heq => ?_⟩
      cases heq

/-- All headers but that of the new box are as they were. -/
theorem header_pushBox (x : Handle B E) : (m.pushBox node size value).gc.header x =
    if x = .gc node then .new else m.gc.header x := by
  cases x with
  | gc b =>
      by_cases hb : b = node
      · rw [if_pos (by rw [hb]), header, hb, box_pushBox_self]
      · rw [if_neg (by rwa [Handle.gc.injEq]), header, box_pushBox_of_ne hb, header]
  | ephemeron e =>
      rw [if_neg]
      · rfl
      · intro heq
        cases heq

/-- A sum over the boxes has one more part. -/
theorem sum_pushBox (hnode : node ∉ m.gc.strongs) (size : ℕ) (value : GcValue B E)
    (f : GcBox B E → ℕ) :
    ((m.pushBox node size value).gc.strongs.map fun b =>
      f ((m.pushBox node size value).gc.box b)).sum =
      (m.gc.strongs.map fun b => f (m.gc.box b)).sum + f ⟨.new, value, size⟩ := by
  have hkept : (m.gc.strongs.map fun b => f ((m.pushBox node size value).gc.box b)) =
      m.gc.strongs.map fun b => f (m.gc.box b) := by
    refine List.map_congr_left fun b hb => ?_
    rw [box_pushBox_of_ne]
    rintro rfl
    exact hnode hb
  change ((m.gc.strongs ++ [node]).map _).sum = _
  rw [List.map_append, List.sum_append, hkept, List.map_singleton, List.sum_singleton,
    box_pushBox_self]

/-- **A new box** for a value whose handles were outside. -/
theorem Sound.pushBox (h : m.Sound) (hnode : node ∉ m.gc.strongs)
    (hvalue : value.visited.Subperm m.roots) : (m.pushBox node size value).Sound := by
  have hold : ∀ b ∈ m.gc.strongs, b ≠ node := fun b hb => by
    rintro rfl
    exact hnode hb
  have hfresh : ∀ x, m.gc.Owns x → x ≠ .gc node := by
    rintro x hx rfl
    exact hnode hx
  have hcontents : ∀ x, (m.pushBox node size value).gc.contents.count x =
      m.gc.contents.count x + value.visited.count x := by
    intro x
    have hsum := sum_pushBox hnode size value fun box => box.value.visited.count x
    rw [count_contents, count_contents]
    change _ + (m.gc.weaks.map fun e => (m.gc.content (.ephemeron e)).count x).sum = _
    exact (congrArg (· + _) hsum).trans (Nat.add_right_comm ..)
  exact {
    strongs := List.nodup_append.mpr ⟨h.strongs, List.nodup_singleton node,
      fun b hb c hc => List.mem_singleton.mp hc ▸ hold b hb⟩
    weaks := h.weaks
    owned := by
      refine ⟨fun b hb x hx => (owns_pushBox x).mpr (.inl ?_), fun e he key data hdata => ?_⟩
      · by_cases heq : b = node
        · rw [heq, box_pushBox_self] at hx
          exact h.roots x (hvalue.subset hx)
        · rw [box_pushBox_of_ne heq] at hx
          have hb := (List.mem_append.mp hb).resolve_right fun hb => heq (List.mem_singleton.mp hb)
          exact h.owned.fields b hb x hx
      · obtain ⟨hkey, hdata⟩ := h.owned.values e he key data hdata
        exact ⟨List.mem_append_left _ hkey, fun x hx => (owns_pushBox x).mpr (.inl (hdata x hx))⟩
    roots := fun x hx => (owns_pushBox x).mpr (by
      rcases List.mem_cons.mp hx with rfl | hx
      · exact .inr rfl
      · exact .inl (h.roots x (List.diff_subset _ _ hx)))
    weakMaps := h.weakMaps
    counted := fun x hx => by
      have hcontents := hcontents x
      have hroots : (m.pushBox node size value).roots.count x + _ = _ :=
        count_cons_diff hvalue (.gc node) x
      change _ = _ + (m.gc.handlesOf m.gc.weakMaps).count x + _
      rw [header_pushBox]
      rcases (owns_pushBox x).mp hx with hx | rfl
      · have hcounted := h.counted x hx
        rw [if_neg (hfresh x hx)] at hroots ⊢
        omega
      · have hzero := h.count_eq_zero (x := .gc node) hnode
        have hone : GcHeader.new.refCount.toNat = 1 := rfl
        rw [if_pos rfl] at hroots ⊢
        omega
    max := fun x hx => by
      rw [header_pushBox]
      split
      · decide
      · next hne => exact h.max x (((owns_pushBox x).mp hx).resolve_right hne)
    clean := fun x hx => by
      rw [header_pushBox]
      split
      · rfl
      · next hne => exact h.clean x (((owns_pushBox x).mp hx).resolve_right hne)
    unmarked := fun x => by
      rw [isMarked, header_pushBox]
      split
      · rfl
      · exact h.unmarked x
    bytes := by
      have hbytes := h.bytes
      have hsum := sum_pushBox hnode size value fun box => box.size
      rw [BoaGc.size] at hbytes ⊢
      change m.gc.bytesAllocated + size = _ + (m.gc.weaks.map fun e => (m.gc.ephemeron e).size).sum
      rw [hsum]
      change _ = _ + size + _
      omega
    balance := fun b => by
      have hbalance := h.balance b
      change (m.allocated ++ [node]).count b = m.freed.count b + (m.gc.strongs ++ [node]).count b
      rw [List.count_append, List.count_append]
      omega
    keyed := fun e he b hb => by
      have hkeyed := h.keyed e he b hb
      obtain ⟨data, hdata, rfl⟩ := Option.map_eq_some_iff.mp hb
      have hne := hold data.1 (h.owned.values e he data.1 data.2 hdata).1
      change m.target e = some (data.1, (m.allocated ++ [node]).count data.1)
      rw [List.count_append, List.count_singleton, beq_eq_decide, if_neg, Nat.add_zero]
      · exact hkeyed
      · rw [decide_eq_true_iff]
        exact Ne.symm hne
    expired := fun e he b n hb => by
      obtain ⟨hle, hexpired⟩ := h.expired e he b n hb
      change n ≤ (m.allocated ++ [node]).count b ∧
        (m.gc.key e = none → b ∉ m.gc.strongs ++ [node] ∨ n < (m.allocated ++ [node]).count b)
      rw [List.count_append]
      refine ⟨by omega, fun hnone => ?_⟩
      by_cases heq : b = node
      · -- The box at the address of the new one was another.
        refine .inr ?_
        rw [heq, List.count_singleton_self, ← heq]
        omega
      · rcases hexpired hnone with hgone | hlater
        · refine .inl fun hb => ?_
          rcases List.mem_append.mp hb with hb | hb
          · exact hgone hb
          · exact heq (List.mem_singleton.mp hb)
        · exact .inr (by omega) }

end PushBox

section PushEphemeron

variable {eph : E} {size : ℕ} {data : Option (B × List (Handle B E))}

/-- A new ephemeron holds what it was made with, under a new header. -/
theorem ephemeron_pushEphemeron_self :
    (m.pushEphemeron eph size data).gc.ephemeron eph = ⟨.new, data, size⟩ :=
  Function.update_self ..

/-- A new ephemeron changes no other one. -/
theorem ephemeron_pushEphemeron_of_ne {e : E} (he : e ≠ eph) :
    (m.pushEphemeron eph size data).gc.ephemeron e = m.gc.ephemeron e :=
  Function.update_of_ne he ..

/-- The collector owns the new ephemeron besides what it owned. -/
theorem owns_pushEphemeron (x : Handle B E) :
    (m.pushEphemeron eph size data).gc.Owns x ↔ m.gc.Owns x ∨ x = .ephemeron eph := by
  cases x with
  | gc b =>
      refine ⟨.inl, fun hb => hb.resolve_right fun heq => ?_⟩
      cases heq
  | ephemeron e =>
      rw [Handle.ephemeron.injEq]
      exact List.mem_append.trans (or_congr_right List.mem_singleton)

/-- All headers but that of the new ephemeron are as they were. -/
theorem header_pushEphemeron (x : Handle B E) : (m.pushEphemeron eph size data).gc.header x =
    if x = .ephemeron eph then .new else m.gc.header x := by
  cases x with
  | gc b =>
      rw [if_neg]
      · rfl
      · intro heq
        cases heq
  | ephemeron e =>
      by_cases he : e = eph
      · rw [if_pos (by rw [he]), header, he, ephemeron_pushEphemeron_self]
      · rw [if_neg (by rwa [Handle.ephemeron.injEq]), header, ephemeron_pushEphemeron_of_ne he,
          header]

/-- A sum over the ephemerons has one more part. -/
theorem sum_pushEphemeron (heph : eph ∉ m.gc.weaks) (size : ℕ)
    (data : Option (B × List (Handle B E))) (f : EphemeronBox B E → ℕ) :
    ((m.pushEphemeron eph size data).gc.weaks.map fun e =>
      f ((m.pushEphemeron eph size data).gc.ephemeron e)).sum =
      (m.gc.weaks.map fun e => f (m.gc.ephemeron e)).sum + f ⟨.new, data, size⟩ := by
  have hkept : (m.gc.weaks.map fun e => f ((m.pushEphemeron eph size data).gc.ephemeron e)) =
      m.gc.weaks.map fun e => f (m.gc.ephemeron e) := by
    refine List.map_congr_left fun e he => ?_
    rw [ephemeron_pushEphemeron_of_ne]
    rintro rfl
    exact heph he
  change ((m.gc.weaks ++ [eph]).map _).sum = _
  rw [List.map_append, List.sum_append, hkept, List.map_singleton, List.sum_singleton,
    ephemeron_pushEphemeron_self]

/-- **A new ephemeron** for a box, and a value whose handles were outside. -/
theorem Sound.pushEphemeron (h : m.Sound) (heph : eph ∉ m.gc.weaks)
    (hkey : ∀ key, data.map Prod.fst = some key → key ∈ m.gc.strongs)
    (hvalue : ((data.map Prod.snd).getD []).Subperm m.roots) :
    (m.pushEphemeron eph size data).Sound := by
  have hold : ∀ e ∈ m.gc.weaks, e ≠ eph := fun e he => by
    rintro rfl
    exact heph he
  have hfresh : ∀ x, m.gc.Owns x → x ≠ .ephemeron eph := by
    rintro x hx rfl
    exact heph hx
  have hvisited : (⟨.new, data, size⟩ : EphemeronBox B E).visited =
      (data.map Prod.snd).getD [] := by
    rcases data with - | ⟨key, value⟩ <;> rfl
  have hcontents : ∀ x, (m.pushEphemeron eph size data).gc.contents.count x =
      m.gc.contents.count x + ((data.map Prod.snd).getD []).count x := by
    intro x
    have hsum := sum_pushEphemeron heph size data fun box => box.visited.count x
    rw [hvisited] at hsum
    rw [count_contents, count_contents]
    change (m.gc.strongs.map fun b => (m.gc.content (.gc b)).count x).sum + _ = _
    exact (congrArg (_ + ·) hsum).trans (Nat.add_assoc ..).symm
  have hdata : ∀ e, e ≠ eph → (m.pushEphemeron eph size data).gc.key e = m.gc.key e ∧
      (m.pushEphemeron eph size data).target e = m.target e := fun e he =>
    ⟨by rw [BoaGc.key, ephemeron_pushEphemeron_of_ne he, BoaGc.key], Function.update_of_ne he ..⟩
  have hself : (m.pushEphemeron eph size data).gc.key eph = data.map Prod.fst ∧
      (m.pushEphemeron eph size data).target eph =
        data.map fun pair => (pair.1, m.allocated.count pair.1) :=
    ⟨by rw [BoaGc.key, ephemeron_pushEphemeron_self], Function.update_self ..⟩
  have hmem : ∀ e ∈ (m.pushEphemeron eph size data).gc.weaks, e ≠ eph → e ∈ m.gc.weaks :=
    fun e he hne => (List.mem_append.mp he).resolve_right fun he => hne (List.mem_singleton.mp he)
  exact {
    strongs := h.strongs
    weaks := List.nodup_append.mpr ⟨h.weaks, List.nodup_singleton eph,
      fun e he d hd => List.mem_singleton.mp hd ▸ hold e he⟩
    owned := by
      refine ⟨fun b hb x hx => (owns_pushEphemeron x).mpr (.inl (h.owned.fields b hb x hx)),
        fun e he key value hdata => ?_⟩
      by_cases heq : e = eph
      · rw [heq, ephemeron_pushEphemeron_self] at hdata
        have hdata : data = some (key, value) := hdata
        subst hdata
        exact ⟨hkey key rfl, fun x hx =>
          (owns_pushEphemeron x).mpr (.inl (h.roots x (hvalue.subset hx)))⟩
      · rw [ephemeron_pushEphemeron_of_ne heq] at hdata
        obtain ⟨hkey, hvalue⟩ := h.owned.values e (hmem e he heq) key value hdata
        exact ⟨hkey, fun x hx => (owns_pushEphemeron x).mpr (.inl (hvalue x hx))⟩
    roots := fun x hx => (owns_pushEphemeron x).mpr (by
      rcases List.mem_cons.mp hx with rfl | hx
      · exact .inr rfl
      · exact .inl (h.roots x (List.diff_subset _ _ hx)))
    weakMaps := fun w hw => List.mem_append_left _ (h.weakMaps w hw)
    counted := fun x hx => by
      have hcontents := hcontents x
      have hroots : (m.pushEphemeron eph size data).roots.count x + _ = _ :=
        count_cons_diff hvalue (.ephemeron eph) x
      change _ = _ + (m.gc.handlesOf m.gc.weakMaps).count x + _
      rw [header_pushEphemeron]
      rcases (owns_pushEphemeron x).mp hx with hx | rfl
      · have hcounted := h.counted x hx
        rw [if_neg (hfresh x hx)] at hroots ⊢
        omega
      · have hzero := h.count_eq_zero (x := .ephemeron eph) heph
        have hone : GcHeader.new.refCount.toNat = 1 := rfl
        rw [if_pos rfl] at hroots ⊢
        omega
    max := fun x hx => by
      rw [header_pushEphemeron]
      split
      · decide
      · next hne => exact h.max x (((owns_pushEphemeron x).mp hx).resolve_right hne)
    clean := fun x hx => by
      rw [header_pushEphemeron]
      split
      · rfl
      · next hne => exact h.clean x (((owns_pushEphemeron x).mp hx).resolve_right hne)
    unmarked := fun x => by
      rw [isMarked, header_pushEphemeron]
      split
      · rfl
      · exact h.unmarked x
    bytes := by
      have hbytes := h.bytes
      have hsum := sum_pushEphemeron heph size data fun box => box.size
      rw [BoaGc.size] at hbytes ⊢
      change m.gc.bytesAllocated + size = (m.gc.strongs.map fun b => (m.gc.box b).size).sum + _
      rw [hsum]
      change _ = _ + (_ + size)
      omega
    balance := h.balance
    keyed := fun e he b hb => by
      by_cases heq : e = eph
      · rw [heq, hself.1] at hb
        obtain ⟨pair, rfl, rfl⟩ := Option.map_eq_some_iff.mp hb
        rw [heq, hself.2]
        rfl
      · rw [(hdata e heq).1] at hb
        rw [(hdata e heq).2]
        exact h.keyed e (hmem e he heq) b hb
    expired := fun e he b n hb => by
      by_cases heq : e = eph
      · rw [heq, hself.2] at hb
        obtain ⟨pair, rfl, hpair⟩ := Option.map_eq_some_iff.mp hb
        obtain ⟨rfl, rfl⟩ := Prod.mk.inj hpair
        rw [heq, hself.1]
        exact ⟨Nat.le_refl _, fun hnone => by cases hnone⟩
      · rw [(hdata e heq).2] at hb
        rw [(hdata e heq).1]
        exact h.expired e (hmem e he heq) b n hb }

end PushEphemeron

/-- **A new weak map** is known by an ephemeron that was outside. -/
theorem Sound.pushWeakMap [DecidableEq W] (h : m.Sound) {map : W} (hmap : map ∉ m.gc.weakMaps)
    {eph : E} (heph : .ephemeron eph ∈ m.roots) : (m.pushWeakMap map eph).Sound := by
  have hweakMap : ∀ w ∈ m.gc.weakMaps, (m.pushWeakMap map eph).gc.weakMap w = m.gc.weakMap w := by
    intro w hw
    refine Function.update_of_ne ?_ ..
    rintro rfl
    exact hmap hw
  have hself : (m.pushWeakMap map eph).gc.weakMap map = eph := Function.update_self ..
  have hhandles : (m.pushWeakMap map eph).gc.handlesOf (m.pushWeakMap map eph).gc.weakMaps =
      m.gc.handlesOf m.gc.weakMaps ++ [.ephemeron eph] := by
    change (m.gc.weakMaps ++ [map]).map _ = _
    rw [List.map_append, List.map_singleton, hself, handlesOf]
    exact congrArg (· ++ _) (List.map_congr_left fun w hw => by rw [hweakMap w hw])
  have hone := List.singleton_subperm_iff.mpr heph
  have howned : (m.pushWeakMap map eph).gc.Owned := ⟨h.owned.fields, h.owned.values⟩
  exact { h with
    owned := howned
    roots := fun x hx => h.roots x (List.mem_of_mem_erase hx)
    weakMaps := fun w hw => by
      rcases List.mem_append.mp hw with hw | hw
      · rw [hweakMap w hw]
        exact h.weakMaps w hw
      · rw [List.mem_singleton.mp hw, hself]
        exact h.roots _ heph
    counted := fun x hx => by
      have hcounted := h.counted x hx
      have hle := hone.count_le x
      rw [hhandles, List.count_append]
      change (m.gc.header x).refCount.toNat = m.gc.contents.count x + _ +
        (m.roots.erase (.ephemeron eph)).count x
      rw [List.count_erase]
      rw [List.count_singleton] at hle ⊢
      omega }

end Mutator

end BoaLigero
