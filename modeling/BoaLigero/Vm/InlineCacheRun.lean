import BoaLigero.Vm.InlineCache

/-!
# Coherence of Inline Caches

In every run around a site whose steps fit (`SiteWorld.StepFits`), a hit of the inline cache
does what the internal method would do. Without the condition it need not: a definition
extends a unique shape in place, so an entry that found the name on the prototype survives
the shadowing of the name; a getter or setter called by a miss may move the property before
the cache is filled; and a hit of a write does not look at the receiver.

The invariant keeps, for every entry and for every read under way, what the shapes concerned
say about the name (`ObjectHeap.Tells`). Every step of the heap keeps what shapes say, but
for the one exception above, and a new entry records what the shapes say when it is made.

## Main results

* `hits_coherent` — in every run whose steps fit, every hit is coherent.
* `not_forall_coherent` — the other runs need not be.
-/

namespace BoaLigero

namespace ObjectHeap

variable {P : Type} {h : ObjectHeap P}

/-- A collection leaves everything that is said as it is. -/
theorem evolves_collect (wf : h.WF) (alive : ℕ → Bool) :
    Evolves h { h with shapes := { h.shapes with shared := { h.shapes.shared with alive } } }
      none := by
  have hlook : ∀ shape key, Shapes.lookup { h.shapes with shared :=
      { h.shapes.shared with alive } } shape key = h.shapes.lookup shape key := by
    intro shape key
    cases shape <;> rfl
  refine ⟨⟨wf.owned.collect alive, wf.root, ⟨wf.attributes.shared, wf.attributes.unique⟩,
    fun x hx => ?_⟩, fun shape hv => ?_, fun shape _ hin => ?_, fun shape k _ _ _ => hlook shape k⟩
  · obtain ⟨rows, hholds, hfun⟩ := wf.stores x hx
    exact ⟨rows, ⟨hholds.storage_eq, by rw [Shapes.propertyList_withAlive, hholds.widths_eq]⟩,
      hfun⟩
  · cases shape <;> exact hv
  · cases shape <;> exact hin

/-- The shape of an object. -/
theorem shape_eq_some_iff {obj : ℕ} {shape : Shape} :
    h.shape obj = some shape ↔ ∃ x, h.objects[obj]? = some x ∧ x.map.shape = shape :=
  Option.map_eq_some_iff

end ObjectHeap

namespace SiteWorld

open ObjectHeap

variable {P : Type} [DecidableEq P] {site : Site} {w w' : SiteWorld P}

/-! ### The invariant -/

/-- A slot in the cache of a write site: a data slot is a writable one of the object. -/
def SlotFits (site : Site) (slot : Slot) : Prop :=
  site.kind = .set → slot.attributes.isAccessorDescriptor = false →
    slot.attributes.inPrototype = false ∧ slot.attributes.writable = true

/-- What the shapes of a cache entry say: the receiver's shape has the slot, or lacks the
name while the prototype's shape has the slot. -/
inductive EntrySound (h : ObjectHeap P) (name : PropertyKey) : CacheEntry → Prop
  | own {shape : Shape} {slot : Slot} (hslot : slot.attributes.inPrototype = false)
      (hown : h.Tells shape name (some slot.bare)) :
      EntrySound h name { shape, prototypeShape := none, slot }
  | inherited {shape prototypeShape : Shape} {slot : Slot}
      (hslot : slot.attributes.inPrototype = true) (hown : h.Tells shape name none)
      (hvalid : h.shapes.Valid prototypeShape)
      (hproto : h.InUse shape → h.Tells prototypeShape name (some slot.bare)) :
      EntrySound h name { shape, prototypeShape := some prototypeShape, slot }

/-- What is known about a pending access. -/
def PendingSound (site : Site) (h : ObjectHeap P) : PendingAccess → Prop
  | .get none _ => site.kind = .get
  | .get (some shape) slot => site.kind = .get ∧ (slot.isCacheable →
      h.Tells shape site.name (if slot.attributes.inPrototype then none else some slot.bare))
  | .set _ slot => slot.attributes.isAccessorDescriptor = true

/-- The invariant of a site. -/
structure Inv (site : Site) (w : SiteWorld P) : Prop where
  wf : w.heap.WF
  entries : ∀ e ∈ w.cache.entries, EntrySound w.heap site.name e ∧ SlotFits site e.slot
  pending : ∀ p ∈ w.pending, PendingSound site w.heap p

omit [DecidableEq P] in
/-- **Steps of the heap** keep the invariant unless they extend a watched shape by the
name. -/
theorem Inv.evolved (inv : Inv site w) {heap : ObjectHeap P}
    {added : Option (ℕ × PropertyKey)} (hev : Evolves w.heap heap added)
    (hadded : ∀ a ∈ added, a.2 = site.name → ¬ w.Watches a.1) (collected : ℕ → Bool) :
    Inv site { w with heap, collected } := by
  -- An unwatched shape keeps lacking the name.
  have hnone : ∀ {shape}, (∀ u, shape = .unique u → w.Watches u) →
      w.heap.Tells shape site.name none → heap.Tells shape site.name none := by
    intro shape hwatch htells
    refine hev.tells htells fun _ u hu hadd => ?_
    exact hadded _ hadd rfl (hwatch u hu)
  have hsome : ∀ {shape slot}, w.heap.Tells shape site.name (some slot) →
      heap.Tells shape site.name (some slot) :=
    fun htells => hev.tells htells fun hfalse => (nomatch hfalse)
  refine ⟨hev.wf, fun e he => ⟨?_, (inv.entries e he).2⟩, fun p hp => ?_⟩
  · cases (inv.entries e he).1 with
    | own hslot hown => exact .own hslot (hsome hown)
    | inherited hslot hown hvalid hproto =>
        have hown' := hnone (fun u hu => .inl ⟨_, he, hu, rfl⟩) hown
        exact .inherited hslot hown' (hev.valid _ hvalid)
          fun hin => hsome (hproto (hev.inUse _ hown.valid hin))
  · have hsound := inv.pending p hp
    cases p with
    | set obj slot => exact hsound
    | get lookupShape slot =>
        cases lookupShape with
        | none => exact hsound
        | some shape =>
            refine ⟨hsound.1, fun hc => ?_⟩
            have htells := hsound.2 hc
            split at htells
            · next hslot =>
                rw [if_pos hslot]
                exact hnone (fun u hu => .inr
                  ⟨_, hp, by simp [PendingAccess.reliesOn, hu, hc, hslot]⟩) htells
            · next hslot =>
                rw [if_neg hslot]
                exact hsome htells

/-! ### Filling the cache -/

omit [DecidableEq P] in
/-- Caching a sound entry keeps the invariant. -/
theorem Inv.cacheSet (inv : Inv site w) {shape : Shape} {slot : Slot} (hfits : SlotFits site slot)
    (hnew : ∀ prototypeShape ∈ w.recordedPrototype shape slot,
      EntrySound w.heap site.name { shape, prototypeShape, slot }) :
    Inv site { w with cache := w.cacheSet shape slot } := by
  refine ⟨inv.wf, ?_, inv.pending⟩
  have hkept : ∀ e ∈ w.cache.entries.filter fun e => w.isUpgradable e.shape,
      EntrySound w.heap site.name e ∧ SlotFits site e.slot :=
    fun e he => inv.entries e (List.mem_of_mem_filter he)
  intro e he
  simp only [SiteWorld.cacheSet] at he
  split at he
  · exact inv.entries e he
  · split at he
    · exact hkept e he
    · next prototypeShape hrec =>
        split at he
        · rcases List.mem_append.mp he with he | he
          · exact hkept e he
          · obtain rfl := List.mem_singleton.mp he
            exact ⟨hnew prototypeShape hrec, hfits⟩
        · cases he

omit [DecidableEq P] in
/-- **What a new entry records** is sound, if the name is still where it was found. -/
theorem entrySound_of_stillAt (inv : Inv site w) {shape : Shape} {slot : Slot}
    (htells : w.heap.Tells shape site.name
      (if slot.attributes.inPrototype then none else some slot.bare))
    (hstill : w.heap.InUse shape → w.StillAt site shape slot) :
    ∀ prototypeShape ∈ w.recordedPrototype shape slot,
      EntrySound w.heap site.name { shape, prototypeShape, slot } := by
  intro prototypeShape hrec
  by_cases hslot : slot.attributes.inPrototype = true
  · rw [if_pos hslot] at htells
    rw [recordedPrototype, if_pos hslot] at hrec
    obtain ⟨s, hs, rfl⟩ := Option.map_eq_some_iff.mp hrec
    obtain ⟨p, hp, hsp⟩ := Option.bind_eq_some_iff.mp hs
    obtain ⟨y, hy, rfl⟩ := shape_eq_some_iff.mp hsp
    refine .inherited hslot htells (inv.wf.valid hy) fun hin => ⟨inv.wf.valid hy, fun _ => ?_⟩
    have hstill := hstill hin
    rw [StillAt, if_pos hslot] at hstill
    exact (hstill _ hs).2
  · rw [if_neg hslot] at htells
    rw [recordedPrototype, if_neg hslot] at hrec
    cases hrec
    exact .own (Bool.eq_false_iff.mpr hslot) htells

omit [DecidableEq P] in
/-- **What a climb reports as cacheable** is what the shapes say. -/
theorem stillAt_of_lookup (inv : Inv site w) {obj : ℕ} {x : JsObject P}
    (hx : w.heap.objects[obj]? = some x) {r : Resolved P}
    (heq : w.heap.lookup obj site.name = some r) (hcacheable : r.slot.isCacheable = true) :
    w.heap.Tells x.map.shape site.name
        (if r.slot.attributes.inPrototype then none else some r.slot.bare) ∧
      w.StillAt site x.map.shape r.slot := by
  obtain ⟨hbit, hfound⟩ := Bool.and_eq_true_iff.mp hcacheable
  have hdesc : r.desc.isSome = true := by
    rw [Option.isSome_iff_ne_none]
    intro hnone
    exact absurd ((resolve_absent inv.wf heq hnone).1 rfl) (by simp [hfound])
  have hbare : ∀ {y : JsObject P} {found outSlot : Slot},
      w.heap.shapes.lookup y.map.shape site.name = some found →
        (foundAt outSlot found).bare = found := fun hlook =>
    bare_foundAt (inv.wf.attributes.of_lookup inv.wf.owned.wf hlook) _
  rcases cacheable_of_lookup inv.wf hx heq hdesc with hc | ⟨hnot, -⟩
  · have htells := inv.wf.tells hx site.name
    cases hc with
    | @own found d hlook hstored =>
        constructor
        · show w.heap.Tells x.map.shape site.name (some (foundAt .new found).bare)
          rw [hbare hlook, ← hlook]
          exact htells
        · show w.heap.shapes.lookup x.map.shape site.name = some (foundAt .new found).bare
          rw [hbare hlook, hlook]
    | @inherited found d proto y hnone hproto hy hlook hstored =>
        refine ⟨hnone ▸ htells, fun s hs => ⟨hnone, ?_⟩⟩
        rw [hproto, Option.mem_def, Option.bind_some, ObjectHeap.shape, hy] at hs
        cases hs
        rw [hbare hlook]
        exact hlook
  · rw [hnot] at hbit
    cases hbit

/-! ### Hits -/

omit [DecidableEq P] in
/-- **What a hit refers to** is what the climb finds. -/
theorem Inv.hit (inv : Inv site w) {obj : ℕ} {x : JsObject P} {slot : Slot}
    (hx : w.heap.objects[obj]? = some x) (hget : w.cacheGet x.map.shape = some slot) :
    SlotFits site slot ∧ (∃ e ∈ w.cache.entries, e.shape = x.map.shape) ∧
      ∃ holder y d slot', w.heap.slotHolder obj slot = some holder ∧
        w.heap.objects[holder]? = some y ∧
        w.heap.shapes.lookup y.map.shape site.name = some slot.bare ∧
        w.heap.lookup obj site.name = some { holder, desc := some d, slot := slot' } ∧
        Stored y.map.storage slot.bare d ∧
        (slot.attributes.inPrototype = false → holder = obj) := by
  rw [cacheGet] at hget
  split at hget
  · cases hget
  · obtain ⟨e, hfind, rfl⟩ := Option.map_eq_some_iff.mp hget
    have he := List.mem_of_find?_eq_some hfind
    obtain ⟨hsound, hfits⟩ := inv.entries e he
    have hmatch : w.entryMatches e x.map.shape = true :=
      List.find?_some (p := fun e => w.entryMatches e x.map.shape) hfind
    simp only [entryMatches, Bool.and_eq_true, beq_iff_eq] at hmatch
    obtain ⟨⟨hshape, -⟩, hproto⟩ := hmatch
    refine ⟨hfits, ⟨e, he, hshape⟩, ?_⟩
    cases hsound with
    | @own shape slot hslot hown =>
        dsimp only at hshape
        have hlook := hown.eq_of_object hx hshape.symm
        rw [hshape] at hlook
        obtain ⟨d, hlookup, hstored⟩ := lookup_of_some inv.wf hx hlook
        refine ⟨obj, x, d, _, ?_, hx, hlook, hlookup, hstored, fun _ => rfl⟩
        simp [slotHolder, hslot]
    | @inherited shape prototypeShape slot hslot hown hvalid hprototype =>
        dsimp only at hshape hproto
        have hnone := hown.eq_of_object hx hshape.symm
        rw [hshape] at hnone
        split at hproto
        · next s hs =>
            obtain ⟨p, hp, hsp⟩ := Option.bind_eq_some_iff.mp hs
            obtain ⟨y, hy, hys⟩ := shape_eq_some_iff.mp hsp
            obtain ⟨rfl, -⟩ : prototypeShape = s ∧ _ := by simpa using hproto
            have hin : w.heap.InUse shape := hshape ▸ inUse_of_object hx
            have hlook := (hprototype hin).eq_of_object hy hys
            rw [← hys] at hlook
            obtain ⟨d, hlookup, hstored⟩ := lookup_of_prototype inv.wf hx hnone hp hy hlook
            refine ⟨p, y, d, _, ?_, hy, hlook, hlookup, hstored, fun hfalse => ?_⟩
            · simp [slotHolder, hslot, ObjectHeap.shape, hx, hp]
            · rw [hslot] at hfalse
              cases hfalse
        · cases hproto

/-- A function or undefined is called exactly when it is an object. -/
theorem isObject_eq {v : JsValue P} (hv : v.isAccessorFunction) :
    v.isObject = !decide (v = .undefined) := by
  cases v with
  | undefined => rfl
  | primitive p => cases hv
  | object addr => rfl

/-- **Reads are coherent.** -/
theorem Inv.getCoherent (inv : Inv site w) : w.GetCoherent site := by
  intro obj shape slot hshape hget
  obtain ⟨x, hx, rfl⟩ := shape_eq_some_iff.mp hshape
  obtain ⟨-, -, holder, y, d, slot', hholder, hy, -, hlookup, hstored, -⟩ := inv.hit hx hget
  refine ⟨_, slot', ?_, by rw [ordinaryGet, hlookup, Option.map_some]⟩
  rw [getThrough, hholder, Option.bind_some, hy, Option.bind_some]
  cases hstored with
  | data v hkind hcell =>
      have hbit : slot.attributes.get = false := by
        have hbits : (slot.attributes.get || slot.attributes.set) = false := hkind
        exact (Bool.or_eq_false_iff.mp hbits).1
      change y.map.storage[slot.index]? = some v at hcell
      simp [hcell, hbit, getResult, PropertyDescriptor.ofData]
  | accessor g s hkind hhas hg hs =>
      have hbit : slot.attributes.get = true := hhas.1
      have hcell : y.map.storage[slot.index]? = some g := hg.1
      by_cases hundef : g = .undefined
      · subst hundef
        simp [hcell, JsValue.isObject, getResult, PropertyDescriptor.ofAccessor]
      · simp [hcell, hbit, isObject_eq hg.2, hundef, getResult, PropertyDescriptor.ofAccessor]

/-- **Writes are coherent.** -/
theorem Inv.setCoherent (inv : Inv site w) (hkind : site.kind = .set) : w.SetCoherent site := by
  intro obj shape slot receiver value hshape hget hfits
  obtain ⟨x, hx, rfl⟩ := shape_eq_some_iff.mp hshape
  obtain ⟨hslot, ⟨e, he, heshape⟩, holder, y, d, slot', hholder, hy, hlook, hlookup, hstored,
    hown⟩ := inv.hit hx hget
  rw [setThrough, hholder, Option.bind_some, hy, Option.bind_some, ordinarySet, hlookup,
    Option.bind_some]
  cases hstored with
  | data v hacc hcell =>
      change slot.attributes.isAccessorDescriptor = false at hacc
      change y.map.storage[slot.index]? = some v at hcell
      obtain ⟨hbit, hwritable⟩ := hslot hkind hacc
      obtain rfl := hown hbit
      rw [hx] at hy
      cases hy
      have hlt := (List.getElem?_eq_some_iff.mp hcell).1
      -- Another receiver does not fit a cached data property.
      have hreceiver : receiver = .object holder := by
        rcases hfits with h | h | h
        · exact h
        · simp [meetsAccessor, hlookup, PropertyDescriptor.isAccessorDescriptor,
            PropertyDescriptor.ofData] at h
        · exact absurd (by rw [hshape, heshape]) (h.1 e he)
      subst hreceiver
      have hset := setWithOwnDescriptor_value inv.wf hx hlook hacc hwritable v value
        slot.attributes.enumerable slot.attributes.configurable slot'
      refine ⟨_, _, ?_, hwritable ▸ hset⟩
      rw [if_neg (by rw [hacc]; decide), Storage.write, if_pos hlt]
      rfl
  | accessor g s hacc hhas hg hs =>
      change slot.attributes.isAccessorDescriptor = true at hacc
      have hbit : slot.attributes.set = true := hhas.2
      have hcell : y.map.storage[slot.index + 1]? = some s := hs.1
      by_cases hundef : s = .undefined
      · subst hundef
        refine ⟨.rejected, slot', ?_, ?_⟩
        · simp [hacc, hcell, JsValue.isObject]
        · simp [setWithOwnDescriptor, PropertyDescriptor.isDataDescriptor,
            PropertyDescriptor.ofAccessor, PropertyDescriptor.set]
      · refine ⟨.setter s, slot', ?_, ?_⟩
        · simp [hacc, hcell, hbit, isObject_eq hs.2, hundef]
        · simp [setWithOwnDescriptor, PropertyDescriptor.isDataDescriptor,
            PropertyDescriptor.ofAccessor, PropertyDescriptor.set, hundef]

/-! ### Steps -/

/-- A read keeps the invariant. -/
theorem Inv.getByName (inv : Inv site w) (hkind : site.kind = .get) {obj : ℕ} {primitive : Bool}
    (heq : w.getByName site obj primitive = some w') : Inv site w' := by
  obtain ⟨shape, hshape, heq⟩ := Option.bind_eq_some_iff.mp heq
  obtain ⟨x, hx, rfl⟩ := shape_eq_some_iff.mp hshape
  have hfits : ∀ slot, SlotFits site slot := fun slot hset => by rw [hkind] at hset; cases hset
  split at heq
  · obtain ⟨-, -, rfl⟩ := Option.map_eq_some_iff.mp heq
    exact inv
  · obtain ⟨⟨result, slot⟩, hget, hr⟩ := Option.map_eq_some_iff.mp heq
    obtain ⟨r, hlookup, hr'⟩ := Option.map_eq_some_iff.mp hget
    obtain ⟨-, rfl⟩ := Prod.mk.inj hr'
    have hstill := stillAt_of_lookup inv hx hlookup
    cases result with
    | value v =>
        dsimp only at hr
        subst hr
        by_cases hmega : w.cache.megamorphic = true
        · rw [if_pos hmega]
          exact inv
        · rw [if_neg hmega]
          simp only [seedGet]
          split
          · next hc =>
              exact inv.cacheSet (hfits _) (entrySound_of_stillAt inv (hstill hc).1
                fun _ => (hstill hc).2)
          · exact inv
    | getter g =>
        dsimp only at hr
        subst hr
        refine ⟨inv.wf, inv.entries, fun p hp => ?_⟩
        rcases List.mem_cons.mp hp with rfl | hp
        · by_cases hmega : w.cache.megamorphic = true
          · rw [if_pos hmega]
            exact hkind
          · rw [if_neg hmega]
            exact ⟨hkind, fun hc => (hstill hc).1⟩
        · exact inv.pending p hp

/-- A successful `[[Set]]` keeps the invariant. -/
theorem Inv.stored (inv : Inv site w) {obj : ℕ} {receiver value : JsValue P}
    (hfits : w.StepFits site (.set obj receiver value)) {heap : ObjectHeap P} {slot' : Slot}
    (heq : w.heap.ordinarySet obj site.name value receiver = some (.stored heap, slot')) :
    Inv site { w with heap } := by
  obtain ⟨r, receiver', desc, slot, hlookup, rfl, hdefine, hstores, hdata⟩ :=
    stores_of_ordinarySet inv.wf heq
  refine inv.evolved (ordinaryDefineOwnProperty_evolves inv.wf hstores.isRequest hdefine) ?_ _
  rcases hfits.2 with hacc | hadds
  · -- No accessor was met.
    rw [meetsAccessor, hlookup, Option.any_some] at hacc
    cases hd : r.desc with
    | none => simp [hd] at hacc
    | some d =>
        have hkind := hdata d hd
        rw [hd, Option.any_some] at hacc
        obtain ⟨e, c, kind⟩ := d
        cases kind <;> simp_all [PropertyDescriptor.isAccessorDescriptor,
          PropertyDescriptor.isDataDescriptor]
  · exact hadds

/-- **What a write that missed caches** is a writable property of the object. -/
theorem Inv.seedSet (inv : Inv site w) {obj : ℕ} {receiver value : JsValue P}
    (hfits : w.StepFits site (.set obj receiver value)) {heap : ObjectHeap P} {slot : Slot}
    (heq : w.heap.ordinarySet obj site.name value receiver = some (.stored heap, slot)) :
    Inv site (SiteWorld.seedSet { w with heap } obj slot) := by
  have inv' := inv.stored hfits heq
  obtain ⟨r, receiver', desc, slot₁, hlookup, rfl, hdefine, hstores, hdata⟩ :=
    stores_of_ordinarySet inv.wf heq
  simp only [SiteWorld.seedSet]
  split
  · next shape hshape =>
      split
      · next hc =>
          obtain ⟨hbit, hfound⟩ := Bool.and_eq_true_iff.mp hc
          cases hstores with
          | elsewhere _ hslot =>
              rw [notCacheable_of_define hslot hdefine] at hbit
              cases hbit
          | create hreq hslot hlacks =>
              obtain ⟨x, hx, hlook⟩ := hlacks
              rw [found_of_define inv.wf hreq hx hlook hslot hdefine] at hfound
              cases hfound
          | value hdesc hholder hslot =>
              obtain ⟨d, hd, hkind, hwritable⟩ := hdesc
              have hobj : receiver' = obj := by
                rcases hfits.1 with h | h | h
                · exact JsValue.object.inj h
                · rw [meetsAccessor, hlookup, Option.any_some, hd, Option.any_some] at h
                  obtain ⟨e, c, kind⟩ := d
                  cases kind <;> simp_all [PropertyDescriptor.isAccessorDescriptor,
                    PropertyDescriptor.isDataDescriptor]
                · exact absurd (congrArg _ hholder.symm) (h.2 r hlookup (by rw [hd]; rfl))
              subst hobj
              obtain ⟨x, found, outSlot, hx, hlook, hstored, -⟩ :=
                resolve_present inv.wf hlookup hd
              rw [hholder] at hx
              obtain ⟨d', hlookup', -⟩ := lookup_of_some inv.wf hx hlook
              rw [hlookup] at hlookup'
              cases hlookup'
              cases hstored with
              | accessor => cases hkind
              | data v hacc hcell =>
                  have hw : found.attributes.writable = true := Option.some.inj hwritable
                  rw [define_value_eq inv.wf hx hlook hacc hw] at hdefine
                  cases hdefine
                  have hproper := inv.wf.attributes.of_lookup inv.wf.owned.wf hlook
                  have hlt := (List.getElem?_eq_some_iff.mp hx).1
                  simp only [ObjectHeap.shape, List.getElem?_set_self hlt, Option.map_some] at hshape
                  cases hshape
                  refine inv'.cacheSet (fun _ _ => ⟨hslot, hw⟩) ?_
                  have hbare := bare_foundAt hproper slot₁
                  refine entrySound_of_stillAt inv' ?_ fun _ => ?_
                  · rw [if_neg (by simp [foundAt, hslot]; rfl), hbare, ← hlook]
                    exact ⟨inv.wf.valid hx, fun _ => rfl⟩
                  · rw [StillAt, if_neg (by simp [foundAt, hslot]; rfl), hbare]
                    exact hlook
      · exact inv'
  · exact inv'

/-- A write keeps the invariant. -/
theorem Inv.setByName (inv : Inv site w) (hkind : site.kind = .set) {obj : ℕ}
    {receiver value : JsValue P} (hfits : w.StepFits site (.set obj receiver value))
    (heq : w.setByName site obj receiver value = some w') : Inv site w' := by
  obtain ⟨shape, hshape, heq⟩ := Option.bind_eq_some_iff.mp heq
  split at heq
  · next slot hget =>
      obtain ⟨result, slot', hthrough, hset⟩ :=
        inv.setCoherent hkind obj shape slot receiver value hshape hget hfits.1
      rw [hthrough, Option.map_some] at heq
      cases result with
      | stored heap => exact Option.some.inj heq ▸ inv.stored hfits hset
      | setter set => exact Option.some.inj heq ▸ inv
      | rejected => exact Option.some.inj heq ▸ inv
  · obtain ⟨⟨result, slot⟩, hset, hr⟩ := Option.map_eq_some_iff.mp heq
    cases result with
    | stored heap => exact hr ▸ inv.seedSet hfits hset
    | rejected => exact hr ▸ inv
    | setter set =>
        subst hr
        refine ⟨inv.wf, inv.entries, fun p hp => ?_⟩
        rcases List.mem_cons.mp hp with rfl | hp
        · exact accessor_of_setter inv.wf hset
        · exact inv.pending p hp

omit [DecidableEq P] in
/-- The return of a getter or setter keeps the invariant. -/
theorem Inv.finish (inv : Inv site w) (hfits : w.StepFits site .finish)
    (heq : w.finish = some w') : Inv site w' := by
  rw [SiteWorld.finish] at heq
  split at heq
  · cases heq
  · next lookupShape slot pending hpending =>
      have inv' : Inv site { w with pending } :=
        ⟨inv.wf, inv.entries, fun p hp => inv.pending p (hpending ▸ List.mem_cons_of_mem _ hp)⟩
      have hsound := inv.pending _ (hpending ▸ List.mem_cons_self)
      cases lookupShape with
      | none => exact Option.some.inj heq ▸ inv'
      | some shape =>
          rw [StepFits, hpending, List.head?_cons] at hfits
          obtain rfl := Option.some.inj heq
          simp only [seedGet]
          split
          · next hc =>
              refine inv'.cacheSet (fun hset => ?_)
                (entrySound_of_stillAt inv' (hsound.2 hc) (hfits hc))
              rw [hsound.1] at hset
              cases hset
          · exact inv'
  · next obj slot pending hpending =>
      have inv' : Inv site { w with pending } :=
        ⟨inv.wf, inv.entries, fun p hp => inv.pending p (hpending ▸ List.mem_cons_of_mem _ hp)⟩
      have hacc := inv.pending _ (hpending ▸ List.mem_cons_self)
      rw [StepFits, hpending, List.head?_cons] at hfits
      obtain rfl := Option.some.inj heq
      simp only [SiteWorld.seedSet]
      split
      · next shape hshape =>
          split
          · next hc =>
              have hstill := hfits hc shape hshape
              obtain ⟨x, hx, rfl⟩ := shape_eq_some_iff.mp hshape
              refine inv'.cacheSet (fun _ hdata => ?_) fun prototypeShape hrec =>
                entrySound_of_stillAt inv' ⟨inv.wf.valid hx, fun _ => ?_⟩ (fun _ => hstill) _ hrec
              · rw [show slot.attributes.isAccessorDescriptor = true from hacc] at hdata
                cases hdata
              · -- The object's shape lacks the name if its prototype has it.
                rw [StillAt] at hstill
                rw [recordedPrototype] at hrec
                split at hstill
                · next hslot =>
                    rw [if_pos hslot] at hrec ⊢
                    obtain ⟨s, hs, -⟩ := Option.map_eq_some_iff.mp hrec
                    exact (hstill s hs).1
                · next hslot =>
                    rw [if_neg hslot]
                    exact hstill
          · exact inv'
      · exact inv'

omit [DecidableEq P] in
/-- Nothing is cached yet. -/
theorem inv_initial : Inv site (initial : SiteWorld P) := by
  refine ⟨⟨⟨⟨ShapeHeap.wf_initial, ?_⟩, ?_, ?_⟩, ⟨rfl, rfl⟩, ⟨?_, ?_⟩, ?_⟩, ?_, ?_⟩
  · simp [initial]
  · simp [initial]
  · simp [initial]
  · intro i e he
    cases he
  · simp [initial]
  · simp [initial]
  · simp [initial]
  · simp [initial]

/-- **Every step that fits keeps the invariant.** -/
theorem Inv.step (inv : Inv site w) {l : SiteLabel P} (hfits : w.StepFits site l)
    (heq : w.exec site l = some w') : Inv site w' := by
  have hnone : ∀ a ∈ (none : Option (ℕ × PropertyKey)), a.2 = site.name → ¬ w.Watches a.1 :=
    fun _ ha => (nomatch ha)
  cases l with
  | newUnique prototype =>
      obtain rfl := Option.some.inj heq
      have hm := Shapes.newUnique_moves inv.wf.owned.wf .empty (.shared ShapeHeap.rootShape)
        prototype
      exact inv.evolved (evolves_push inv.wf hm (fun _ hu => (nomatch hu))
        (inv.wf.attributes.newUnique _ .empty) true) hnone w.collected
  | newShared prototype =>
      obtain rfl := Option.some.inj heq
      have hspec := ShapeHeap.changePrototypeTransition_spec inv.wf.owned.wf.shared
        inv.wf.root.1 (q := prototype) rfl
      rw [inv.wf.root.2] at hspec
      exact inv.evolved (evolves_push inv.wf (Shapes.shared_moves (s := ShapeHeap.rootShape)
        inv.wf.owned.wf hspec) (fun _ hu => (nomatch hu)) (inv.wf.attributes.withShared
        (inv.wf.attributes.shared.changePrototypeTransition _ _)) true) hnone w.collected
  | define obj key desc =>
      rw [exec] at heq
      split at heq
      · next hreq =>
          obtain ⟨⟨done, slot, heap⟩, hdefine, rfl⟩ := Option.map_eq_some_iff.mp heq
          exact inv.evolved (ordinaryDefineOwnProperty_evolves inv.wf hreq hdefine) hfits
            w.collected
      · cases heq
  | delete obj key =>
      obtain ⟨⟨done, heap⟩, hdelete, rfl⟩ := Option.map_eq_some_iff.mp heq
      exact inv.evolved (ordinaryDelete_evolves inv.wf hdelete) hnone w.collected
  | setPrototype obj val =>
      obtain ⟨⟨done, heap⟩, hset, rfl⟩ := Option.map_eq_some_iff.mp heq
      exact inv.evolved (ordinarySetPrototypeOf_evolves inv.wf hset) hnone w.collected
  | preventExtensions obj =>
      obtain ⟨heap, hprevent, rfl⟩ := Option.map_eq_some_iff.mp heq
      exact inv.evolved (ordinaryPreventExtensions_evolves inv.wf hprevent) hnone w.collected
  | collect alive collected =>
      obtain rfl := Option.some.inj heq
      exact inv.evolved (evolves_collect inv.wf alive) hnone _
  | get obj primitive =>
      rw [exec] at heq
      split at heq
      · next hkind => exact inv.getByName hkind heq
      · cases heq
  | set obj receiver value =>
      rw [exec] at heq
      split at heq
      · next hkind => exact inv.setByName hkind hfits heq
      · cases heq
  | finish => exact inv.finish hfits heq
  | abort =>
      obtain ⟨pending, htail, rfl⟩ := Option.map_eq_some_iff.mp heq
      refine ⟨inv.wf, inv.entries, fun p hp => inv.pending p ?_⟩
      cases hw : w.pending with
      | nil => rw [hw] at htail; cases htail
      | cons p' rest =>
          rw [hw] at htail
          cases htail
          exact List.mem_cons_of_mem _ hp

/-- **Hits are coherent** in every run whose steps fit: whatever was defined, deleted,
reconfigured or given another prototype, a slot found in the cache is the one that `[[Get]]`
or `[[Set]]` uses at that moment. -/
theorem hits_coherent (site : Site) (run : (system P site).Run (StepFits site) w) :
    w.Coherent site := by
  have inv : Inv site w := run.invariant (fun s hs => by rw [hs]; exact inv_initial)
    fun s l s' hs hok hstep => hs.step hok hstep
  rw [Coherent]
  split
  · exact inv.getCoherent
  · next hkind => exact inv.setCoherent hkind

/-! ### Runs -/

instance (addr : ℕ) : Decidable (w.Watches addr) :=
  inferInstanceAs (Decidable ((∃ e ∈ w.cache.entries,
    e.shape = .unique addr ∧ e.prototypeShape.isSome) ∨ ∃ p ∈ w.pending, p.reliesOn addr = true))

instance (shape : Shape) (slot : Slot) : Decidable (w.StillAt site shape slot) :=
  if hslot : slot.attributes.inPrototype then
    decidable_of_iff (∀ prototypeShape ∈ (w.heap.shapes.prototype shape).bind w.heap.shape,
      w.heap.shapes.lookup shape site.name = none ∧
        w.heap.shapes.lookup prototypeShape site.name = some slot.bare)
      (by rw [StillAt, if_pos hslot])
  else
    decidable_of_iff (w.heap.shapes.lookup shape site.name = some slot.bare)
      (by rw [StillAt, if_neg hslot])

instance (obj : ℕ) (key : PropertyKey) : Decidable (w.AddsUnwatched site obj key) :=
  inferInstanceAs (Decidable (∀ added ∈ w.heap.addedInPlace obj key, added.2 = site.name →
    ¬ w.Watches added.1))

instance (obj : ℕ) (receiver : JsValue P) : Decidable (w.ReceiverFits site obj receiver) :=
  inferInstanceAs (Decidable (receiver = .object obj ∨ w.meetsAccessor site obj = true ∨
    ((∀ e ∈ w.cache.entries, w.heap.shape obj ≠ some e.shape) ∧
      ∀ r ∈ w.heap.lookup obj site.name, r.desc.isSome → receiver ≠ .object r.holder)))

instance : ∀ receiver, Decidable (w.ReceiverUnwatched site receiver)
  | .object receiver => inferInstanceAs (Decidable (w.AddsUnwatched site receiver site.name))
  | .undefined => .isTrue trivial
  | .primitive _ => .isTrue trivial

instance : ∀ p, Decidable (w.ReturnFits site p)
  | none => .isTrue trivial
  | some (.get none _) => .isTrue trivial
  | some (.get (some shape) slot) =>
      inferInstanceAs (Decidable (slot.isCacheable → w.heap.InUse shape →
        w.StillAt site shape slot))
  | some (.set obj slot) =>
      inferInstanceAs (Decidable (slot.isCacheable → ∀ shape ∈ w.heap.shape obj,
        w.StillAt site shape slot))

instance : ∀ l, Decidable (w.StepFits site l)
  | .define obj key _ => inferInstanceAs (Decidable (w.AddsUnwatched site obj key))
  | .set obj receiver _ => inferInstanceAs (Decidable (w.ReceiverFits site obj receiver ∧
      (w.meetsAccessor site obj = true ∨ w.ReceiverUnwatched site receiver)))
  | .finish => inferInstanceAs (Decidable (w.ReturnFits site w.pending.head?))
  | .newUnique _ => .isTrue trivial
  | .newShared _ => .isTrue trivial
  | .delete _ _ => .isTrue trivial
  | .setPrototype _ _ => .isTrue trivial
  | .preventExtensions _ => .isTrue trivial
  | .collect _ _ => .isTrue trivial
  | .get _ _ => .isTrue trivial
  | .abort => .isTrue trivial

/-- A site that reads `x`. -/
def getSite : Site := { name := .string "x", kind := .get }

/-- A site that writes `x`. -/
def setSite : Site := { name := .string "x", kind := .set }

/-- A writable number. -/
def numberProperty (n : ℕ) : PropertyDescriptor (JsValue ℕ) :=
  .ofData (.primitive n) true true true

/-- A getter and a setter. -/
def functionsProperty (get set : ℕ) : PropertyDescriptor (JsValue ℕ) :=
  .ofAccessor (some (.object get)) (some (.object set)) true true

/-- Perform steps at a site, checking that they fit or not. -/
def perform (site : Site) (check : Bool) (ls : List (SiteLabel ℕ)) : Option (SiteWorld ℕ) :=
  TransitionSystem.performAll (fun w => w.exec site)
    (fun w l => !check || decide (w.StepFits site l)) initial ls

/-- A getter on the prototype of two objects of one shape adds a property to the first one
when it is called; later the second one shadows the name. -/
def fittingSteps : List (SiteLabel ℕ) :=
  [.newShared none,
    .define 0 (.string "x") (functionsProperty 8 9),
    .newShared (some 0),
    .newShared (some 0),
    .get 1 false,
    .define 1 (.string "y") (numberProperty 1),
    .finish,
    .get 2 false,
    .define 2 (.string "x") (numberProperty 4),
    .get 2 false]

/-- The world after `fittingSteps`. -/
def fittingWorld : SiteWorld ℕ := (perform getSite true fittingSteps).getD initial

/-- After `fittingSteps` the cache answers for the object that shadows the name, and a hit
reads its own property. -/
theorem hits_coherent_fittingWorld :
    (fittingWorld.heap.shape 2).any (fun shape => (fittingWorld.cacheGet shape).isSome) ∧
      fittingWorld.Coherent getSite := by
  have heq : perform getSite true fittingSteps = some fittingWorld := rfl
  have run : (system ℕ getSite).Run (StepFits getSite) fittingWorld :=
    (TransitionSystem.Run.performAll (fun _ _ _ h => h) (.start rfl) heq).mono
      fun w l hok => of_decide_eq_true hok
  exact ⟨by decide, hits_coherent getSite run⟩

/-- Performed steps are a run. -/
theorem reachable_perform {site : Site} {ls : List (SiteLabel ℕ)} {w : SiteWorld ℕ}
    (heq : perform site false ls = some w) : (system ℕ site).Reachable w :=
  (TransitionSystem.Run.performAll (fun _ _ _ h => h) (.start rfl) heq).reachable

/-- An object with a unique shape inherits `x`, and then gets its own. -/
def shadowingSteps : List (SiteLabel ℕ) :=
  [.newShared none,
    .define 0 (.string "x") (numberProperty 1),
    .newUnique (some 0),
    .get 1 false,
    .define 1 (.string "x") (numberProperty 2)]

/-- A setter deletes the property stored in front of its own. -/
def movingSteps : List (SiteLabel ℕ) :=
  [.newShared none,
    .define 0 (.string "a") (numberProperty 1),
    .define 0 (.string "x") (functionsProperty 8 9),
    .set 0 (.object 0) (.primitive 3),
    .delete 0 (.string "a"),
    .finish]

/-- A write through an object whose receiver is the prototype that has the property. -/
def receiverSteps : List (SiteLabel ℕ) :=
  [.newShared none,
    .define 0 (.string "x") (numberProperty 1),
    .newShared (some 0),
    .set 1 (.object 0) (.primitive 2)]

/-- Reads and writes need not be coherent: a hit reads the shadowed property, and a hit looks
for a setter where it no longer is. -/
theorem not_forall_coherent :
    (¬ ∀ w : SiteWorld ℕ, (system ℕ getSite).Reachable w → w.Coherent getSite) ∧
      ¬ ∀ w : SiteWorld ℕ, (system ℕ setSite).Reachable w → w.Coherent setSite := by
  constructor
  · intro hall
    have hrun : ∃ w, perform getSite false shadowingSteps = some w ∧
        ∃ shape slot result, w.heap.shape 1 = some shape ∧ w.cacheGet shape = some slot ∧
          w.heap.getThrough 1 slot = some (.value (.primitive 1)) ∧
          w.heap.ordinaryGet 1 getSite.name = some result ∧
          result.1 = .value (.primitive 2) := ⟨_, rfl, _, _, _, rfl, rfl, rfl, rfl, rfl⟩
    obtain ⟨w, heq, shape, slot, result, hshape, hget, hthrough, hordinary, hresult⟩ := hrun
    obtain ⟨r, slot', hr, hr'⟩ := hall w (reachable_perform heq) 1 shape slot hshape hget
    rw [hthrough] at hr
    rw [hordinary] at hr'
    cases hr
    cases hr'
    cases hresult
  · intro hall
    have hrun : ∃ w, perform setSite false movingSteps = some w ∧
        ∃ shape slot, w.heap.shape 0 = some shape ∧ w.cacheGet shape = some slot ∧
          w.heap.setThrough 0 slot (.primitive 3) = none := ⟨_, rfl, _, _, rfl, rfl, rfl⟩
    obtain ⟨w, heq, shape, slot, hshape, hget, hthrough⟩ := hrun
    obtain ⟨r, slot', hr, -⟩ :=
      hall w (reachable_perform heq) 0 shape slot (.object 0) _ hshape hget (.inl rfl)
    rw [hthrough] at hr
    cases hr

/-- After `receiverSteps` a hit writes the prototype, where `[[Set]]` creates a property of the
object. -/
theorem not_coherent_receiverSteps :
    ∃ w, perform setSite false receiverSteps = some w ∧ ¬ w.Coherent setSite := by
  have hrun : ∃ w, perform setSite false receiverSteps = some w ∧
      ∃ shape slot heap heap' slot', w.heap.shape 1 = some shape ∧ w.cacheGet shape = some slot ∧
        w.heap.setThrough 1 slot (.primitive 3) = some (.stored heap) ∧
        w.heap.ordinarySet 1 setSite.name (.primitive 3) (.object 1) =
          some (.stored heap', slot') ∧
        (heap.objects[0]?.map fun x => x.map.storage) ≠
          heap'.objects[0]?.map fun x => x.map.storage := by
    refine ⟨_, rfl, _, _, _, _, _, rfl, rfl, rfl, rfl, ?_⟩
    decide
  obtain ⟨w, heq, shape, slot, heap, heap', slot', hshape, hget, hthrough, hordinary, hne⟩ := hrun
  refine ⟨w, heq, fun hcoherent => ?_⟩
  obtain ⟨r, slot'', hr, hr'⟩ :=
    hcoherent 1 shape slot (.object 1) (.primitive 3) hshape hget (.inl rfl)
  rw [hthrough] at hr
  rw [hordinary] at hr'
  cases hr
  cases hr'
  exact hne rfl

end SiteWorld

end BoaLigero
