import BoaLigero.Object.ObjectHeap

/-!
# Climbing the Prototype Chain

What `[[Get]]` and `[[Set]]` find on the prototype chain, and what they report about it in
the slot of their context. A property is reported as cacheable only where a cache can tell
from one or two shapes that it is still there: in the object, or in its immediate prototype.

## Main results

* `cacheable_of_lookup` — what is found is cacheable in these two places only.
* `lookup_of_some`, `lookup_of_prototype` — and it is found there, if it is there.
* `stores_of_ordinarySet` — a `[[Set]]` that stores a value is one property definition on the
  receiver.
-/

namespace BoaLigero

namespace ObjectHeap

open PropertyDescriptor

variable {P : Type} {h h' : ObjectHeap P} {x : JsObject P} {obj : ℕ} {key : PropertyKey}
  {d desc : PropertyDescriptor (JsValue P)} {slot slot' : Slot}

/-- The climb ends where the property is found. -/
theorem resolve_of_some (wf : h.WF) (hx : h.objects[obj]? = some x) {found : Slot}
    (hlook : h.shapes.lookup x.map.shape key = some found) (n : ℕ) (slot : Slot) :
    ∃ d, h.resolve key (n + 1) obj slot =
        some { holder := obj, desc := some d, slot := foundAt slot found } ∧
      Stored x.map.storage found d := by
  obtain ⟨d, hget, hstored⟩ := wf.getWithSlot_eq hx hlook slot
  exact ⟨d, by rw [resolve, hx, Option.bind_some, hget, Option.bind_some], hstored⟩

/-- The climb goes on in the prototype. -/
theorem resolve_of_none (hx : h.objects[obj]? = some x)
    (hlook : h.shapes.lookup x.map.shape key = none) (n : ℕ) (slot : Slot) :
    h.resolve key (n + 1) obj slot = match h.shapes.prototype x.map.shape with
      | some parent => h.resolve key n parent slot.enterPrototype
      | none => some { holder := obj, desc := none, slot } := by
  cases hproto : h.shapes.prototype x.map.shape <;>
    simp only [resolve, hx, Option.bind_some, getWithSlot_eq_none hlook, hproto]

/-- A property that is not found is not marked as found, and the last object lacks it. -/
theorem resolve_absent (wf : h.WF) {n : ℕ} {r : Resolved P} {slot : Slot}
    (heq : h.resolve key n obj slot = some r) (hdesc : r.desc = none) :
    (slot.attributes.found = false → r.slot.attributes.found = false) ∧
      ∃ y, h.objects[r.holder]? = some y ∧ h.shapes.lookup y.map.shape key = none := by
  induction n generalizing obj slot with
  | zero => cases heq
  | succ n ih =>
      obtain ⟨x, hx, -⟩ := Option.bind_eq_some_iff.mp heq
      cases hlook : h.shapes.lookup x.map.shape key with
      | some found =>
          obtain ⟨d, hres, -⟩ := resolve_of_some wf hx hlook n slot
          rw [hres] at heq
          cases heq
          cases hdesc
      | none =>
          rw [resolve_of_none hx hlook] at heq
          split at heq
          · have hrest := ih heq
            exact ⟨fun hslot => hrest.1 hslot, hrest.2⟩
          · cases heq
            exact ⟨id, x, hx, hlook⟩

/-- A property that is found is one of the last object. -/
theorem resolve_present (wf : h.WF) {n : ℕ} {r : Resolved P} {slot : Slot}
    (heq : h.resolve key n obj slot = some r) (hdesc : r.desc = some d) :
    ∃ y found outSlot, h.objects[r.holder]? = some y ∧
      h.shapes.lookup y.map.shape key = some found ∧ Stored y.map.storage found d ∧
      r.slot = foundAt outSlot found := by
  induction n generalizing obj slot with
  | zero => cases heq
  | succ n ih =>
      obtain ⟨x, hx, -⟩ := Option.bind_eq_some_iff.mp heq
      cases hlook : h.shapes.lookup x.map.shape key with
      | some found =>
          obtain ⟨d', hres, hstored⟩ := resolve_of_some wf hx hlook n slot
          rw [hres] at heq
          cases heq
          cases hdesc
          exact ⟨x, found, slot, hx, hlook, hstored, rfl⟩
      | none =>
          rw [resolve_of_none hx hlook] at heq
          split at heq
          · exact ih heq
          · cases heq
            cases hdesc

/-- Beyond the immediate prototype nothing is cacheable any more. -/
theorem resolve_notCacheable (wf : h.WF) {n : ℕ} {r : Resolved P} {slot : Slot}
    (heq : h.resolve key n obj slot = some r) (hslot : slot.attributes.notCacheable = true) :
    r.slot.attributes.notCacheable = true := by
  induction n generalizing obj slot with
  | zero => cases heq
  | succ n ih =>
      obtain ⟨x, hx, -⟩ := Option.bind_eq_some_iff.mp heq
      cases hlook : h.shapes.lookup x.map.shape key with
      | some found =>
          obtain ⟨d, hres, -⟩ := resolve_of_some wf hx hlook n slot
          rw [hres] at heq
          cases heq
          exact hslot
      | none =>
          rw [resolve_of_none hx hlook] at heq
          split at heq
          · exact ih heq (by simp [Slot.enterPrototype, hslot])
          · cases heq
            exact hslot

/-- **Where a property may be cached**: `found` is its slot in the object, or else in the
object's immediate prototype. -/
inductive Cacheable (h : ObjectHeap P) (key : PropertyKey) (x : JsObject P) (obj : ℕ) :
    Resolved P → Prop
  | own {found : Slot} {d : PropertyDescriptor (JsValue P)}
      (hlook : h.shapes.lookup x.map.shape key = some found)
      (hstored : Stored x.map.storage found d) :
      Cacheable h key x obj { holder := obj, desc := some d, slot := foundAt .new found }
  | inherited {found : Slot} {d : PropertyDescriptor (JsValue P)} {proto : ℕ} {y : JsObject P}
      (hnone : h.shapes.lookup x.map.shape key = none)
      (hproto : h.shapes.prototype x.map.shape = some proto) (hy : h.objects[proto]? = some y)
      (hlook : h.shapes.lookup y.map.shape key = some found)
      (hstored : Stored y.map.storage found d) :
      Cacheable h key x obj
        { holder := proto, desc := some d, slot := foundAt Slot.new.enterPrototype found }

/-- What is found at all is cacheable only in the object or in its immediate prototype. -/
theorem cacheable_of_lookup (wf : h.WF) (hx : h.objects[obj]? = some x) {r : Resolved P}
    (heq : h.lookup obj key = some r) (hdesc : r.desc.isSome = true) :
    Cacheable h key x obj r ∨
      (r.slot.attributes.notCacheable = true ∧ h.shapes.lookup x.map.shape key = none) := by
  rw [lookup] at heq
  cases hlook : h.shapes.lookup x.map.shape key with
  | some found =>
      obtain ⟨d, hres, hstored⟩ := resolve_of_some wf hx hlook h.objects.length .new
      rw [hres] at heq
      cases heq
      exact .inl (.own hlook hstored)
  | none =>
      rw [resolve_of_none hx hlook] at heq
      split at heq
      · next proto hproto =>
          generalize h.objects.length = n at heq
          cases n with
          | zero => cases heq
          | succ n =>
              obtain ⟨y, hy, -⟩ := Option.bind_eq_some_iff.mp heq
              cases hlook' : h.shapes.lookup y.map.shape key with
              | some found =>
                  obtain ⟨d, hres, hstored⟩ :=
                    resolve_of_some wf hy hlook' n Slot.new.enterPrototype
                  rw [hres] at heq
                  cases heq
                  exact .inl (.inherited hlook hproto hy hlook' hstored)
              | none =>
                  rw [resolve_of_none hy hlook'] at heq
                  split at heq
                  · exact .inr ⟨resolve_notCacheable wf heq rfl, rfl⟩
                  · cases heq
                    cases hdesc
      · cases heq
        cases hdesc

/-- Every property that an object has is found in it. -/
theorem lookup_of_some (wf : h.WF) (hx : h.objects[obj]? = some x) {found : Slot}
    (hlook : h.shapes.lookup x.map.shape key = some found) :
    ∃ d, h.lookup obj key =
        some { holder := obj, desc := some d, slot := foundAt .new found } ∧
      Stored x.map.storage found d :=
  resolve_of_some wf hx hlook _ _

/-- A property that an object lacks and its prototype has is found in the prototype. -/
theorem lookup_of_prototype (wf : h.WF) (hx : h.objects[obj]? = some x)
    (hnone : h.shapes.lookup x.map.shape key = none) {proto : ℕ} {y : JsObject P}
    (hproto : h.shapes.prototype x.map.shape = some proto) (hy : h.objects[proto]? = some y)
    {found : Slot} (hlook : h.shapes.lookup y.map.shape key = some found) :
    ∃ d, h.lookup obj key = some
        { holder := proto, desc := some d, slot := foundAt Slot.new.enterPrototype found } ∧
      Stored y.map.storage found d := by
  obtain ⟨n, hn⟩ : ∃ n, h.objects.length = n + 1 :=
    Nat.exists_eq_add_one.mpr (by have := (List.getElem?_eq_some_iff.mp hx).1; omega)
  obtain ⟨d, hres, hstored⟩ := resolve_of_some wf hy hlook n Slot.new.enterPrototype
  refine ⟨d, ?_, hstored⟩
  rw [lookup, resolve_of_none hx hnone, hproto, hn]
  exact hres

/-! ### Storing values -/

variable [DecidableEq P]

/-- **How `[[Set]]` stores a value**: it gives a property of the receiver its new value, or
creates one. The slot can only be cacheable in the first case. -/
inductive Stores (h : ObjectHeap P) (key : PropertyKey) (value : JsValue P) (r : Resolved P)
    (receiver : ℕ) : PropertyDescriptor (JsValue P) → Slot → Prop
  | value (hdesc : ∃ d, r.desc = some d ∧ d.isDataDescriptor ∧ d.writable = some true)
      (hholder : r.holder = receiver) {slot : Slot}
      (hslot : slot.attributes.inPrototype = r.slot.attributes.inPrototype) :
      Stores h key value r receiver
        { enumerable := none, configurable := none, kind := .data (some value) none } slot
  | elsewhere {desc : PropertyDescriptor (JsValue P)} {slot : Slot} (hdesc : desc.IsRequest)
      (hslot : slot.attributes.notCacheable = true) : Stores h key value r receiver desc slot
  | create {desc : PropertyDescriptor (JsValue P)} {slot : Slot} (hdesc : desc.IsRequest)
      (hslot : slot.attributes.found = false)
      (hlacks : ∃ x, h.objects[receiver]? = some x ∧ h.shapes.lookup x.map.shape key = none) :
      Stores h key value r receiver desc slot

omit [DecidableEq P] in
/-- The definition is one that a program may request. -/
theorem Stores.isRequest {value : JsValue P} {r : Resolved P} {receiver : ℕ}
    (hs : Stores h key value r receiver desc slot) : desc.IsRequest := by
  cases hs with
  | value => exact ⟨fun _ hf => (nomatch hf), fun _ hf => (nomatch hf)⟩
  | elsewhere hdesc => exact hdesc
  | create hdesc => exact hdesc

/-- A successful `[[Set]]` that calls no setter is one property definition on the
receiver. -/
theorem stores_of_ordinarySet (wf : h.WF) {value receiver : JsValue P}
    (heq : h.ordinarySet obj key value receiver = some (.stored h', slot')) :
    ∃ r receiver' desc slot, h.lookup obj key = some r ∧ receiver = .object receiver' ∧
      h.ordinaryDefineOwnProperty receiver' key desc slot = some (true, slot', h') ∧
      Stores h key value r receiver' desc slot ∧
      ∀ d, r.desc = some d → d.isDataDescriptor := by
  obtain ⟨r, hr, hset⟩ := Option.bind_eq_some_iff.mp heq
  -- What `setOnReceiver` defines.
  have hon : ∀ {receiver' : ℕ} {existing : Option (PropertyDescriptor (JsValue P))} {s : Slot},
      h.setOnReceiver receiver' key value existing s = some (.stored h', slot') →
        ∃ desc, h.ordinaryDefineOwnProperty receiver' key desc s = some (true, slot', h') ∧
          desc.IsRequest ∧ (existing.isSome → desc =
            { enumerable := none, configurable := none, kind := .data (some value) none }) := by
    intro receiver' existing s hs
    have hdone : ∀ {q}, setResult q = (SetResult.stored h', slot') → q = (true, slot', h') := by
      rintro ⟨done, s', h''⟩ hq
      cases done <;> cases hq
      rfl
    cases existing with
    | none =>
        obtain ⟨q, hq, hres⟩ := Option.map_eq_some_iff.mp hs
        refine ⟨_, hdone hres ▸ hq, ?_, fun hf => (nomatch hf)⟩
        exact ⟨fun _ hf => (nomatch hf), fun _ hf => (nomatch hf)⟩
    | some existing =>
        simp only [setOnReceiver] at hs
        split at hs
        · cases hs
        · split at hs
          · cases hs
          · obtain ⟨q, hq, hres⟩ := Option.map_eq_some_iff.mp hs
            refine ⟨_, hdone hres ▸ hq, ?_, fun _ => rfl⟩
            exact ⟨fun _ hf => (nomatch hf), fun _ hf => (nomatch hf)⟩
  simp only [setWithOwnDescriptor] at hset
  split at hset
  · next hdata =>
      have hkind : ∀ d, r.desc = some d → d.isDataDescriptor := by
        rintro d hd
        rwa [hd, Option.getD_some] at hdata
      split at hset
      · cases hset
      · next hwritable =>
          split at hset
          · next receiver' =>
              split at hset
              · next hsame =>
                  obtain ⟨hsome, hholder⟩ := Bool.and_eq_true_iff.mp hsame
                  obtain ⟨d, hd⟩ := Option.isSome_iff_exists.mp hsome
                  obtain ⟨desc, hdefine, -, hdesc⟩ := hon hset
                  refine ⟨r, receiver', desc, _, hr, rfl, hdefine, ?_, hkind⟩
                  rw [hdesc rfl]
                  rw [hd, Option.getD_some] at hdata hwritable
                  refine .value ⟨d, hd, hdata, not_not.mp hwritable⟩ (beq_iff_eq.mp hholder) ?_
                  rw [if_pos hsome]
              · next hsame =>
                  obtain ⟨⟨existing, s⟩, hown, hset⟩ := Option.bind_eq_some_iff.mp hset
                  obtain ⟨desc, hdefine, hreq, -⟩ := hon hset
                  refine ⟨r, receiver', desc, s, hr, rfl, hdefine, ?_, hkind⟩
                  obtain ⟨x, hx, hget⟩ := Option.bind_eq_some_iff.mp hown
                  by_cases hholder : r.holder = receiver'
                  · -- The property is not on the chain, whose last object is the receiver.
                    have hnone : r.desc = none := by
                      cases hd : r.desc with
                      | none => rfl
                      | some d => simp [hd, hholder] at hsame
                    obtain ⟨hfound, y, hy, hlook⟩ := resolve_absent wf hr hnone
                    rw [hholder, hx] at hy
                    cases hy
                    rw [getWithSlot_eq_none hlook] at hget
                    cases hget
                    refine .create hreq ?_ ⟨x, hx, hlook⟩
                    simpa [hnone] using hfound rfl
                  · refine .elsewhere hreq ?_
                    have hbit : (r.holder != receiver') = true := by simpa using hholder
                    rw [PropertyMap.getWithSlot] at hget
                    split at hget
                    · obtain ⟨d, -, hd⟩ := Option.map_eq_some_iff.mp hget
                      cases hd
                      simp [hbit]
                    · cases hget
                      exact hbit
          · cases hset
  · split at hset
    · split at hset <;> cases hset
    · cases hset

/-- A setter is called only for an accessor. -/
theorem accessor_of_setter (wf : h.WF) {value receiver set : JsValue P}
    (heq : h.ordinarySet obj key value receiver = some (.setter set, slot')) :
    slot'.attributes.isAccessorDescriptor = true := by
  obtain ⟨r, hr, hset⟩ := Option.bind_eq_some_iff.mp heq
  simp only [setWithOwnDescriptor] at hset
  split at hset
  · -- Storing a value calls no setter.
    have hon : ∀ {receiver' : ℕ} {existing : Option (PropertyDescriptor (JsValue P))} {s : Slot},
        h.setOnReceiver receiver' key value existing s ≠ some (.setter set, slot') := by
      intro receiver' existing s hs
      have hdone : ∀ {q : Bool × Slot × ObjectHeap P}, setResult q ≠ (.setter set, slot') := by
        rintro ⟨done, s', h''⟩ hq
        cases done <;> cases hq
      simp only [setOnReceiver] at hs
      split at hs
      · split at hs
        · cases hs
        · split at hs
          · cases hs
          · obtain ⟨q, -, hres⟩ := Option.map_eq_some_iff.mp hs
            exact hdone hres
      · obtain ⟨q, -, hres⟩ := Option.map_eq_some_iff.mp hs
        exact hdone hres
    split at hset
    · cases hset
    · split at hset
      · split at hset
        · exact absurd hset hon
        · obtain ⟨⟨existing, s⟩, -, hset⟩ := Option.bind_eq_some_iff.mp hset
          exact absurd hset hon
      · cases hset
  · next hdata =>
      cases hd : r.desc with
      | none =>
          rw [hd] at hdata
          exact absurd rfl hdata
      | some d =>
          obtain ⟨y, found, outSlot, -, -, hstored, hslot⟩ := resolve_present wf hr hd
          rw [hd, Option.getD_some] at hdata
          have hslot' : slot' = r.slot := by
            rw [hd] at hset
            split at hset
            · split at hset <;> cases hset
              rfl
            · cases hset
          rw [hslot', hslot]
          cases hstored with
          | data => exact absurd rfl hdata
          | accessor g s hkind => exact hkind

/-- **Setting a writable data property of the receiver** writes its cell. -/
theorem setWithOwnDescriptor_value (wf : h.WF) (hx : h.objects[obj]? = some x) {found : Slot}
    (hlook : h.shapes.lookup x.map.shape key = some found)
    (hkind : found.attributes.isAccessorDescriptor = false)
    (hwritable : found.attributes.writable = true) (old value : JsValue P)
    (enumerable configurable : Bool) (slot : Slot) :
    h.setWithOwnDescriptor key value (.object obj)
        { holder := obj, desc := some (.ofData old true enumerable configurable), slot } =
      some (.stored { h with objects := h.objects.set obj { x with
        map := { x.map with storage := x.map.storage.set found.index value } } },
        foundAt { slot with attributes := { slot.attributes with notCacheable := false } }
          found) := by
  have hdefine := define_value_eq wf hx hlook hkind hwritable value
    { slot with attributes := { slot.attributes with notCacheable := false } }
  have hset : h.setWithOwnDescriptor key value (.object obj)
      { holder := obj, desc := some (.ofData old true enumerable configurable), slot } =
      (h.ordinaryDefineOwnProperty obj key
        { enumerable := none, configurable := none, kind := .data (some value) none }
        { slot with attributes := { slot.attributes with notCacheable := false } }).map
          setResult := by
    simp [setWithOwnDescriptor, setOnReceiver, isDataDescriptor, isAccessorDescriptor, ofData,
      PropertyDescriptor.writable]
  rw [hset, hdefine]
  rfl

end ObjectHeap

end BoaLigero
