import BoaLigero.Object.OrdinaryObject

/-!
# The Essential Invariants of Ordinary Objects

What the requests to ordinary objects may never undo: a property that is not configurable
stays, with its kind, its enumerability and its functions, and with its value once it is
read-only; an object that is not extensible gets no new property. `Essential` states this
for two states, one later than the other.

Between the requests objects are created and set up, get other prototypes, are made not
extensible, and shared shapes are collected.

A deletion or a conversion between data and accessor rebuilds the shared shape of the
object, which may lose changes of attributes of *other* properties (`Shapes.Kept`). In the
runs in which none is lost the invariants hold.

## Main results

* `essential_invariants` — from any state of a run whose deletions and conversions keep the
  other properties, to any later one, the invariants hold, and a rejected request changes
  nothing.
* `not_essential` — in other runs a property may become configurable again.
-/

namespace BoaLigero

variable {P W : Type}

/-- What happens to ordinary objects. -/
inductive OrdinaryLabel (P : Type) where
  /-- A new object, with a shared or a unique shape. -/
  | create (shared : Bool) (prototype : JsPrototype)
  /-- A first property of an object that is being set up. -/
  | setUp (obj : ℕ) (key : OwnKey) (property : PropertyDescriptor (JsValue P))
  | request (request : Request P)
  | preventExtensions (obj : ℕ)
  | setPrototypeOf (obj : ℕ) (prototype : JsPrototype)
  /-- A collection, which may leave any set of shared shapes alive. -/
  | collect (alive : ℕ → Bool)

namespace OrdinaryHeap

variable [DecidableEq P] {r : Representation P W} {h h' : OrdinaryHeap P W} {obj : ℕ}
  {key : OwnKey}

/-- Perform a step, if it is possible. -/
def perform (r : Representation P W) (h : OrdinaryHeap P W) :
    OrdinaryLabel P → Option (OrdinaryHeap P W)
  | .create shared prototype =>
      (h.named.exec (if shared then .newShared prototype else .newUnique prototype)).map
        fun named =>
          { named, indexed := h.indexed ++ [.default], extensible := h.extensible ++ [true] }
  | .setUp obj key property =>
      if h.extensible[obj]? = some true ∧ h.getOwnProperty r obj key = some none ∧
          property.isComplete then h.insert r obj key property
      else none
  | .request request => (h.handle r request).map Prod.snd
  | .preventExtensions obj => some { h with extensible := h.extensible.set obj false }
  | .setPrototypeOf obj prototype =>
      (h.named.exec (.setPrototype obj prototype)).map fun named => { h with named }
  | .collect alive => (h.named.exec (.collect alive)).map fun named => { h with named }

/-- All runs, from no objects on. -/
def system (r : Representation P W) : TransitionSystem (OrdinaryHeap P W) (OrdinaryLabel P) where
  init := fun h => h = ⟨.initial, [], []⟩
  step := fun h l h' => h.perform r l = some h'

/-- The condition on a step: where a configurable property of an object with a shared shape
is deleted, or converted between data and accessor, the transition chain of the shape keeps
the attributes of the other properties. -/
def Keeps (h : OrdinaryHeap P W) : OrdinaryLabel P → Prop
  | .request (.defineOwnProperty obj (.named key) desc) =>
      ∀ x ∈ h.named.objects[obj]?, ∀ current ∈ (x.map.get h.named.shapes key).join,
        current.configurable = some true → desc.isGenericDescriptor = false →
          current.isDataDescriptor ≠ desc.isDataDescriptor →
            h.named.shapes.Kept x.map.shape key
  | .request (.delete obj (.named key)) =>
      ∀ x ∈ h.named.objects[obj]?, ∀ current ∈ (x.map.get h.named.shapes key).join,
        current.configurable = some true → h.named.shapes.Kept x.map.shape key
  | _ => True

/-- **The essential invariants**, between two states. -/
structure Essential (r : Representation P W) (h h' : OrdinaryHeap P W) : Prop where
  property : ∀ (obj : ℕ) key current, h.getOwnProperty r obj key = some (some current) →
    current.configurable = some false →
      ∃ later, h'.getOwnProperty r obj key = some (some later) ∧ current.Retains later
  extensible : ∀ obj : ℕ, h.extensible[obj]? = some false → h'.extensible[obj]? = some false ∧
    ∀ key, h.getOwnProperty r obj key = some none → h'.getOwnProperty r obj key = some none

omit [DecidableEq P] in
theorem Essential.refl (r : Representation P W) (h : OrdinaryHeap P W) : Essential r h h :=
  ⟨fun _ _ current hcurrent hc => ⟨current, hcurrent, .refl hc⟩, fun _ he => ⟨he, fun _ hk => hk⟩⟩

omit [DecidableEq P] in
theorem Essential.trans {h'' : OrdinaryHeap P W} (hfirst : Essential r h h')
    (hthen : Essential r h' h'') : Essential r h h'' := by
  refine ⟨fun obj key current hcurrent hc => ?_, fun obj he => ?_⟩
  · obtain ⟨d, hd, hretains⟩ := hfirst.property obj key current hcurrent hc
    obtain ⟨d', hd', hretains'⟩ := hthen.property obj key d hd hretains.configurable
    exact ⟨d', hd', hretains.trans hretains'⟩
  · obtain ⟨he', hkeys⟩ := hfirst.extensible obj he
    obtain ⟨he'', hkeys'⟩ := hthen.extensible obj he'
    exact ⟨he'', fun key hk => hkeys' key (hkeys key hk)⟩

/-! ### What holds in every run -/

/-- The named properties are those of their finite maps, and every object has indexed
properties, whose descriptors are complete. -/
structure Inv (h : OrdinaryHeap P W) : Prop where
  named : h.named.Inv True
  length_indexed : h.indexed.length = h.named.objects.length
  length_extensible : h.extensible.length = h.named.objects.length
  indexed : ∀ p ∈ h.indexed, p.Bounded ∧ p.Each PropertyDescriptor.IsComplete

omit [DecidableEq P] in
/-- Reading a named property is reading the finite map. -/
theorem Inv.getOwnProperty_named (inv : Inv h) (obj : ℕ) (key : PropertyKey) :
    h.getOwnProperty r obj (.named key) =
      h.named.objects[obj]?.map fun x => x.reference.get? key := by
  rw [getOwnProperty]
  cases hx : h.named.objects[obj]? with
  | none => rfl
  | some x => exact inv.named.get_eq (List.mem_of_getElem? hx) key

omit [DecidableEq P] in
/-- Reading a descriptor back does not depend on the form of its numbers. -/
theorem map_decode_settled (r : Representation P W) {d : PropertyDescriptor (JsVariant W)}
    (hd : d.IsComplete) : d.settled.map r.decode = d.map r.decode := by
  cases hd with
  | data v w e c =>
      rw [PropertyDescriptor.settled_ofData]
      simp [PropertyDescriptor.map, PropertyDescriptor.mapKind, PropertyDescriptor.ofData,
        r.decode_settled]
  | accessor g s e c hsome =>
      cases g <;> cases s <;>
        simp [PropertyDescriptor.map, PropertyDescriptor.mapKind, PropertyDescriptor.ofAccessor,
          PropertyDescriptor.settled, PropertyDescriptor.settledKind, r.decode_settled]

omit [DecidableEq P] in
/-- A descriptor is read back as it was written. -/
theorem map_decode_encode (r : Representation P W) (d : PropertyDescriptor (JsValue P)) :
    (d.map r.encode).map r.decode = d := by
  obtain ⟨e, c, kind⟩ := d
  cases kind with
  | data v w => cases v <;> simp [PropertyDescriptor.map, PropertyDescriptor.mapKind, r.decode_encode]
  | accessor g s =>
      cases g <;> cases s <;>
        simp [PropertyDescriptor.map, PropertyDescriptor.mapKind, r.decode_encode]
  | generic => rfl

omit [DecidableEq P] in
theorem isComplete_simple (v : JsVariant W) : (IndexedProperties.simple v).IsComplete := .data ..

omit [DecidableEq P] in
theorem isComplete_readonly (v : JsVariant W) : (IndexedProperties.readonly v).IsComplete :=
  .data ..

omit [DecidableEq P] in
/-- Reading an indexed property is reading the view. -/
theorem Inv.getOwnProperty_index (inv : Inv h) (obj : ℕ) (key : NonMaxU32) :
    h.getOwnProperty r obj (.index key) =
      h.indexed[obj]?.map fun p => (p.view key.val).map (.map r.decode) := by
  rw [getOwnProperty]
  cases hp : h.indexed[obj]? with
  | none => rfl
  | some p =>
      have heach := (inv.indexed p (List.mem_of_getElem? hp)).2
      simp only [Option.map_some, IndexedProperties.view]
      cases hd : p.get key.val with
      | none => rfl
      | some d =>
          have hcomplete := heach.of_get isComplete_simple isComplete_readonly hd
          simp [map_decode_settled r hcomplete]

omit [DecidableEq P] in
/-- What is read from an object is complete. -/
theorem Inv.isComplete (inv : Inv h) {current : PropertyDescriptor (JsValue P)}
    (hcurrent : h.getOwnProperty r obj key = some (some current)) : current.IsComplete := by
  cases key with
  | named key =>
      obtain ⟨x, -, hget⟩ := Option.bind_eq_some_iff.mp hcurrent
      rw [PropertyMap.get] at hget
      split at hget
      · obtain ⟨d, hd, heq⟩ := Option.map_eq_some_iff.mp hget
        exact Option.some.inj heq ▸ (PropertyMap.isComplete_of_getStorage hd).1
      · cases hget
  | index key =>
      obtain ⟨p, hp, hmap⟩ := Option.map_eq_some_iff.mp hcurrent
      obtain ⟨d, hd, rfl⟩ := Option.map_eq_some_iff.mp hmap
      have heach := (inv.indexed p (List.mem_of_getElem? hp)).2
      exact (heach.of_get isComplete_simple isComplete_readonly hd).map r.decode

/-! ### Edits -/

/-- What an edit does: a property of one object changes. -/
structure Edits (r : Representation P W) (h h' : OrdinaryHeap P W) (obj : ℕ) (key : OwnKey)
    (property : Option (PropertyDescriptor (JsValue P))) : Prop where
  extensible : h'.extensible = h.extensible
  own : ∀ (obj' : ℕ) key', h'.getOwnProperty r obj' key' =
    if obj' = obj ∧ key' = key then some property else h.getOwnProperty r obj' key'

omit [DecidableEq P] in
/-- An edit of the map of one object. -/
theorem Inv.edits_named (inv : Inv h) {named : MapWorld (JsValue P)} (inv' : named.Inv True)
    {x : MapObject (JsValue P)} (hx : h.named.objects[obj]? = some x) {x' : MapObject (JsValue P)}
    (hobjects : named.objects = h.named.objects.set obj x') {key : PropertyKey}
    {property : Option (PropertyDescriptor (JsValue P))}
    (hget : ∀ k, x'.reference.get? k = if k = key then property else x.reference.get? k) :
    Inv { h with named } ∧ Edits r h { h with named } obj (.named key) property := by
  have hlt := (List.getElem?_eq_some_iff.mp hx).1
  have inv'' : Inv { h with named } := by
    refine ⟨inv', ?_, ?_, inv.indexed⟩
    · rw [inv.length_indexed, hobjects, List.length_set]
    · rw [inv.length_extensible, hobjects, List.length_set]
  refine ⟨inv'', rfl, fun obj' key' => ?_⟩
  cases key' with
  | named k =>
      rw [inv''.getOwnProperty_named, inv.getOwnProperty_named, hobjects]
      by_cases hobj : obj' = obj
      · subst hobj
        rw [List.getElem?_set_self hlt, hx, Option.map_some, Option.map_some, hget]
        by_cases hk : k = key
        · simp [hk]
        · simp [hk]
      · rw [List.getElem?_set_ne (Ne.symm hobj), if_neg fun hboth => hobj hboth.1]
  | index k => rw [if_neg fun hboth => OwnKey.noConfusion hboth.2]; rfl

omit [DecidableEq P] in
/-- An edit of the indexed properties of one object. -/
theorem Inv.edits_index (inv : Inv h) {p p' : IndexedProperties W}
    (hp : h.indexed[obj]? = some p)
    (hbounded : p'.Bounded) (heach : p'.Each PropertyDescriptor.IsComplete) {key : NonMaxU32}
    {property : Option (PropertyDescriptor (JsValue P))}
    (hview : ∀ k, (p'.view k).map (.map r.decode) =
      if k = key.val then property else (p.view k).map (.map r.decode)) :
    Inv { h with indexed := h.indexed.set obj p' } ∧
      Edits r h { h with indexed := h.indexed.set obj p' } obj (.index key) property := by
  have hlt := (List.getElem?_eq_some_iff.mp hp).1
  have inv' : Inv { h with indexed := h.indexed.set obj p' } := by
    refine ⟨inv.named, ?_, inv.length_extensible, fun q hq => ?_⟩
    · rw [List.length_set, inv.length_indexed]
    · rcases List.mem_or_eq_of_mem_set hq with hq | rfl
      · exact inv.indexed q hq
      · exact ⟨hbounded, heach⟩
  refine ⟨inv', rfl, fun obj' key' => ?_⟩
  cases key' with
  | named k => rw [if_neg fun hboth => OwnKey.noConfusion hboth.2]; rfl
  | index k =>
      rw [inv'.getOwnProperty_index, inv.getOwnProperty_index]
      by_cases hobj : obj' = obj
      · subst hobj
        dsimp only
        rw [List.getElem?_set_self hlt, hp, Option.map_some, Option.map_some, hview]
        obtain ⟨k, hk⟩ := k
        obtain ⟨key, hkey⟩ := key
        by_cases heq : k = key
        · simp [heq]
        · simp [heq]
      · rw [List.getElem?_set_ne (Ne.symm hobj), if_neg fun hboth => hobj hboth.1]

omit [DecidableEq P] in
/-- **Insertion** stores the property. -/
theorem Inv.inserted (inv : Inv h) {property : PropertyDescriptor (JsValue P)}
    (hproperty : property.IsComplete)
    (hkeep : ∀ k, key = .named k → h.named.StepPreserves (.insert obj k property))
    (heq : h.insert r obj key property = some h') :
    Inv h' ∧ Edits r h h' obj key (some property) := by
  cases key with
  | named key =>
      obtain ⟨named, hexec, rfl⟩ := Option.map_eq_some_iff.mp heq
      have inv' := inv.named.step (fun _ => hkeep key rfl) (MapWorld.step_exec hexec)
      rw [MapWorld.exec, if_pos hproperty.isComplete_eq_true] at hexec
      obtain ⟨x, hx, hinsert⟩ := Option.bind_eq_some_iff.mp hexec
      obtain ⟨⟨found, map, H'⟩, -, rfl⟩ := Option.map_eq_some_iff.mp hinsert
      exact inv.edits_named inv' hx rfl fun k => OrderedMap.get?_insert ..
  | index key =>
      obtain ⟨p, hp, rfl⟩ := Option.map_eq_some_iff.mp heq
      obtain ⟨hbounded, heach⟩ := inv.indexed p (List.mem_of_getElem? hp)
      have hcomplete := hproperty.map r.encode
      have h : IndexedProperties.Inserts p key.val (property.map r.encode)
          (p.insert key.val (property.map r.encode)) :=
        IndexedProperties.inserts_insert hbounded key.ne_max
      refine inv.edits_index hp h.bounded
        (heach.insert isComplete_simple isComplete_readonly hbounded hcomplete) fun k => ?_
      rw [h.view]
      split
      · rw [Option.map_some, map_decode_settled r hcomplete, map_decode_encode]
      · rfl

omit [DecidableEq P] in
/-- **Removal** takes the property away. -/
theorem Inv.removed (inv : Inv h)
    (hkeep : ∀ k, key = .named k → h.named.StepPreserves (.remove obj k))
    (heq : h.remove obj key = some h') : Inv h' ∧ Edits r h h' obj key none := by
  cases key with
  | named key =>
      obtain ⟨named, hexec, rfl⟩ := Option.map_eq_some_iff.mp heq
      have inv' := inv.named.step (fun _ => hkeep key rfl) (MapWorld.step_exec hexec)
      obtain ⟨x, hx, hremove⟩ := Option.bind_eq_some_iff.mp hexec
      obtain ⟨⟨found, map, H'⟩, -, rfl⟩ := Option.map_eq_some_iff.mp hremove
      exact inv.edits_named inv' hx rfl fun k => OrderedMap.get?_erase ..
  | index key =>
      obtain ⟨p, hp, rfl⟩ := Option.map_eq_some_iff.mp heq
      obtain ⟨hbounded, heach⟩ := inv.indexed p (List.mem_of_getElem? hp)
      have h := IndexedProperties.removes_remove hbounded key.ne_max
      refine inv.edits_index hp h.bounded (heach.remove isComplete_readonly hbounded) fun k => ?_
      rw [h.view]
      split <;> rfl

omit [DecidableEq P] in
/-- An edit that the property and the object allow keeps the essential invariants. -/
theorem Edits.essential {property : Option (PropertyDescriptor (JsValue P))}
    (hedits : Edits r h h' obj key property)
    (hretains : ∀ current, h.getOwnProperty r obj key = some (some current) →
      current.configurable = some false → ∃ later, property = some later ∧ current.Retains later)
    (hextensible : h.getOwnProperty r obj key = some none → property.isSome →
      h.extensible[obj]? = some true) : Essential r h h' := by
  refine ⟨fun obj' key' current hcurrent hc => ?_, fun obj' he => ?_⟩
  · rw [hedits.own]
    split
    · next hboth =>
        obtain ⟨rfl, rfl⟩ := hboth
        obtain ⟨later, rfl, hlater⟩ := hretains current hcurrent hc
        exact ⟨later, rfl, hlater⟩
    · exact ⟨current, hcurrent, .refl hc⟩
  · refine ⟨hedits.extensible ▸ he, fun key' hk => ?_⟩
    rw [hedits.own]
    split
    · next hboth =>
        obtain ⟨rfl, rfl⟩ := hboth
        cases property with
        | none => rfl
        | some property => cases (hextensible hk rfl).symm.trans he
    · exact hk

/-! ### Requests -/

/-- A conversion happens to a configurable property whose kind the request changes. -/
theorem converts_of_fill {desc current d : PropertyDescriptor (JsValue P)}
    (heq : Verdict.of desc current = .fill d)
    (hne : d.isDataDescriptor ≠ current.isDataDescriptor) :
    current.configurable ≠ some false ∧ desc.isGenericDescriptor = false ∧
      current.isDataDescriptor ≠ desc.isDataDescriptor := by
  obtain ⟨rfl, -⟩ | ⟨hgeneric, hkind, hc, -⟩ := Verdict.of_eq_fill heq
  · exact absurd rfl hne
  · exact ⟨hc, hgeneric, hkind⟩

/-- Storing what a definition asks for keeps the other properties, if the definition does. -/
theorem Inv.stepPreserves_insert (inv : Inv h) {key : PropertyKey}
    {desc property : PropertyDescriptor (JsValue P)} (hproperty : property.IsComplete)
    (hkeep : h.Keeps (.request (.defineOwnProperty obj (.named key) desc)))
    (hfill : ∀ current, h.getOwnProperty r obj (.named key) = some (some current) →
      ∃ d, Verdict.of desc current = .fill d ∧ d.fillWith desc = some property) :
    h.named.StepPreserves (.insert obj key property) := by
  intro x hx a ha b hb
  obtain ⟨rows, hstores, -⟩ := inv.named.stores x (List.mem_of_getElem? hx)
  obtain ⟨block, current, -, hget, hcurrent⟩ := hstores.holds.get_eq inv.named.owned.wf hb
  obtain ⟨hcomplete, hkind⟩ := PropertyMap.isComplete_of_getStorage hget
  have hown : h.getOwnProperty r obj (.named key) = some (some current) := by
    rw [getOwnProperty, hx, Option.bind_some, hcurrent]
  obtain ⟨d, hof, hfill⟩ := hfill current hown
  have hsame := PropertyDescriptor.isDataDescriptor_fillWith hfill
  have hslot := PropertyMap.isAccessorDescriptor_toSlotAttributes hproperty ha
  by_cases hconvert : d.isDataDescriptor = current.isDataDescriptor
  · left
    rw [SlotAttributes.widthMatch_iff, hslot, hsame, hconvert, hkind, Bool.not_not]
  · right
    obtain ⟨hconfigurable, hgeneric, hdata⟩ := converts_of_fill hof hconvert
    refine hkeep x hx current (by rw [hcurrent]; rfl) ?_ hgeneric hdata
    cases hcomplete with
    | data v w e c => cases c <;> simp_all [PropertyDescriptor.ofData]
    | accessor g s e c hsome => cases c <;> simp_all [PropertyDescriptor.ofAccessor]

/-- **Defining a property** keeps the essential invariants; if it is rejected nothing
changes. -/
theorem Inv.define (inv : Inv h) {desc : PropertyDescriptor (JsValue P)} {done : Bool}
    (hkeep : h.Keeps (.request (.defineOwnProperty obj key desc)))
    (heq : h.ordinaryDefineOwnProperty r obj key desc = some (done, h')) :
    Inv h' ∧ Essential r h h' := by
  obtain ⟨current, hcurrent, heq⟩ := Option.bind_eq_some_iff.mp heq
  obtain ⟨extensible, hextensible, heq⟩ := Option.bind_eq_some_iff.mp heq
  cases current with
  | none =>
      rw [validateAndApplyPropertyDescriptor] at heq
      split at heq
      · next hyes =>
          obtain ⟨h₁, hinsert, heq⟩ := Option.map_eq_some_iff.mp heq
          obtain rfl : h₁ = h' := (Prod.mk.inj heq).2
          have hproperty : (if desc.isGenericDescriptor || desc.isDataDescriptor then
              desc.intoDataDefaulted else desc.intoAccessorDefaulted).IsComplete := by
            split
            · exact .data ..
            · exact .accessor _ _ _ _ rfl
          obtain ⟨inv', hedits⟩ := inv.inserted hproperty (fun k hk => by
            subst hk
            refine inv.stepPreserves_insert (r := r) hproperty hkeep fun current hsome => ?_
            cases hcurrent.symm.trans hsome) hinsert
          refine ⟨inv', hedits.essential (fun current hsome => ?_) fun _ _ => ?_⟩
          · cases hcurrent.symm.trans hsome
          · rw [hextensible, hyes]
      · obtain rfl := (Prod.mk.inj (Option.some.inj heq)).2
        exact ⟨inv, .refl r h⟩
  | some current =>
      rw [validateAndApplyPropertyDescriptor] at heq
      split_ifs at heq
      · obtain rfl := (Prod.mk.inj (Option.some.inj heq)).2
        exact ⟨inv, .refl r h⟩
      · cases hof : Verdict.of desc current with
        | reject | accept =>
            rw [hof] at heq
            obtain rfl := (Prod.mk.inj (Option.some.inj heq)).2
            exact ⟨inv, .refl r h⟩
        | fill d =>
            rw [hof] at heq
            obtain ⟨property, hfill, heq⟩ := Option.bind_eq_some_iff.mp heq
            obtain ⟨h₁, hinsert, heq⟩ := Option.map_eq_some_iff.mp heq
            obtain rfl : h₁ = h' := (Prod.mk.inj heq).2
            have hproperty := (Verdict.isComplete_of_fill (inv.isComplete hcurrent) hof).fillWith
              hfill
            have hsame : ∀ c, h.getOwnProperty r obj key = some (some c) → c = current :=
              fun c hc => Option.some.inj (Option.some.inj (hc.symm.trans hcurrent))
            obtain ⟨inv', hedits⟩ := inv.inserted hproperty (fun k hk => by
              subst hk
              refine inv.stepPreserves_insert (r := r) hproperty hkeep fun c hc => ?_
              obtain rfl := hsame c hc
              exact ⟨d, hof, hfill⟩) hinsert
            refine ⟨inv', hedits.essential (fun c hc hfixed => ?_) fun hnone => ?_⟩
            · obtain rfl := hsame c hc
              exact ⟨property, rfl, Verdict.retains_of_fill hfixed hof hfill⟩
            · cases hcurrent.symm.trans hnone

omit [DecidableEq P] in
/-- **Deleting a property** keeps the essential invariants. -/
theorem Inv.delete (inv : Inv h) {done : Bool} (hkeep : h.Keeps (.request (.delete obj key)))
    (heq : h.ordinaryDelete r obj key = some (done, h')) : Inv h' ∧ Essential r h h' := by
  obtain ⟨current, hcurrent, heq⟩ := Option.bind_eq_some_iff.mp heq
  cases current with
  | none =>
      obtain rfl := (Prod.mk.inj (Option.some.inj heq)).2
      exact ⟨inv, .refl r h⟩
  | some current =>
      dsimp only at heq
      split at heq
      · next hconfigurable =>
          obtain ⟨h₁, hremove, heq⟩ := Option.map_eq_some_iff.mp heq
          obtain rfl : h₁ = h' := (Prod.mk.inj heq).2
          obtain ⟨inv', hedits⟩ := inv.removed (fun k hk => by
            subst hk
            intro x hx _
            refine hkeep x hx current ?_ hconfigurable
            rw [getOwnProperty, hx] at hcurrent
            rw [show x.map.get h.named.shapes k = some (some current) from hcurrent]
            rfl) hremove
          refine ⟨inv', hedits.essential (fun c hc hfixed => ?_) fun _ hsome => nomatch hsome⟩
          obtain rfl := Option.some.inj (Option.some.inj (hc.symm.trans hcurrent))
          cases hconfigurable.symm.trans hfixed
      · obtain rfl := (Prod.mk.inj (Option.some.inj heq)).2
        exact ⟨inv, .refl r h⟩

omit [DecidableEq P] in
/-- The climb ends at a property of its holder, or at none. -/
theorem getOwnProperty_of_findProperty {fuel holder : ℕ}
    {found : Option (PropertyDescriptor (JsValue P))}
    (heq : h.findProperty r key fuel obj = some (holder, found)) :
    h.getOwnProperty r holder key = some found := by
  induction fuel generalizing obj with
  | zero => cases heq
  | succ fuel ih =>
      obtain ⟨current, hcurrent, heq⟩ := Option.bind_eq_some_iff.mp heq
      cases current with
      | some desc =>
          obtain ⟨rfl, rfl⟩ := Prod.mk.inj (Option.some.inj heq)
          exact hcurrent
      | none =>
          obtain ⟨prototype, -, heq⟩ := Option.bind_eq_some_iff.mp heq
          cases prototype with
          | some parent => exact ih heq
          | none =>
              obtain ⟨rfl, rfl⟩ := Prod.mk.inj (Option.some.inj heq)
              exact hcurrent

/-- **Storing a value in the receiver** keeps the essential invariants: it is no
conversion. -/
theorem Inv.setOnReceiver (inv : Inv h) {receiver : ℕ} {value : JsValue P}
    {existing : Option (PropertyDescriptor (JsValue P))} {done : Bool}
    (hexisting : h.getOwnProperty r receiver key = some existing)
    (heq : h.setOnReceiver r receiver key value existing = some (done, h')) :
    Inv h' ∧ Essential r h h' := by
  -- The request has the kind of the property that is there.
  have hkeep : ∀ desc : PropertyDescriptor (JsValue P), desc.isDataDescriptor = true →
      (∀ c, existing = some c → c.isAccessorDescriptor = false) →
      h.Keeps (.request (.defineOwnProperty receiver key desc)) := by
    intro desc hdata hkind
    cases key with
    | index key => trivial
    | named key =>
        intro x hx current hcurrent _ _ hne
        have hget : h.getOwnProperty r receiver (.named key) = some (some current) := by
          rw [getOwnProperty, hx, Option.bind_some]
          exact Option.join_eq_some_iff.mp hcurrent
        have hacc := hkind current (Option.some.inj (hexisting.symm.trans hget))
        rw [hdata] at hne
        cases inv.isComplete hget with
        | data v w e c => exact absurd rfl hne
        | accessor g s e c hsome => cases hacc
  cases existing with
  | none => exact inv.define (hkeep _ rfl fun c hc => nomatch hc) heq
  | some current =>
      rw [OrdinaryHeap.setOnReceiver] at heq
      split_ifs at heq with haccessor hwritable
      · obtain rfl := (Prod.mk.inj (Option.some.inj heq)).2
        exact ⟨inv, .refl r h⟩
      · obtain rfl := (Prod.mk.inj (Option.some.inj heq)).2
        exact ⟨inv, .refl r h⟩
      · refine inv.define (hkeep _ rfl fun c hc => ?_) heq
        obtain rfl := Option.some.inj hc
        exact Bool.eq_false_iff.mpr haccessor

/-- **`[[Set]]`** keeps the essential invariants. -/
theorem Inv.set (inv : Inv h) {value receiver : JsValue P} {answer : Answer P}
    (heq : h.ordinarySet r obj key value receiver = some (answer, h')) :
    Inv h' ∧ Essential r h h' := by
  obtain ⟨⟨holder, found⟩, hfound, heq⟩ := Option.bind_eq_some_iff.mp heq
  have hown := getOwnProperty_of_findProperty hfound
  have hsame : ∀ {a : Answer P}, some (a, h) = some (answer, h') → Inv h' ∧ Essential r h h' := by
    intro a ha
    obtain rfl := (Prod.mk.inj (Option.some.inj ha)).2
    exact ⟨inv, .refl r h⟩
  simp only [setWithOwnDescriptor] at heq
  split at heq
  · split at heq
    · exact hsame heq
    · split at heq
      · next receiver =>
          obtain ⟨⟨done, h₁⟩, hset, heq⟩ := Option.map_eq_some_iff.mp heq
          obtain rfl : h₁ = h' := (Prod.mk.inj heq).2
          obtain ⟨existing, hexisting, hset⟩ := Option.bind_eq_some_iff.mp hset
          refine inv.setOnReceiver ?_ hset
          split at hexisting
          · next hboth =>
              simp only [Bool.and_eq_true, beq_iff_eq] at hboth
              obtain ⟨hsome, rfl⟩ := hboth
              obtain ⟨desc, rfl⟩ := Option.isSome_iff_exists.mp hsome
              rw [hown]
              exact hexisting
          · exact hexisting
      · exact hsame heq
  · split at heq
    · split at heq
      · exact hsame heq
      · exact hsame heq
    · exact hsame heq

/-- **Requests keep the essential invariants.** -/
theorem Inv.handle (inv : Inv h) {request : Request P} {answer : Answer P}
    (hkeep : h.Keeps (.request request)) (heq : h.handle r request = some (answer, h')) :
    Inv h' ∧ Essential r h h' := by
  cases request with
  | defineOwnProperty obj key desc =>
      obtain ⟨⟨done, h₁⟩, hdefine, heq⟩ := Option.map_eq_some_iff.mp heq
      obtain rfl : h₁ = h' := (Prod.mk.inj heq).2
      exact inv.define hkeep hdefine
  | set obj key value receiver => exact inv.set heq
  | delete obj key =>
      obtain ⟨⟨done, h₁⟩, hdelete, heq⟩ := Option.map_eq_some_iff.mp heq
      obtain rfl : h₁ = h' := (Prod.mk.inj heq).2
      exact inv.delete hkeep hdelete

/-! ### Rejected requests -/

/-- A definition that is rejected changes nothing. -/
theorem define_rejected {desc : PropertyDescriptor (JsValue P)}
    (heq : h.ordinaryDefineOwnProperty r obj key desc = some (false, h')) : h' = h := by
  obtain ⟨current, -, heq⟩ := Option.bind_eq_some_iff.mp heq
  obtain ⟨extensible, -, heq⟩ := Option.bind_eq_some_iff.mp heq
  cases current with
  | none =>
      rw [validateAndApplyPropertyDescriptor] at heq
      split at heq
      · obtain ⟨h₁, -, heq⟩ := Option.map_eq_some_iff.mp heq
        cases heq
      · exact (Prod.mk.inj (Option.some.inj heq)).2.symm
  | some current =>
      rw [validateAndApplyPropertyDescriptor] at heq
      split_ifs at heq
      · cases heq
      · cases hof : Verdict.of desc current with
        | reject =>
            rw [hof] at heq
            exact (Prod.mk.inj (Option.some.inj heq)).2.symm
        | accept =>
            rw [hof] at heq
            cases heq
        | fill d =>
            rw [hof] at heq
            obtain ⟨property, -, heq⟩ := Option.bind_eq_some_iff.mp heq
            obtain ⟨h₁, -, heq⟩ := Option.map_eq_some_iff.mp heq
            cases heq

theorem setOnReceiver_rejected {receiver : ℕ} {value : JsValue P}
    {existing : Option (PropertyDescriptor (JsValue P))}
    (heq : h.setOnReceiver r receiver key value existing = some (false, h')) : h' = h := by
  cases existing with
  | none => exact define_rejected heq
  | some current =>
      rw [OrdinaryHeap.setOnReceiver] at heq
      split_ifs at heq
      · exact (Prod.mk.inj (Option.some.inj heq)).2.symm
      · exact (Prod.mk.inj (Option.some.inj heq)).2.symm
      · exact define_rejected heq

omit [DecidableEq P] in
/-- The answer to a request that was handled. -/
theorem Answer.ofBool_eq_rejected {done : Bool} (heq : (.ofBool done : Answer P) = .rejected) :
    done = false := by
  cases done with
  | false => rfl
  | true => cases heq

/-- **A rejected request changes nothing.** -/
theorem handle_rejected {request : Request P}
    (heq : h.handle r request = some (.rejected, h')) : h' = h := by
  cases request with
  | defineOwnProperty obj key desc =>
      obtain ⟨⟨done, h₁⟩, hdefine, heq⟩ := Option.map_eq_some_iff.mp heq
      obtain ⟨hdone, rfl⟩ := Prod.mk.inj heq
      obtain rfl := Answer.ofBool_eq_rejected hdone
      exact define_rejected hdefine
  | set obj key value receiver =>
      obtain ⟨⟨holder, found⟩, -, heq⟩ := Option.bind_eq_some_iff.mp heq
      simp only [setWithOwnDescriptor] at heq
      split at heq
      · split at heq
        · exact (Prod.mk.inj (Option.some.inj heq)).2.symm
        · split at heq
          · obtain ⟨⟨done, h₁⟩, hset, heq⟩ := Option.map_eq_some_iff.mp heq
            obtain ⟨hdone, rfl⟩ := Prod.mk.inj heq
            obtain rfl := Answer.ofBool_eq_rejected hdone
            obtain ⟨existing, -, hset⟩ := Option.bind_eq_some_iff.mp hset
            exact setOnReceiver_rejected hset
          · exact (Prod.mk.inj (Option.some.inj heq)).2.symm
      · split at heq
        · split at heq
          · exact (Prod.mk.inj (Option.some.inj heq)).2.symm
          · cases heq
        · exact (Prod.mk.inj (Option.some.inj heq)).2.symm
  | delete obj key =>
      obtain ⟨⟨done, h₁⟩, hdelete, heq⟩ := Option.map_eq_some_iff.mp heq
      obtain ⟨hdone, rfl⟩ := Prod.mk.inj heq
      obtain rfl := Answer.ofBool_eq_rejected hdone
      obtain ⟨current, -, hdelete⟩ := Option.bind_eq_some_iff.mp hdelete
      cases current with
      | none => cases hdelete
      | some current =>
          dsimp only at hdelete
          split at hdelete
          · obtain ⟨h₁, -, heq⟩ := Option.map_eq_some_iff.mp hdelete
            cases heq
          · exact (Prod.mk.inj (Option.some.inj hdelete)).2.symm

/-! ### Steps -/

omit [DecidableEq P] in
/-- A step after which every object has the properties it had keeps the essential
invariants. -/
theorem Essential.of_same
    (hown : ∀ (obj : ℕ) key property, h.getOwnProperty r obj key = some property →
      h'.getOwnProperty r obj key = some property)
    (hextensible : ∀ obj : ℕ, h.extensible[obj]? = some false → h'.extensible[obj]? = some false) :
    Essential r h h' :=
  ⟨fun obj key current hcurrent hc => ⟨current, hown obj key _ hcurrent, .refl hc⟩,
    fun obj he => ⟨hextensible obj he, fun key hk => hown obj key _ hk⟩⟩

omit [DecidableEq P] in
/-- A step that leaves the contents of the named properties alone. -/
theorem Inv.same_named (inv : Inv h) {named : MapWorld (JsValue P)} (inv' : named.Inv True)
    (href : named.objects.map MapObject.reference = h.named.objects.map MapObject.reference) :
    Inv { h with named } ∧ Essential r h { h with named } := by
  have hlength : named.objects.length = h.named.objects.length := by
    simpa using congrArg List.length href
  have inv'' : Inv { h with named } :=
    ⟨inv', inv.length_indexed.trans hlength.symm, inv.length_extensible.trans hlength.symm,
      inv.indexed⟩
  refine ⟨inv'', .of_same (fun obj key property hp => ?_) fun _ he => he⟩
  cases key with
  | named key =>
      rw [inv.getOwnProperty_named] at hp
      rw [inv''.getOwnProperty_named]
      have hobj := congrArg (fun l : List (OrderedMap _ _) => l[obj]?) href
      simp only [List.getElem?_map] at hobj
      have hget := congrArg (Option.map fun m : OrderedMap _ _ => m.get? key) hobj
      simp only [Option.map_map] at hget
      exact hget.trans hp
  | index key => exact hp

omit [DecidableEq P] in
/-- A new object has no properties. -/
theorem Inv.created (inv : Inv h) {named : MapWorld (JsValue P)} (inv' : named.Inv True)
    {x : MapObject (JsValue P)} (hobjects : named.objects = h.named.objects ++ [x]) :
    let h' : OrdinaryHeap P W :=
      { named, indexed := h.indexed ++ [.default], extensible := h.extensible ++ [true] }
    Inv h' ∧ Essential r h h' := by
  intro h'
  have inv'' : Inv h' := by
    refine ⟨inv', ?_, ?_, fun p hp => ?_⟩
    · simp [h', hobjects, inv.length_indexed]
    · simp [h', hobjects, inv.length_extensible]
    · rcases List.mem_append.mp hp with hp | hp
      · exact inv.indexed p hp
      · obtain rfl := List.mem_singleton.mp hp
        exact ⟨Nat.zero_lt_succ _, trivial⟩
  refine ⟨inv'', .of_same (fun obj key property hp => ?_) fun obj he => ?_⟩
  · cases key with
    | named key =>
        rw [inv.getOwnProperty_named] at hp
        rw [inv''.getOwnProperty_named]
        obtain ⟨y, hy, rfl⟩ := Option.map_eq_some_iff.mp hp
        rw [show h'.named.objects = h.named.objects ++ [x] from hobjects,
          List.getElem?_append_left (List.getElem?_eq_some_iff.mp hy).1, hy]
        rfl
    | index key =>
        obtain ⟨p, hindexed, rfl⟩ := Option.map_eq_some_iff.mp hp
        have hlt := (List.getElem?_eq_some_iff.mp hindexed).1
        rw [getOwnProperty, List.getElem?_append_left hlt, hindexed]
        rfl
  · rw [List.getElem?_append_left (List.getElem?_eq_some_iff.mp he).1]
    exact he

omit [DecidableEq P] in
/-- Nothing is converted where there is no property. -/
theorem keeps_of_absent (hnone : h.getOwnProperty r obj key = some none)
    (desc : PropertyDescriptor (JsValue P)) :
    h.Keeps (.request (.defineOwnProperty obj key desc)) := by
  cases key with
  | index key => trivial
  | named key =>
      intro x hx current hcurrent
      rw [getOwnProperty, hx] at hnone
      rw [show x.map.get h.named.shapes key = some none from hnone] at hcurrent
      cases hcurrent

/-- **A step keeps the invariant and the essential invariants.** -/
theorem Inv.perform (inv : Inv h) {l : OrdinaryLabel P} (hkeep : h.Keeps l)
    (heq : h.perform r l = some h') : Inv h' ∧ Essential r h h' := by
  cases l with
  | create shared prototype =>
      obtain ⟨named, hexec, rfl⟩ := Option.map_eq_some_iff.mp heq
      cases shared with
      | true =>
          have inv' := inv.named.step (l := .newShared prototype) (fun _ => trivial) (MapWorld.step_exec hexec)
          obtain rfl := Option.some.inj hexec
          exact inv.created inv' rfl
      | false =>
          have inv' := inv.named.step (l := .newUnique prototype) (fun _ => trivial) (MapWorld.step_exec hexec)
          obtain rfl := Option.some.inj hexec
          exact inv.created inv' rfl
  | setUp obj key property =>
      rw [OrdinaryHeap.perform] at heq
      split at heq
      · next hnew =>
          obtain ⟨hextensible, hnone, hcomplete⟩ := hnew
          have hproperty := PropertyDescriptor.IsComplete.of_isComplete hcomplete
          obtain ⟨inv', hedits⟩ := inv.inserted hproperty (fun k hk => by
            subst hk
            refine inv.stepPreserves_insert (r := r) hproperty (keeps_of_absent hnone property)
              fun current hsome => ?_
            cases hnone.symm.trans hsome) heq
          refine ⟨inv', hedits.essential (fun current hsome => ?_) fun _ _ => hextensible⟩
          cases hnone.symm.trans hsome
      · cases heq
  | request request =>
      obtain ⟨⟨answer, h₁⟩, hhandle, rfl⟩ := Option.map_eq_some_iff.mp heq
      exact inv.handle hkeep hhandle
  | preventExtensions obj =>
      obtain rfl := Option.some.inj heq
      refine ⟨⟨inv.named, inv.length_indexed, ?_, inv.indexed⟩,
        .of_same (fun obj key property hp => ?_) fun obj' he => ?_⟩
      · rw [List.length_set, inv.length_extensible]
      · cases key <;> exact hp
      · dsimp only
        by_cases hobj : obj = obj'
        · subst hobj
          rw [List.getElem?_set_self (List.getElem?_eq_some_iff.mp he).1]
        · rw [List.getElem?_set_ne hobj, he]
  | setPrototypeOf obj prototype =>
      obtain ⟨named, hexec, rfl⟩ := Option.map_eq_some_iff.mp heq
      have inv' := inv.named.step (l := .setPrototype obj prototype) (fun _ => trivial)
        (MapWorld.step_exec hexec)
      obtain ⟨x, hx, rfl⟩ := Option.map_eq_some_iff.mp hexec
      obtain ⟨hlt, rfl⟩ := List.getElem?_eq_some_iff.mp hx
      refine inv.same_named inv' ?_
      rw [List.map_set]
      refine List.ext_getElem? fun i => ?_
      rw [List.getElem?_set]
      split
      · next hi =>
          subst hi
          simp [hlt]
      · rfl
  | collect alive =>
      rw [OrdinaryHeap.perform] at heq
      obtain ⟨named, hexec, rfl⟩ := Option.map_eq_some_iff.mp heq
      have inv' := inv.named.step (l := .collect alive) (fun _ => trivial)
        (MapWorld.step_exec hexec)
      obtain rfl := Option.some.inj hexec
      exact inv.same_named inv' rfl

omit [DecidableEq P] in
/-- No objects, no invariant to break. -/
theorem inv_initial : Inv (⟨.initial, [], []⟩ : OrdinaryHeap P W) :=
  ⟨MapWorld.inv_initial, rfl, rfl, fun _ hp => nomatch hp⟩

/-! ### Results -/

/-- **The essential invariants hold over runs**: from any state of a run whose deletions and
conversions keep the other properties to any later one, a property that is not configurable
stays as it must, and an object that is not extensible gets no property; and a request that
is rejected changes nothing. -/
theorem essential_invariants (run : (system r).Run Keeps h)
    (later : ((system r).startingAt h).Run Keeps h') :
    Essential r h h' ∧
      ∀ request h'', h'.handle r request = some (.rejected, h'') → h'' = h' := by
  have inv : Inv h := run.invariant (fun h hinit => hinit ▸ inv_initial)
    fun h l h' inv hkeep hstep => (inv.perform hkeep hstep).1
  have hboth : Inv h' ∧ Essential r h h' := by
    refine later.invariant (I := fun h' => Inv h' ∧ Essential r h h') ?_ ?_
    · rintro h' rfl
      exact ⟨inv, .refl r h'⟩
    · rintro h₁ l h₂ ⟨inv₁, hessential⟩ hkeep hstep
      obtain ⟨inv₂, hthen⟩ := inv₁.perform hkeep hstep
      exact ⟨inv₂, hessential.trans hthen⟩
  exact ⟨hboth.2, fun request h'' => handle_rejected⟩

/-! ### Particular runs -/

instance (h : OrdinaryHeap P W) : ∀ l, Decidable (h.Keeps l)
  | .request (.defineOwnProperty obj (.named key) desc) =>
      inferInstanceAs (Decidable (∀ x ∈ h.named.objects[obj]?,
        ∀ current ∈ (x.map.get h.named.shapes key).join, current.configurable = some true →
          desc.isGenericDescriptor = false → current.isDataDescriptor ≠ desc.isDataDescriptor →
            h.named.shapes.Kept x.map.shape key))
  | .request (.delete obj (.named key)) =>
      inferInstanceAs (Decidable (∀ x ∈ h.named.objects[obj]?,
        ∀ current ∈ (x.map.get h.named.shapes key).join, current.configurable = some true →
          h.named.shapes.Kept x.map.shape key))
  | .request (.defineOwnProperty _ (.index _) _) | .request (.delete _ (.index _)) |
    .request (.set ..) | .create .. | .setUp .. | .preventExtensions _ | .setPrototypeOf .. |
    .collect _ => .isTrue trivial

/-- Numbers are doubles; indexed properties may hold them as integers. -/
def numbers : Representation F64 (JsValue F64) where
  encode
    | .primitive x => .float64 x
    | value => .other value
  decode
    | .integer32 n => .primitive (.ofInt32 n)
    | .float64 x => .primitive x
    | .other value => value
  decode_settled value := by cases value <;> rfl
  decode_encode value := by cases value <;> rfl

/-- A number as a value. -/
def number (n : Int32) : JsValue F64 := .primitive (.ofInt32 n)

/-- A request that names attributes only. -/
def attributes (writable configurable : Option Bool) : PropertyDescriptor (JsValue F64) :=
  { enumerable := none, configurable, kind := .data none writable }

/-- Perform steps, as long as the other properties are kept. -/
def performAll (h : OrdinaryHeap F64 (JsValue F64)) (ls : List (OrdinaryLabel F64)) :
    Option (OrdinaryHeap F64 (JsValue F64)) :=
  TransitionSystem.performAll (perform numbers) (fun h l => decide (h.Keeps l)) h ls

theorem run_performAll
    (sys : TransitionSystem (OrdinaryHeap F64 (JsValue F64)) (OrdinaryLabel F64))
    (hsys : sys.step = (system numbers).step) {h h' : OrdinaryHeap F64 (JsValue F64)}
    (hinit : sys.init h) {ls : List (OrdinaryLabel F64)} (heq : performAll h ls = some h') :
    sys.Run Keeps h' := by
  have hstep : ∀ h l h', perform numbers h l = some h' → sys.step h l h' :=
    fun h l h' hl => hsys ▸ hl
  exact (TransitionSystem.Run.performAll hstep (.start hinit) heq).mono fun _ _ => of_decide_eq_true

/-- An object with a property `a` that may be written but not configured, and a read-only
property of an index. -/
def fixedSteps : List (OrdinaryLabel F64) :=
  [.create true none,
    .request (.defineOwnProperty 0 (.named (.string "a")) (.ofData (number 1) true true false)),
    .request (.defineOwnProperty 0 (.index ⟨3, by decide⟩)
      (.ofData (number 2) false true false))]

/-- Attempts at both properties, and at a new one. -/
def laterSteps : List (OrdinaryLabel F64) :=
  [.request (.delete 0 (.named (.string "a"))),
    .request (.set 0 (.named (.string "a")) (number 5) (.object 0)),
    .preventExtensions 0,
    .request (.defineOwnProperty 0 (.named (.string "b")) (.ofData (number 6) true true true)),
    .request (.set 0 (.index ⟨3, by decide⟩) (number 7) (.object 0))]

theorem essential_invariants_laterSteps :
    ∃ h h', performAll ⟨.initial, [], []⟩ fixedSteps = some h ∧ performAll h laterSteps = some h' ∧
      Essential numbers h h' ∧
      h'.getOwnProperty numbers 0 (.named (.string "a")) =
        some (some (.ofData (number 5) true true false)) ∧
      h'.getOwnProperty numbers 0 (.named (.string "b")) = some none ∧
      h'.getOwnProperty numbers 0 (.index ⟨3, by decide⟩) =
        some (some (.ofData (number 2) false true false)) := by
  have hrun : ∃ h h', performAll ⟨.initial, [], []⟩ fixedSteps = some h ∧
      performAll h laterSteps = some h' ∧
      h'.getOwnProperty numbers 0 (.named (.string "a")) =
        some (some (.ofData (number 5) true true false)) ∧
      h'.getOwnProperty numbers 0 (.named (.string "b")) = some none ∧
      h'.getOwnProperty numbers 0 (.index ⟨3, by decide⟩) =
        some (some (.ofData (number 2) false true false)) :=
    ⟨_, _, rfl, rfl, by decide, by decide, by decide⟩
  obtain ⟨h, h', heq, heq', hprops⟩ := hrun
  have run : (system numbers).Run Keeps h := run_performAll _ rfl rfl heq
  have later : ((system numbers).startingAt h).Run Keeps h' :=
    run_performAll ((system numbers).startingAt h) rfl rfl heq'
  exact ⟨h, h', heq, heq', (essential_invariants run later).1, hprops⟩

/-- A property `a`, a property `b`, and then `a` made not configurable. -/
def sharedSteps : List (OrdinaryLabel F64) :=
  [.create true none,
    .request (.defineOwnProperty 0 (.named (.string "a")) (.ofData (number 1) true true true)),
    .request (.defineOwnProperty 0 (.named (.string "b")) (.ofData (number 2) true true true)),
    .request (.defineOwnProperty 0 (.named (.string "a")) (attributes (some false) (some false)))]

/-- Deleting `b` makes `a` configurable again. -/
theorem not_essential :
    ¬ ∀ h h', (system numbers).Reachable h → ((system numbers).startingAt h).Reachable h' →
      Essential numbers h h' ∧
        ∀ request h'', h'.handle numbers request = some (.rejected, h'') → h'' = h' := by
  intro hall
  have hrun : ∃ h h' a a', performAll ⟨.initial, [], []⟩ sharedSteps = some h ∧
      h.perform numbers (.request (.delete 0 (.named (.string "b")))) = some h' ∧
      h.getOwnProperty numbers 0 (.named (.string "a")) = some (some a) ∧
      h'.getOwnProperty numbers 0 (.named (.string "a")) = some (some a') ∧
      a.configurable = some false ∧ a'.configurable = some true :=
    ⟨_, _, _, _, rfl, rfl, rfl, rfl, by decide, by decide⟩
  obtain ⟨h, h', a, a', heq, hdelete, ha, ha', hfixed, hfree⟩ := hrun
  have run : (system numbers).Run Keeps h := run_performAll _ rfl rfl heq
  have later : ((system numbers).startingAt h).Reachable h' :=
    .next (.start rfl) trivial hdelete
  obtain ⟨later, hlater, hretains⟩ :=
    (hall h h' run.reachable later).1.property 0 _ a ha hfixed
  obtain rfl := Option.some.inj (Option.some.inj (hlater.symm.trans ha'))
  cases hretains.configurable.symm.trans hfree

end OrdinaryHeap

end BoaLigero
