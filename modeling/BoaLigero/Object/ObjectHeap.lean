import BoaLigero.Object.ShapeAttributes
import BoaLigero.Object.InternalMethods

/-!
# Heaps of Ordinary Objects

What the internal methods keep. A heap is well formed (`ObjectHeap.WF`) when no two objects
share a unique shape, every storage is cut into the blocks of its shape, and every property
is complete: an accessor has a getter and a setter, either of which may be undefined.

Whoever remembers a shape and what it says about a key relies on `ObjectHeap.Tells`: shared
shapes go on saying it, unique shapes do for as long as an object has them. What a method
does to these promises is stated once, as `ObjectHeap.Evolves`: it keeps all of them, except
that a unique shape, extended in place, may stop saying that it lacks the added key.

## Main results

* `ordinaryDefineOwnProperty_evolves`, `ordinaryDelete_evolves`,
  `ordinarySetPrototypeOf_evolves`, `ordinaryPreventExtensions_evolves` — every internal
  method, as an evolution.
* `WF.getOwnProperty_eq` — what reading an own property gives, in terms of storage cells.
-/

namespace BoaLigero

/-- The attributes of a slot in a shape: the bits of the inline cache are unset, and an
accessor has both functions. -/
structure SlotAttributes.IsProper (a : SlotAttributes) : Prop where
  inPrototype : a.inPrototype = false
  found : a.found = false
  notCacheable : a.notCacheable = false
  get_eq_set : a.get = a.set

variable {P : Type}

namespace PropertyDescriptor

/-- A descriptor with all fields, whose getter and setter are functions or undefined. -/
inductive IsFull : PropertyDescriptor (JsValue P) → Prop
  | data (value : JsValue P) (writable enumerable configurable : Bool) :
      IsFull (ofData value writable enumerable configurable)
  | accessor (get set : JsValue P) (enumerable configurable : Bool)
      (hget : get.isAccessorFunction) (hset : set.isAccessorFunction) :
      IsFull (ofAccessor (some get) (some set) enumerable configurable)

variable {d desc : PropertyDescriptor (JsValue P)} {a : SlotAttributes}

theorem IsFull.isComplete (hd : d.IsFull) : d.IsComplete := by
  cases hd with
  | data v w e c => exact .data v w e c
  | accessor g s e c => exact .accessor _ _ e c rfl

/-- The slot of a full descriptor. -/
theorem IsFull.isProper (hd : d.IsFull) (ha : d.toSlotAttributes = some a) : a.IsProper := by
  cases hd <;> cases ha <;> exact ⟨rfl, rfl, rfl, rfl⟩

theorem isAccessorFunction_getD {v : Option (JsValue P)} (hv : ∀ f ∈ v, f.isAccessorFunction) :
    (v.getD .undefined).isAccessorFunction := by
  cases v with
  | none => rfl
  | some f => exact hv f rfl

/-- The property that a request creates is full. -/
theorem IsRequest.intoDataDefaulted (desc : PropertyDescriptor (JsValue P)) :
    desc.intoDataDefaulted.IsFull := .data _ _ _ _

theorem IsRequest.intoAccessorDefaulted (hdesc : desc.IsRequest) :
    desc.intoAccessorDefaulted.IsFull :=
  .accessor _ _ _ _ (isAccessorFunction_getD hdesc.1) (isAccessorFunction_getD hdesc.2)

/-- Filling in the fields of a request leaves a property full. -/
theorem IsFull.fillWith (hd : d.IsFull) (hdesc : desc.IsRequest)
    {d' : PropertyDescriptor (JsValue P)} (heq : d.fillWith desc = some d') : d'.IsFull := by
  obtain ⟨e, c, kind⟩ := desc
  cases hd with
  | data v w e' c' =>
      cases kind with
      | data v' w' =>
          cases heq
          cases v' <;> cases w' <;> cases e <;> cases c <;> exact .data _ _ _ _
      | accessor g s => cases heq
      | generic =>
          cases heq
          cases e <;> cases c <;> exact .data _ _ _ _
  | accessor g s e' c' hg hs =>
      cases kind with
      | data v' w' => cases heq
      | accessor g' s' =>
          cases heq
          have hg' : (g'.getD g).isAccessorFunction := by
            cases g' with
            | none => exact hg
            | some f => exact hdesc.1 f rfl
          have hs' : (s'.getD s).isAccessorFunction := by
            cases s' with
            | none => exact hs
            | some f => exact hdesc.2 f rfl
          cases g' <;> cases s' <;> cases e <;> cases c <;> exact .accessor _ _ _ _ hg' hs'
      | generic =>
          cases heq
          cases e <;> cases c <;> exact .accessor _ _ _ _ hg hs

end PropertyDescriptor

open PropertyDescriptor

/-- What the checks let through is full. -/
theorem Verdict.isFull_of_fill [DecidableEq P] {desc current d : PropertyDescriptor (JsValue P)}
    (hd : current.IsFull) (heq : Verdict.of desc current = .fill d) : d.IsFull := by
  have hreq : current.IsRequest := by
    cases hd with
    | data v w e c => exact ⟨fun _ h => (nomatch h), fun _ h => (nomatch h)⟩
    | accessor g s e c hg hs =>
        exact ⟨fun f hf => Option.some.inj hf ▸ hg, fun f hf => Option.some.inj hf ▸ hs⟩
  obtain ⟨rfl, -⟩ | ⟨-, -, -, rfl | rfl⟩ := Verdict.of_eq_fill heq
  · exact hd
  · exact hreq.intoAccessorDefaulted
  · exact IsRequest.intoDataDefaulted current

/-! ### Cells -/

namespace PropertyMap

/-- The cells of every accessor are functions or undefined. -/
def Functions (rows : List (PropertyKey × List (JsValue P))) : Prop :=
  ∀ r ∈ rows, r.2.length = 2 → ∀ v ∈ r.2, v.isAccessorFunction

variable {rows : List (PropertyKey × List (JsValue P))}

/-- A block that stores a full descriptor stores functions. -/
theorem functions_of_getStorage {d : PropertyDescriptor (JsValue P)} (hd : d.IsFull)
    {a : SlotAttributes} (ha : d.toSlotAttributes = some a) {block : List (JsValue P)}
    (hlen : block.length = a.width)
    (hget : getStorage block { index := 0, attributes := a } = some d) :
    block.length = 2 → ∀ v ∈ block, v.isAccessorFunction := by
  cases hd with
  | data v w e c =>
      obtain rfl := Option.some.inj ha
      intro htwo
      cases htwo.symm.trans hlen
  | accessor g s e c hg hs =>
      obtain rfl := Option.some.inj ha
      intro htwo
      obtain ⟨x, y, rfl⟩ := List.length_eq_two.mp htwo
      have heq : some (ofAccessor (some x) (some y) e c) =
          some (ofAccessor (some g) (some s) e c) := hget
      obtain ⟨rfl, rfl⟩ : x = g ∧ y = s := by simpa [ofAccessor] using heq
      simp [hg, hs]

theorem Functions.assign (hf : Functions rows) {key : PropertyKey} {block : List (JsValue P)}
    (hb : block.length = 2 → ∀ v ∈ block, v.isAccessorFunction) :
    Functions (Assoc.assign rows key block) := by
  intro r hr
  rcases Assoc.mem_assign hr with rfl | hr
  · exact hb
  · exact hf r hr

theorem Functions.concat (hf : Functions rows) {key : PropertyKey} {block : List (JsValue P)}
    (hb : block.length = 2 → ∀ v ∈ block, v.isAccessorFunction) :
    Functions (rows ++ [(key, block)]) := by
  intro r hr
  rcases List.mem_append.mp hr with hr | hr
  · exact hf r hr
  · exact List.mem_singleton.mp hr ▸ hb

theorem Functions.remove (hf : Functions rows) (key : PropertyKey) :
    Functions (Assoc.remove rows key) :=
  fun r hr => hf r (List.mem_of_mem_filter hr)

end PropertyMap

/-! ### Well-formed heaps -/

namespace ObjectHeap

/-- The invariant of a heap of objects. -/
structure WF (h : ObjectHeap P) : Prop where
  owned : h.shapes.Owned (h.objects.map fun x => x.map.shape)
  root : h.shapes.shared.Valid ShapeHeap.rootShape ∧
    h.shapes.shared.propertyList ShapeHeap.rootShape = []
  attributes : h.shapes.EachAttribute SlotAttributes.IsProper
  stores : ∀ x ∈ h.objects, ∃ rows, x.map.Holds h.shapes rows ∧ PropertyMap.Functions rows

/-- A shape that an object has or may get: unique shapes are not handed on. -/
def InUse (h : ObjectHeap P) : Shape → Prop
  | .shared _ => True
  | .unique addr => ∃ x ∈ h.objects, x.map.shape = .unique addr

instance (h : ObjectHeap P) (shape : Shape) : Decidable (h.InUse shape) :=
  match shape with
  | .shared _ => inferInstanceAs (Decidable True)
  | .unique _ => inferInstanceAs (Decidable (∃ x ∈ h.objects, _))

/-- What `shape` says about `key`, if it is in use. -/
structure Tells (h : ObjectHeap P) (shape : Shape) (key : PropertyKey) (s : Option Slot) :
    Prop where
  valid : h.shapes.Valid shape
  lookup_eq : h.InUse shape → h.shapes.lookup shape key = s

/-- **A step of the heap**: it stays well formed, no shape comes into use again, and the
shapes in use say what they said, but a unique shape `u` may lose the absence of the key `k`
if `added` is `(u, k)`. -/
structure Evolves (h h' : ObjectHeap P) (added : Option (ℕ × PropertyKey)) : Prop where
  wf : h'.WF
  valid : ∀ shape, h.shapes.Valid shape → h'.shapes.Valid shape
  inUse : ∀ shape, h.shapes.Valid shape → h'.InUse shape → h.InUse shape
  lookup_eq : ∀ shape k, h.shapes.Valid shape → h'.InUse shape →
    (∀ u, shape = .unique u → added ≠ some (u, k) ∨ h.shapes.lookup shape k ≠ none) →
      h'.shapes.lookup shape k = h.shapes.lookup shape k

variable {h h' : ObjectHeap P} {x : JsObject P} {obj : ℕ} {added : Option (ℕ × PropertyKey)}

theorem Evolves.refl (wf : h.WF) : Evolves h h none :=
  ⟨wf, fun _ hv => hv, fun _ _ hin => hin, fun _ _ _ _ _ => rfl⟩

/-- A step of the heap keeps what shapes say. -/
theorem Evolves.tells (hev : Evolves h h' added) {shape : Shape} {k : PropertyKey}
    {s : Option Slot} (hs : h.Tells shape k s)
    (hadded : s = none → ∀ u, shape = .unique u → added ≠ some (u, k)) : h'.Tells shape k s := by
  refine ⟨hev.valid shape hs.valid, fun hin => ?_⟩
  have hlook := hs.lookup_eq (hev.inUse shape hs.valid hin)
  rw [hev.lookup_eq shape k hs.valid hin fun u hu => ?_, hlook]
  by_cases hnone : s = none
  · exact .inl (hadded hnone u hu)
  · exact .inr (hlook ▸ hnone)

theorem WF.valid (wf : h.WF) (hx : h.objects[obj]? = some x) : h.shapes.Valid x.map.shape :=
  wf.owned.valid _ (List.mem_map_of_mem (f := fun x => x.map.shape) (List.mem_of_getElem? hx))

/-- What the shape of an object says now. -/
theorem WF.tells (wf : h.WF) (hx : h.objects[obj]? = some x) (key : PropertyKey) :
    h.Tells x.map.shape key (h.shapes.lookup x.map.shape key) :=
  ⟨wf.valid hx, fun _ => rfl⟩

/-- The shapes of objects are in use. -/
theorem inUse_of_object (hx : h.objects[obj]? = some x) : h.InUse x.map.shape := by
  cases hshape : x.map.shape with
  | shared s => trivial
  | unique u => exact ⟨x, List.mem_of_getElem? hx, hshape⟩

theorem Tells.eq_of_object {shape : Shape} {key : PropertyKey} {s : Option Slot}
    (hs : h.Tells shape key s) (hx : h.objects[obj]? = some x) (heq : x.map.shape = shape) :
    h.shapes.lookup shape key = s :=
  hs.lookup_eq (heq ▸ inUse_of_object hx)

/-- **Operating on the shape and the map of one object** is a step of the heap, if what
changes in place is at most the absence of `added`. -/
theorem evolves_of_updates (wf : h.WF) (hx : h.objects[obj]? = some x) {inPlace : Bool}
    {x' : JsObject P} {H' : Shapes} {ps : PropertyList} {q : JsPrototype}
    {rows : List (PropertyKey × List (JsValue P))}
    (hup : PropertyMap.Updates inPlace h.shapes H' x.map x'.map ps q rows)
    (hfun : PropertyMap.Functions rows) (hattr : H'.EachAttribute SlotAttributes.IsProper)
    (hkeep : ∀ u k, inPlace = true → x.map.shape = .unique u → added ≠ some (u, k) ∨
      h.shapes.lookup x.map.shape k ≠ none →
        H'.lookup x'.map.shape k = h.shapes.lookup x.map.shape k) :
    Evolves h { shapes := H', objects := h.objects.set obj x' } added := by
  have hshape : (h.objects.map fun x => x.map.shape)[obj]? = some x.map.shape := by simp [hx]
  have hlt := (List.getElem?_eq_some_iff.mp hx).1
  have hwf' := hup.moves.wf
  -- An old unique shape in use belongs to another object, or was changed in place.
  have huse : ∀ u, u < h.shapes.uniques.length →
      (∃ y ∈ h.objects.set obj x', y.map.shape = .unique u) →
        (inPlace = true ∧ x.map.shape = .unique u ∧ x'.map.shape = .unique u) ∨
          ∃ j y, obj ≠ j ∧ h.objects[j]? = some y ∧ y.map.shape = .unique u := by
    rintro u hu ⟨y, hy, hyu⟩
    obtain ⟨j, hj⟩ := List.mem_iff_getElem?.mp hy
    by_cases hij : obj = j
    · subst hij
      rw [List.getElem?_set_self hlt] at hj
      obtain rfl := Option.some.inj hj
      rcases hup.moves.owner u hyu with ⟨hplace, hxu⟩ | hle
      · exact .inl ⟨hplace, hxu, hyu⟩
      · exact absurd hu (Nat.not_lt.mpr hle)
    · rw [List.getElem?_set_ne hij] at hj
      exact .inr ⟨j, y, hij, hj, hyu⟩
  refine ⟨⟨?_, ⟨hup.moves.shared.valid wf.root.1, ?_⟩, hattr, fun y hy => ?_⟩, ?_, ?_, ?_⟩
  · rw [List.map_set]
    exact wf.owned.set hshape hup.moves
  · rw [hup.moves.shared.propertyList_eq wf.owned.wf.shared wf.root.1, wf.root.2]
  · obtain ⟨j, hj⟩ := List.mem_iff_getElem?.mp hy
    by_cases hij : obj = j
    · subst hij
      rw [List.getElem?_set_self hlt] at hj
      obtain rfl := Option.some.inj hj
      exact ⟨rows, hup.holds, hfun⟩
    · rw [List.getElem?_set_ne hij] at hj
      have hshape' : (h.objects.map fun x => x.map.shape)[j]? = some y.map.shape := by simp [hj]
      have hsame := (wf.owned.other hshape hshape' hij hup.moves).2.1
      obtain ⟨rows', hholds, hfun'⟩ := wf.stores y (List.mem_of_getElem? hj)
      exact ⟨rows', ⟨hholds.storage_eq, by rw [hsame, hholds.widths_eq]⟩, hfun'⟩
  · intro shape hv
    cases shape with
    | shared s => exact (hup.moves.propertyList_eq wf.owned.wf hv fun u hu => (nomatch hu)).1
    | unique u => exact lt_of_lt_of_le hv hup.moves.length
  · intro shape hv hin
    cases shape with
    | shared s => trivial
    | unique u =>
        rcases huse u hv hin with ⟨-, hxu, -⟩ | ⟨j, y, -, hj, hyu⟩
        · exact ⟨x, List.mem_of_getElem? hx, hxu⟩
        · exact ⟨y, List.mem_of_getElem? hj, hyu⟩
  · intro shape k hv hin hadd
    -- A shape whose properties stay goes on saying what it says.
    have hother : H'.propertyList shape = h.shapes.propertyList shape →
        H'.lookup shape k = h.shapes.lookup shape k := fun hlist => by
      rw [Shapes.lookup_eq hwf', hlist, ← Shapes.lookup_eq wf.owned.wf]
    cases shape with
    | shared sh =>
        exact hother (hup.moves.propertyList_eq wf.owned.wf hv fun u hu => (nomatch hu)).2.1
    | unique u =>
        rcases huse u hv hin with ⟨hplace, hxu, hyu⟩ | ⟨j, y, hij, hj, hyu⟩
        · have hkept := hkeep u k hplace hxu (hxu ▸ hadd u rfl)
          rwa [hyu, hxu] at hkept
        · have hshape' : (h.objects.map fun x => x.map.shape)[j]? = some (.unique u) := by
            simp [hj, hyu]
          exact hother (wf.owned.other hshape hshape' hij hup.moves).2.1

/-- **A new object** is a step of the heap. -/
theorem evolves_push (wf : h.WF) {shape shape' : Shape} {q : JsPrototype} {H' : Shapes}
    (hm : h.shapes.Moves false H' shape shape' [] q) (hshared : ∀ u, shape ≠ .unique u)
    (hattr : H'.EachAttribute SlotAttributes.IsProper) (extensible : Bool) :
    Evolves h { shapes := H', objects := h.objects ++
      [{ map := { shape := shape', storage := [] }, extensible }] } none := by
  have hfree : ∀ u, Shape.unique u ∈ h.objects.map (fun x => x.map.shape) → shape ≠ .unique u :=
    fun u _ => hshared u
  -- The new object's shape is not one that was there.
  have huse : ∀ s, h.shapes.Valid s → InUse { shapes := H', objects := h.objects ++
      [{ map := { shape := shape', storage := [] }, extensible }] } s → h.InUse s := by
    intro s hv hin
    cases s with
    | shared s => trivial
    | unique u =>
        obtain ⟨y, hy, hyu⟩ := hin
        rcases List.mem_append.mp hy with hy | hy
        · exact ⟨y, hy, hyu⟩
        · obtain rfl := List.mem_singleton.mp hy
          rcases hm.owner u hyu with ⟨hfalse, -⟩ | hle
          · cases hfalse
          · exact absurd hv (Nat.not_lt.mpr hle)
  refine ⟨⟨?_, ⟨hm.shared.valid wf.root.1, ?_⟩, hattr, fun y hy => ?_⟩, ?_, huse, ?_⟩
  · rw [List.map_append]
    exact wf.owned.push hm hfree
  · rw [hm.shared.propertyList_eq wf.owned.wf.shared wf.root.1, wf.root.2]
  · rcases List.mem_append.mp hy with hy | hy
    · obtain ⟨rows, hholds, hfun⟩ := wf.stores y hy
      have hsame := (wf.owned.other_push hm hfree (List.mem_map_of_mem hy)).1
      exact ⟨rows, ⟨hholds.storage_eq, by rw [hsame, hholds.widths_eq]⟩, hfun⟩
    · obtain rfl := List.mem_singleton.mp hy
      exact ⟨[], ⟨rfl, by rw [hm.list_eq]; rfl⟩, fun _ hr => (nomatch hr)⟩
  · exact fun s hv => (hm.propertyList_eq wf.owned.wf hv fun u hu => hshared u).1
  · intro s k hv hin _
    rw [Shapes.lookup_eq hm.wf, (hm.propertyList_eq wf.owned.wf hv fun u hu => hshared u).2.1,
      ← Shapes.lookup_eq wf.owned.wf]

/-! ### Reading properties -/

/-- The slot an internal method reports for a property found at `slot`: the bits of the
inline cache collected so far are kept. -/
def foundAt (outSlot slot : Slot) : Slot :=
  { index := slot.index
    attributes := { slot.attributes with
      inPrototype := outSlot.attributes.inPrototype
      found := true
      notCacheable := outSlot.attributes.notCacheable } }

/-- The slot reported for a property, without the bits of the inline cache, is the one in
the shape. -/
theorem bare_foundAt {found : Slot} (hproper : found.attributes.IsProper) (outSlot : Slot) :
    (foundAt outSlot found).bare = found := by
  obtain ⟨index, a⟩ := found
  obtain ⟨hp, hf, hn, -⟩ := hproper
  cases a
  simp_all [foundAt, Slot.bare]

/-- **What an own property stores**: a data property has one cell, an accessor two, which
hold functions or undefined. -/
inductive Stored (storage : List (JsValue P)) (slot : Slot) :
    PropertyDescriptor (JsValue P) → Prop
  | data (value : JsValue P) (hkind : slot.attributes.isAccessorDescriptor = false)
      (hcell : storage[slot.index]? = some value) :
      Stored storage slot (ofData value slot.attributes.writable slot.attributes.enumerable
        slot.attributes.configurable)
  | accessor (get set : JsValue P) (hkind : slot.attributes.isAccessorDescriptor = true)
      (hhas : slot.attributes.get = true ∧ slot.attributes.set = true)
      (hget : storage[slot.index]? = some get ∧ get.isAccessorFunction)
      (hset : storage[slot.index + 1]? = some set ∧ set.isAccessorFunction) :
      Stored storage slot (ofAccessor (some get) (some set) slot.attributes.enumerable
        slot.attributes.configurable)

theorem Stored.isFull {storage : List (JsValue P)} {slot : Slot}
    {d : PropertyDescriptor (JsValue P)} (hd : Stored storage slot d) : d.IsFull := by
  cases hd with
  | data v => exact .data v _ _ _
  | accessor g s _ _ hg hs => exact .accessor g s _ _ hg.2 hs.2

/-- A property that the shape has is stored. -/
theorem WF.stored (wf : h.WF) (hx : h.objects[obj]? = some x) {key : PropertyKey} {slot : Slot}
    (hslot : h.shapes.lookup x.map.shape key = some slot) :
    slot.attributes.IsProper ∧ ∃ d, PropertyMap.getStorage x.map.storage slot = some d ∧
      Stored x.map.storage slot d := by
  have hproper := wf.attributes.of_lookup wf.owned.wf hslot
  refine ⟨hproper, ?_⟩
  obtain ⟨rows, hholds, hfun⟩ := wf.stores x (List.mem_of_getElem? hx)
  have hkey : (h.shapes.propertyList x.map.shape).lookup key = some slot.attributes := by
    rw [Shapes.lookup_eq wf.owned.wf] at hslot
    rw [← lookup_layout_map, hslot, Option.map_some]
  obtain ⟨ps, qs, pre, post, block, -, rfl, -, -, hlen, hlook⟩ :=
    hholds.exists_block wf.owned.wf hkey
  rw [hlook] at hslot
  obtain ⟨index, a⟩ := slot
  obtain ⟨rfl, -⟩ := Slot.mk.inj (Option.some.inj hslot)
  have hstorage : x.map.storage =
      PropertyMap.cells pre ++ (block ++ PropertyMap.cells post) := by
    rw [hholds.storage_eq, PropertyMap.cells_append, PropertyMap.cells_cons]
  have hget := hproper.get_eq_set
  rcases PropertyMap.block_cases hlen with ⟨hkind, v, rfl⟩ | ⟨hkind, g, s, rfl⟩
  · have hcell : x.map.storage[(PropertyMap.cells pre).length]? = some v := by simp [hstorage]
    refine ⟨_, ?_, .data v hkind hcell⟩
    simp [PropertyMap.getStorage, hkind, hcell, ofData]
  · have hg : x.map.storage[(PropertyMap.cells pre).length]? = some g := by simp [hstorage]
    have hs : x.map.storage[(PropertyMap.cells pre).length + 1]? = some s := by
      simp [hstorage]
    have hhas : a.get = true ∧ a.set = true := by
      simp only [SlotAttributes.isAccessorDescriptor, Bool.or_eq_true] at hkind
      simp only at hget
      simpa [hget] using hkind
    have hfs := hfun (key, [g, s]) (by simp) rfl
    refine ⟨_, ?_, .accessor g s hkind hhas ⟨hg, hfs g (by simp)⟩ ⟨hs, hfs s (by simp)⟩⟩
    simp [PropertyMap.getStorage, hkind, hhas.1, hhas.2, hg, hs, ofAccessor]

/-- Reading a property that the shape has. -/
theorem WF.getWithSlot_eq (wf : h.WF) (hx : h.objects[obj]? = some x) {key : PropertyKey}
    {slot : Slot} (hslot : h.shapes.lookup x.map.shape key = some slot) (outSlot : Slot) :
    ∃ d, x.map.getWithSlot h.shapes key outSlot = some (some d, foundAt outSlot slot) ∧
      Stored x.map.storage slot d := by
  obtain ⟨hproper, d, hd, hstored⟩ := wf.stored hx hslot
  refine ⟨d, ?_, hstored⟩
  simp only [PropertyMap.getWithSlot, hslot, hd, Option.map_some, foundAt, hproper.inPrototype,
    hproper.notCacheable, Bool.or_false]

/-- Reading a property that the shape lacks. -/
theorem getWithSlot_eq_none {key : PropertyKey}
    (hslot : h.shapes.lookup x.map.shape key = none) (outSlot : Slot) :
    x.map.getWithSlot h.shapes key outSlot = some (none, outSlot) := by
  rw [PropertyMap.getWithSlot, hslot]

/-! ### The methods -/

theorem Evolves.weaken (hev : Evolves h h' none) (added : Option (ℕ × PropertyKey)) :
    Evolves h h' added :=
  ⟨hev.wf, hev.valid, hev.inUse, fun shape k hv hin _ =>
    hev.lookup_eq shape k hv hin fun _ _ => .inl (by simp)⟩

section Methods

variable {key : PropertyKey} {d desc : PropertyDescriptor (JsValue P)} {slot slot' : Slot}

/-- What inserting into the map of an object changes. -/
theorem insertWithSlot_eq_some (hx : h.objects[obj]? = some x)
    (heq : h.insertWithSlot obj key d slot = some (slot', h')) :
    ∃ found map H', x.map.insertWithSlot h.shapes key d slot = some (found, slot', map, H') ∧
      h' = { shapes := H', objects := h.objects.set obj { x with map } } := by
  simp only [insertWithSlot, hx, Option.bind_some] at heq
  obtain ⟨⟨found, s, map, H'⟩, hins, hr⟩ := Option.map_eq_some_iff.mp heq
  cases hr
  exact ⟨found, map, H', hins, rfl⟩

/-- The slot that an insertion reports. -/
theorem insertWithSlot_slot (hx : h.objects[obj]? = some x)
    (heq : h.insertWithSlot obj key d slot = some (slot', h')) :
    ∃ n a, slot' = PropertyMap.insertedSlot slot n a := by
  obtain ⟨found, map, H', hins, -⟩ := insertWithSlot_eq_some hx heq
  obtain ⟨a, -, hrest⟩ := Option.bind_eq_some_iff.mp hins
  cases hlook : h.shapes.lookup x.map.shape key with
  | none =>
      simp only [hlook] at hrest
      cases hrest
      exact ⟨_, a, rfl⟩
  | some found =>
      simp only [hlook] at hrest
      obtain ⟨⟨m, H''⟩, -, hwrite⟩ := Option.bind_eq_some_iff.mp hrest
      obtain ⟨storage, -, hr⟩ := Option.map_eq_some_iff.mp hwrite
      cases hr
      exact ⟨_, a, rfl⟩

/-- Inserting a property keeps the attributes proper. -/
theorem insertWithSlot_eachAttribute (wf : h.WF) {a : SlotAttributes} (ha : a.IsProper)
    (hd : d.toSlotAttributes = some a) {found : Bool} {map : PropertyMap (JsValue P)} {H' : Shapes}
    (heq : x.map.insertWithSlot h.shapes key d slot = some (found, slot', map, H')) :
    H'.EachAttribute SlotAttributes.IsProper := by
  simp only [PropertyMap.insertWithSlot, hd, Option.bind_some] at heq
  cases hlook : h.shapes.lookup x.map.shape key with
  | none =>
      rw [hlook] at heq
      cases heq
      exact wf.attributes.insertPropertyTransition ha rfl
  | some found =>
      rw [hlook] at heq
      obtain ⟨⟨m, H''⟩, hchange, hrest⟩ := Option.bind_eq_some_iff.mp heq
      obtain ⟨storage, -, hr⟩ := Option.map_eq_some_iff.mp hrest
      cases hr
      split at hchange
      · obtain ⟨⟨⟨shape, action⟩, H₁⟩, htrans, hact⟩ := Option.bind_eq_some_iff.mp hchange
        obtain ⟨storage', -, hr⟩ := Option.map_eq_some_iff.mp hact
        cases hr
        exact wf.attributes.changeAttributesTransition wf.owned.wf ha htrans
      · cases hchange
        exact wf.attributes

/-- Replacing a property. -/
theorem insertWithSlot_evolves_of_some (wf : h.WF) (hx : h.objects[obj]? = some x)
    (hd : d.IsFull) {found : Slot} (hlook : h.shapes.lookup x.map.shape key = some found)
    (heq : h.insertWithSlot obj key d slot = some (slot', h')) : Evolves h h' none := by
  obtain ⟨a, ha⟩ := hd.isComplete.exists_attributes
  obtain ⟨rows, hholds, hfun⟩ := wf.stores x (List.mem_of_getElem? hx)
  have hkey : (h.shapes.propertyList x.map.shape).lookup key = some found.attributes := by
    rw [Shapes.lookup_eq wf.owned.wf] at hlook
    rw [← lookup_layout_map, hlook, Option.map_some]
  obtain ⟨_, map, H', hins, rfl⟩ := insertWithSlot_eq_some hx heq
  have hattr := insertWithSlot_eachAttribute wf (hd.isProper ha) ha hins
  obtain ⟨m', H'', ps, block, n, hins', -, hup, hwidths, hkept, hget⟩ :=
    PropertyMap.insertWithSlot_present wf.owned.wf (wf.valid hx) hholds hkey hd.isComplete ha slot
  rw [hins] at hins'
  cases hins'
  have hblock : block.length = a.width := by
    have hnew : (Assoc.assign rows key block).lookup key = some block := by
      rw [Assoc.lookup_assign, if_pos rfl]
    refine hup.holds.length_block hnew ?_
    rw [hup.moves.list_eq, hwidths, widths, Assoc.lookup_mapValues, Assoc.lookup_assign,
      if_pos rfl, Option.map_some]
  refine evolves_of_updates wf hx hup
    (hfun.assign (PropertyMap.functions_of_getStorage hd ha hblock hget)) hattr ?_
  intro u k hplace _ _
  have hba : found.attributes = a := of_decide_eq_true hplace
  have hlist := hkept (.inl (SlotAttributes.widthMatch_iff.mpr (by rw [hba])))
  have hsame : Assoc.assign (h.shapes.propertyList x.map.shape) key a =
      h.shapes.propertyList x.map.shape :=
    Assoc.assign_of_lookup (wf.owned.wf.nodup _) (hba ▸ hkey)
  rw [Shapes.lookup_eq hup.moves.wf, hup.moves.list_eq, hlist, hsame,
    ← Shapes.lookup_eq wf.owned.wf]

/-- Adding a property. -/
theorem insertWithSlot_evolves_of_none (wf : h.WF) (hx : h.objects[obj]? = some x)
    (hd : d.IsFull) (hlook : h.shapes.lookup x.map.shape key = none)
    (heq : h.insertWithSlot obj key d slot = some (slot', h'))
    (hadded : ∀ u, x.map.shape = .unique u → added = some (u, key)) :
    Evolves h h' added ∧ ∃ n a, SlotAttributes.IsProper a ∧
      slot' = PropertyMap.insertedSlot slot n a := by
  obtain ⟨a, ha⟩ := hd.isComplete.exists_attributes
  obtain ⟨rows, hholds, hfun⟩ := wf.stores x (List.mem_of_getElem? hx)
  have hkey : key ∉ Assoc.keys (h.shapes.propertyList x.map.shape) := by
    rw [Shapes.lookup_eq wf.owned.wf, Assoc.lookup_eq_none_iff_notMem, keys_layout] at hlook
    exact hlook
  obtain ⟨_, map, H', hins, rfl⟩ := insertWithSlot_eq_some hx heq
  have hattr := insertWithSlot_eachAttribute wf (hd.isProper ha) ha hins
  obtain ⟨m', H'', block, hins', hup, hget⟩ :=
    PropertyMap.insertWithSlot_absent wf.owned.wf (wf.valid hx) hholds hkey hd.isComplete ha slot
  rw [hins] at hins'
  cases hins'
  have hblock : block.length = a.width := by
    have hnew : (rows ++ [(key, block)]).lookup key = some block := by
      rw [Assoc.lookup_append_of_notMem (PropertyMap.keys_of_blockWidths hholds.widths_eq ▸ hkey)]
      simp
    refine hup.holds.length_block hnew ?_
    · rw [hup.moves.list_eq, widths, Assoc.lookup_mapValues,
        Assoc.lookup_append_of_notMem hkey]
      simp
  refine ⟨evolves_of_updates wf hx hup
    (hfun.concat (PropertyMap.functions_of_getStorage hd ha hblock hget)) hattr ?_,
    _, a, hd.isProper ha, rfl⟩
  intro u k _ hu hk
  rw [Shapes.lookup_eq hup.moves.wf, hup.moves.list_eq, layout_append,
    Shapes.lookup_eq wf.owned.wf, List.lookup_append]
  rcases hk with hk | hk
  · have hne : k ≠ key := fun heq => hk (by rw [hadded u hu, heq])
    rw [layoutFrom, layoutFrom, List.lookup_cons, beq_eq_false_iff_ne.mpr hne]
    exact Option.or_none
  · rw [Shapes.lookup_eq wf.owned.wf] at hk
    exact Option.or_of_isSome (Option.isSome_iff_ne_none.mpr hk)

/-- Removing a property. -/
theorem remove_evolves (wf : h.WF) (hx : h.objects[obj]? = some x) {found : Bool}
    {map : PropertyMap (JsValue P)} {H' : Shapes}
    (heq : x.map.remove h.shapes key = some (found, map, H')) :
    Evolves h { shapes := H', objects := h.objects.set obj { x with map } } none := by
  obtain ⟨rows, hholds, hfun⟩ := wf.stores x (List.mem_of_getElem? hx)
  by_cases hkey : key ∈ Assoc.keys (h.shapes.propertyList x.map.shape)
  · obtain ⟨m', H'', ps, hremove, hup, -, -⟩ :=
      PropertyMap.remove_present wf.owned.wf (wf.valid hx) hholds hkey
    rw [heq] at hremove
    cases hremove
    refine evolves_of_updates wf hx hup (hfun.remove key) ?_ fun u k hplace => (nomatch hplace)
    -- The shapes are those of the transition.
    rw [PropertyMap.remove] at heq
    split at heq
    · obtain ⟨storage, -, heq⟩ := Option.bind_eq_some_iff.mp heq
      obtain ⟨storage', -, heq⟩ := Option.bind_eq_some_iff.mp heq
      obtain ⟨⟨shape, H₁⟩, htrans, heq⟩ := Option.map_eq_some_iff.mp heq
      cases heq
      exact wf.attributes.removePropertyTransition wf.owned.wf htrans
    · cases heq
  · have hnone : h.shapes.lookup x.map.shape key = none := by
      rw [Shapes.lookup_eq wf.owned.wf, Assoc.lookup_eq_none_iff_notMem, keys_layout]
      exact hkey
    rw [PropertyMap.remove, hnone] at heq
    cases heq
    exact evolves_of_updates wf hx ⟨.refl wf.owned.wf (wf.valid hx), hholds⟩ hfun wf.attributes
      fun _ _ _ _ _ => rfl

/-- A definition that adds a property to a unique shape does so in place. -/
theorem addedInPlace_eq (hx : h.objects[obj]? = some x)
    (hlook : h.shapes.lookup x.map.shape key = none) (hext : x.extensible = true) {u : ℕ}
    (hu : x.map.shape = .unique u) : h.addedInPlace obj key = some (u, key) := by
  rw [hu] at hlook
  simp [addedInPlace, hx, hu, hext, hlook]

variable [DecidableEq P]

/-- **Property definition** is a step of the heap. -/
theorem ordinaryDefineOwnProperty_evolves (wf : h.WF) (hdesc : desc.IsRequest) {done : Bool}
    (heq : h.ordinaryDefineOwnProperty obj key desc slot = some (done, slot', h')) :
    Evolves h h' (h.addedInPlace obj key) := by
  rw [ordinaryDefineOwnProperty] at heq
  obtain ⟨x, hx, heq⟩ := Option.bind_eq_some_iff.mp heq
  obtain ⟨⟨current, slot₁⟩, hown, heq⟩ := Option.bind_eq_some_iff.mp heq
  rw [ordinaryGetOwnProperty, hx, Option.bind_some] at hown
  cases hlook : h.shapes.lookup x.map.shape key with
  | none =>
      rw [getWithSlot_eq_none hlook] at hown
      cases hown
      dsimp only [validateAndApplyPropertyDescriptor] at heq
      split at heq
      · next hext =>
          obtain ⟨⟨slot₂, h₂⟩, hins, hr⟩ := Option.map_eq_some_iff.mp heq
          cases hr
          have hfull : (if desc.isGenericDescriptor || desc.isDataDescriptor then
              desc.intoDataDefaulted else desc.intoAccessorDefaulted).IsFull := by
            split
            · exact IsRequest.intoDataDefaulted desc
            · exact hdesc.intoAccessorDefaulted
          exact (insertWithSlot_evolves_of_none wf hx hfull hlook hins fun u hu =>
            addedInPlace_eq hx hlook hext hu).1
      · cases heq
        exact (Evolves.refl wf).weaken _
  | some found =>
      obtain ⟨d, hget, hstored⟩ := wf.getWithSlot_eq hx hlook slot
      rw [hget] at hown
      cases hown
      refine Evolves.weaken ?_ _
      dsimp only [validateAndApplyPropertyDescriptor] at heq
      split at heq
      · cases heq
        exact .refl wf
      · split at heq
        · cases heq
          exact .refl wf
        · cases heq
          exact .refl wf
        · next current hverdict =>
            obtain ⟨d', hfill, heq⟩ := Option.bind_eq_some_iff.mp heq
            obtain ⟨⟨slot₂, h₂⟩, hins, hr⟩ := Option.map_eq_some_iff.mp heq
            cases hr
            have hfull := (Verdict.isFull_of_fill hstored.isFull hverdict).fillWith hdesc hfill
            exact insertWithSlot_evolves_of_some wf hx hfull hlook hins

omit [DecidableEq P] in
/-- **Deletion** is a step of the heap. -/
theorem ordinaryDelete_evolves (wf : h.WF) {done : Bool}
    (heq : h.ordinaryDelete obj key = some (done, h')) : Evolves h h' none := by
  rw [ordinaryDelete] at heq
  obtain ⟨x, hx, heq⟩ := Option.bind_eq_some_iff.mp heq
  obtain ⟨⟨desc, slot⟩, -, heq⟩ := Option.bind_eq_some_iff.mp heq
  cases desc with
  | none =>
      cases heq
      exact .refl wf
  | some desc =>
      dsimp only at heq
      split at heq
      · obtain ⟨⟨found, map, H'⟩, hremove, hr⟩ := Option.map_eq_some_iff.mp heq
        cases hr
        exact remove_evolves wf hx hremove
      · cases heq
        exact .refl wf

omit [DecidableEq P] in
/-- Preventing extensions leaves shapes and storage alone. -/
theorem ordinaryPreventExtensions_evolves (wf : h.WF)
    (heq : h.ordinaryPreventExtensions obj = some h') : Evolves h h' none := by
  obtain ⟨x, hx, rfl⟩ := Option.map_eq_some_iff.mp heq
  obtain ⟨rows, hholds, hfun⟩ := wf.stores x (List.mem_of_getElem? hx)
  have hup : PropertyMap.Updates true h.shapes h.shapes x.map { x with extensible := false }.map
      (h.shapes.propertyList x.map.shape) (h.shapes.prototype x.map.shape) rows :=
    ⟨.refl wf.owned.wf (wf.valid hx), hholds⟩
  exact evolves_of_updates wf hx hup hfun wf.attributes fun _ _ _ _ _ => rfl

omit [DecidableEq P] in
/-- **Changing the prototype** is a step of the heap. -/
theorem ordinarySetPrototypeOf_evolves (wf : h.WF) {val : JsPrototype} {done : Bool}
    (heq : h.ordinarySetPrototypeOf obj val = some (done, h')) : Evolves h h' none := by
  rw [ordinarySetPrototypeOf] at heq
  obtain ⟨x, hx, heq⟩ := Option.bind_eq_some_iff.mp heq
  obtain ⟨rows, hholds, hfun⟩ := wf.stores x (List.mem_of_getElem? hx)
  split at heq
  · cases heq
    exact .refl wf
  · split at heq
    · cases heq
      exact .refl wf
    · obtain ⟨found, -, hr⟩ := Option.map_eq_some_iff.mp heq
      cases found with
      | true =>
          cases hr
          exact .refl wf
      | false =>
          obtain ⟨shape', H', htrans⟩ : ∃ shape' H',
              h.shapes.changePrototypeTransition x.map.shape val = (shape', H') := ⟨_, _, rfl⟩
          have hm := Shapes.changePrototypeTransition_spec wf.owned.wf (wf.valid hx) htrans
          simp only [PropertyMap.setPrototype, htrans] at hr
          cases hr
          have hup : PropertyMap.Updates false h.shapes H' x.map
              { x with map := { x.map with shape := shape' } }.map
              (h.shapes.propertyList x.map.shape) val rows :=
            ⟨hm, hholds.storage_eq, by rw [hholds.widths_eq, hm.list_eq]⟩
          exact evolves_of_updates wf hx hup hfun
            (wf.attributes.changePrototypeTransition htrans) fun u k hplace => (nomatch hplace)

/-! ### The slot of a definition -/

/-- A definition does not make a slot cacheable that was not. -/
theorem notCacheable_of_define (hslot : slot.attributes.notCacheable = true) {done : Bool}
    (heq : h.ordinaryDefineOwnProperty obj key desc slot = some (done, slot', h')) :
    slot'.attributes.notCacheable = true := by
  -- Inserting keeps the bit, and so does looking the property up.
  have hins : ∀ {s s' : Slot} {d : PropertyDescriptor (JsValue P)} {h'' : ObjectHeap P},
      s.attributes.notCacheable = true → h.insertWithSlot obj key d s = some (s', h'') →
        s'.attributes.notCacheable = true := by
    intro s s' d h'' hs hinsert
    obtain ⟨x, hx, -⟩ := Option.bind_eq_some_iff.mp hinsert
    obtain ⟨n, a, rfl⟩ := insertWithSlot_slot hx hinsert
    simp [PropertyMap.insertedSlot, hs]
  rw [ordinaryDefineOwnProperty] at heq
  obtain ⟨x, hx, heq⟩ := Option.bind_eq_some_iff.mp heq
  obtain ⟨⟨current, slot₁⟩, hown, heq⟩ := Option.bind_eq_some_iff.mp heq
  rw [ordinaryGetOwnProperty, hx, Option.bind_some, PropertyMap.getWithSlot] at hown
  have hslot₁ : slot₁.attributes.notCacheable = true := by
    split at hown
    · obtain ⟨d, -, hr⟩ := Option.map_eq_some_iff.mp hown
      cases hr
      simp [hslot]
    · cases hown
      exact hslot
  clear hown
  cases current <;> dsimp only [validateAndApplyPropertyDescriptor] at heq
  · split at heq
    · obtain ⟨⟨slot₂, h₂⟩, hinsert, hr⟩ := Option.map_eq_some_iff.mp heq
      cases hr
      exact hins hslot₁ hinsert
    · cases heq
      exact hslot₁
  · split at heq
    · cases heq
      exact hslot₁
    · split at heq
      · cases heq
        exact hslot₁
      · cases heq
        exact hslot₁
      · obtain ⟨d', -, heq⟩ := Option.bind_eq_some_iff.mp heq
        obtain ⟨⟨slot₂, h₂⟩, hinsert, hr⟩ := Option.map_eq_some_iff.mp heq
        have hbit := hins hslot₁ hinsert
        cases hr
        exact hbit

/-- A definition that adds the property does not mark it as found. -/
theorem found_of_define (wf : h.WF) (hdesc : desc.IsRequest)
    (hx : h.objects[obj]? = some x) (hlook : h.shapes.lookup x.map.shape key = none)
    (hslot : slot.attributes.found = false) {done : Bool}
    (heq : h.ordinaryDefineOwnProperty obj key desc slot = some (done, slot', h')) :
    slot'.attributes.found = false := by
  rw [ordinaryDefineOwnProperty, hx, Option.bind_some, ordinaryGetOwnProperty, hx,
    Option.bind_some, getWithSlot_eq_none hlook, Option.bind_some] at heq
  dsimp only [validateAndApplyPropertyDescriptor] at heq
  split at heq
  · obtain ⟨⟨slot₂, h₂⟩, hins, hr⟩ := Option.map_eq_some_iff.mp heq
    cases hr
    have hfull : (if desc.isGenericDescriptor || desc.isDataDescriptor then
        desc.intoDataDefaulted else desc.intoAccessorDefaulted).IsFull := by
      split
      · exact IsRequest.intoDataDefaulted desc
      · exact hdesc.intoAccessorDefaulted
    obtain ⟨-, n, a, ha, rfl⟩ :=
      insertWithSlot_evolves_of_none wf hx hfull hlook hins fun u hu =>
        addedInPlace_eq hx hlook ‹_› hu
    simp [PropertyMap.insertedSlot, hslot, ha.found]
  · cases heq
    exact hslot

/-- **Giving a writable data property a value** writes its cell. -/
theorem define_value_eq (wf : h.WF) (hx : h.objects[obj]? = some x) {found : Slot}
    (hlook : h.shapes.lookup x.map.shape key = some found)
    (hkind : found.attributes.isAccessorDescriptor = false)
    (hwritable : found.attributes.writable = true) (value : JsValue P) (slot : Slot) :
    h.ordinaryDefineOwnProperty obj key
        { enumerable := none, configurable := none, kind := .data (some value) none } slot =
      some (true, foundAt slot found, { h with objects := h.objects.set obj { x with
        map := { x.map with storage := x.map.storage.set found.index value } } }) := by
  obtain ⟨d, hget, hstored⟩ := wf.getWithSlot_eq hx hlook slot
  have hproper := wf.attributes.of_lookup wf.owned.wf hlook
  cases hstored with
  | accessor g s hk => exact absurd (hk.symm.trans hkind) (by decide)
  | data v _ hcell =>
      have hlt := (List.getElem?_eq_some_iff.mp hcell).1
      have hattr : (ofData value found.attributes.writable found.attributes.enumerable
          found.attributes.configurable).toSlotAttributes = some found.attributes := by
        obtain ⟨index, ⟨w, e, c, g, s, p, f, n⟩⟩ := found
        obtain ⟨rfl, rfl, rfl, -⟩ := hproper
        obtain ⟨rfl, rfl⟩ : g = false ∧ s = false := by
          simpa [SlotAttributes.isAccessorDescriptor] using hkind
        rfl
      have hverdict : Verdict.of
          { enumerable := none, configurable := none, kind := .data (some value) none }
          (ofData v found.attributes.writable found.attributes.enumerable
            found.attributes.configurable) =
          .fill (ofData v found.attributes.writable found.attributes.enumerable
            found.attributes.configurable) := by
        simp [Verdict.of, Verdict.ofSameKind, Verdict.changes, isGenericDescriptor,
          isDataDescriptor, ofData, hwritable, PropertyDescriptor.writable]
      have hinsert : x.map.insertWithSlot h.shapes key (ofData value found.attributes.writable
          found.attributes.enumerable found.attributes.configurable) (foundAt slot found) =
          some (true, foundAt slot found,
            { x.map with storage := x.map.storage.set found.index value }, h.shapes) := by
        simp only [PropertyMap.insertWithSlot, hattr, hlook, Option.bind_some]
        simp [PropertyMap.writeCells, hkind, Storage.write, hlt, PropertyDescriptor.value, ofData,
          PropertyMap.insertedSlot, foundAt, hproper.inPrototype, hproper.notCacheable]
      have hheap : h.insertWithSlot obj key (ofData value found.attributes.writable
          found.attributes.enumerable found.attributes.configurable) (foundAt slot found) =
          some (foundAt slot found, { h with objects := h.objects.set obj { x with
            map := { x.map with storage := x.map.storage.set found.index value } } }) := by
        rw [insertWithSlot, hx, Option.bind_some, hinsert]
        rfl
      have hfill : (ofData v found.attributes.writable found.attributes.enumerable
          found.attributes.configurable).fillWith
          { enumerable := none, configurable := none, kind := .data (some value) none } =
          some (ofData value found.attributes.writable found.attributes.enumerable
            found.attributes.configurable) := rfl
      rw [ordinaryDefineOwnProperty, hx, Option.bind_some, ordinaryGetOwnProperty, hx,
        Option.bind_some, hget, Option.bind_some]
      dsimp only [validateAndApplyPropertyDescriptor]
      rw [if_neg (by simp [isEmpty, isGenericDescriptor]), hverdict]
      dsimp only
      rw [hfill, Option.bind_some, hheap, Option.map_some]
      rfl

end Methods

end ObjectHeap

end BoaLigero
