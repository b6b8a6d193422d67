import BoaLigero.Object.IndexedPropertiesRun
import BoaLigero.Object.InternalMethods
import BoaLigero.Object.PropertyMapRun

/-!
# Ordinary Objects with All Their Properties

Requests to ordinary objects (`object/internal_methods/mod.rs`) whose properties are both
named, in a property map on a shape, and indexed, in indexed properties: definition with its
validation, `[[Set]]` along the prototype chain, and deletion. The slot that the internal
methods fill in for the inline caches is left out here, since no answer depends on it.

The named properties of the objects are a `MapWorld`, which keeps beside every map the
finite map it should be; no request reads that one. Indexed properties hold their values in
a form of their own, with numbers as integers or doubles; `Representation` is the passage
between the two forms.

A setter is not called here, the answer names it. A place where the source panics, and a
prototype chain without end, give `none`.

## Main results

* `Verdict.allows_of_fill` — what the checks let through is a change that a property which
  is not configurable allows.
-/

namespace BoaLigero

variable {P W : Type}

/-! ### Descriptors -/

namespace PropertyDescriptor

variable {V V' : Type}

/-- A kind of descriptor with the values replaced. -/
def mapKind (f : V → V') : DescriptorKind V → DescriptorKind V'
  | .data value writable => .data (value.map f) writable
  | .accessor get set => .accessor (get.map f) (set.map f)
  | .generic => .generic

/-- A descriptor with the values replaced. -/
def map (f : V → V') (d : PropertyDescriptor V) : PropertyDescriptor V' :=
  { enumerable := d.enumerable, configurable := d.configurable, kind := mapKind f d.kind }

variable {d d' c : PropertyDescriptor V}

@[simp] theorem isDataDescriptor_map (f : V → V') (d : PropertyDescriptor V) :
    (d.map f).isDataDescriptor = d.isDataDescriptor := by
  obtain ⟨e, c, kind⟩ := d
  cases kind <;> rfl

theorem IsComplete.map (f : V → V') (hd : d.IsComplete) : (d.map f).IsComplete := by
  cases hd with
  | data value writable enumerable configurable => exact .data ..
  | accessor get set enumerable configurable hsome =>
      exact .accessor _ _ _ _ (by simpa using hsome)

theorem IsComplete.isComplete_eq_true (hd : d.IsComplete) : d.isComplete = true := by
  cases hd with
  | data value writable enumerable configurable => rfl
  | accessor get set enumerable configurable hsome => exact hsome

/-- **What becomes of a property that is not configurable**: `d` is still not configurable,
and what else must not change of `c` has not. -/
structure Retains (c d : PropertyDescriptor V) : Prop where
  configurable : d.configurable = some false
  enumerable : d.enumerable = c.enumerable
  isDataDescriptor : d.isDataDescriptor = c.isDataDescriptor
  get : d.get = c.get
  set : d.set = c.set
  readOnly : c.writable = some false → d.writable = some false ∧ d.value = c.value

theorem Retains.refl (hc : c.configurable = some false) : Retains c c :=
  ⟨hc, rfl, rfl, rfl, rfl, fun hw => ⟨hw, rfl⟩⟩

theorem Retains.trans (h : Retains c d) (h' : Retains d d') : Retains c d' where
  configurable := h'.configurable
  enumerable := h'.enumerable.trans h.enumerable
  isDataDescriptor := h'.isDataDescriptor.trans h.isDataDescriptor
  get := h'.get.trans h.get
  set := h'.set.trans h.set
  readOnly hw :=
    have hd := h.readOnly hw
    ⟨(h'.readOnly hd.1).1, (h'.readOnly hd.1).2.trans hd.2⟩

/-- Filling in the fields of a request leaves a property complete. -/
theorem IsComplete.fillWith {desc : PropertyDescriptor V} (hd : d.IsComplete)
    (heq : d.fillWith desc = some d') : d'.IsComplete := by
  obtain ⟨e, c, kind⟩ := desc
  cases hd with
  | data v w e' c' =>
      cases kind with
      | data v' w' =>
          cases heq
          cases v' <;> cases w' <;> cases e <;> cases c <;> exact .data _ _ _ _
      | accessor get set => cases heq
      | generic =>
          cases heq
          cases e <;> cases c <;> exact .data _ _ _ _
  | accessor get set e' c' hsome =>
      cases kind with
      | data v' w' => cases heq
      | accessor get' set' =>
          cases heq
          have hor : (get'.or get).isSome || (set'.or set).isSome := by
            cases get' <;> cases set' <;> simp_all
          cases e <;> cases c <;> exact .accessor _ _ _ _ hor
      | generic =>
          cases heq
          cases e <;> cases c <;> exact .accessor _ _ _ _ hsome

/-- A conversion happens where the kind of the property is that of the request. -/
theorem isDataDescriptor_fillWith {desc : PropertyDescriptor V}
    (heq : d.fillWith desc = some d') : d'.isDataDescriptor = d.isDataDescriptor := by
  obtain ⟨e, c, kind⟩ := d
  obtain ⟨e', c', kind'⟩ := desc
  cases kind <;> cases kind' <;> cases heq <;> rfl

end PropertyDescriptor

namespace PropertyMap

variable {V : Type} {storage : List V} {slot : Slot} {d : PropertyDescriptor V}

/-- What is read from storage is complete, and of the kind that the slot says. -/
theorem isComplete_of_getStorage (hd : getStorage storage slot = some d) :
    d.IsComplete ∧ d.isDataDescriptor = !slot.attributes.isAccessorDescriptor := by
  rw [getStorage] at hd
  cases ha : slot.attributes.isAccessorDescriptor with
  | false =>
      rw [ha] at hd
      obtain ⟨v, -, rfl⟩ := Option.map_eq_some_iff.mp hd
      exact ⟨.data .., rfl⟩
  | true =>
      have hsome : slot.attributes.get || slot.attributes.set := ha
      rw [ha, if_pos rfl] at hd
      obtain ⟨get, hget, hd⟩ := Option.bind_eq_some_iff.mp hd
      obtain ⟨set, hset, rfl⟩ := Option.map_eq_some_iff.mp hd
      refine ⟨.accessor get set _ _ ?_, rfl⟩
      cases hg : slot.attributes.get with
      | true =>
          rw [hg, if_pos rfl] at hget
          obtain ⟨v, -, rfl⟩ := Option.map_eq_some_iff.mp hget
          rfl
      | false =>
          have hs : slot.attributes.set = true := by simpa [hg] using hsome
          rw [hs, if_pos rfl] at hset
          obtain ⟨v, -, rfl⟩ := Option.map_eq_some_iff.mp hset
          exact Bool.or_true _

/-- The slot of a complete property is of its kind. -/
theorem isAccessorDescriptor_toSlotAttributes (hd : d.IsComplete) {a : SlotAttributes}
    (ha : d.toSlotAttributes = some a) : a.isAccessorDescriptor = !d.isDataDescriptor := by
  cases hd with
  | data v w e c => cases ha; rfl
  | accessor g s e c hsome => cases ha; exact hsome

end PropertyMap

/-- How a value is held in indexed properties. Whether a number is held as an integer or as
a double makes no difference to the value. -/
structure Representation (P W : Type) where
  encode : JsValue P → JsVariant W
  decode : JsVariant W → JsValue P
  decode_settled : ∀ value : JsVariant W, decode value.settled = decode value
  decode_encode : ∀ value : JsValue P, decode (encode value) = value

namespace Verdict

variable [DecidableEq P] (desc current : PropertyDescriptor (JsValue P))

/-- Whether the checks panic: they compare a getter or setter of the request to one that the
property, an accessor that is not configurable, does not have. -/
def expectsAbsent : Bool :=
  current.configurable = some false && current.isAccessorDescriptor && desc.isAccessorDescriptor &&
    !(desc.configurable = some true || changes desc.enumerable current.enumerable) &&
      (desc.set.isSome && current.set.isNone ||
        !changes desc.set current.set && desc.get.isSome && current.get.isNone)

variable {desc current}

/-- What the checks let through is complete. -/
theorem isComplete_of_fill {d : PropertyDescriptor (JsValue P)} (hcurrent : current.IsComplete)
    (heq : of desc current = .fill d) : d.IsComplete := by
  obtain ⟨rfl, -⟩ | ⟨-, -, -, rfl | rfl⟩ := of_eq_fill heq
  · exact hcurrent
  · exact .accessor _ _ _ _ rfl
  · exact .data _ _ _ _

/-- **What the checks let through** is a change that a property allows which is not
configurable. -/
theorem retains_of_fill {d d' : PropertyDescriptor (JsValue P)}
    (hcurrent : current.configurable = some false) (heq : of desc current = .fill d)
    (hfill : d.fillWith desc = some d') : current.Retains d' := by
  have hpass : ¬ (desc.configurable = some true ∨ changes desc.enumerable current.enumerable) := by
    intro hchange
    rw [of, if_pos ⟨hcurrent, hchange⟩] at heq
    cases heq
  obtain ⟨hconfigurable, henumerable⟩ := not_or.mp hpass
  obtain ⟨rfl, hkind⟩ : d = current ∧
      (desc.isGenericDescriptor ∨ current.isDataDescriptor ∧ current.writable ≠ some false) := by
    obtain ⟨rfl, hkeeps⟩ | ⟨-, -, hc, -⟩ := of_eq_fill heq
    · exact ⟨rfl, hkeeps hcurrent⟩
    · exact absurd hcurrent hc
  obtain ⟨e, c, kind⟩ := d
  obtain ⟨e', c', kind'⟩ := desc
  obtain rfl : c = some false := hcurrent
  have hc : c'.or (some false) = some false := by
    rcases c' with - | (_ | _)
    · rfl
    · rfl
    · exact absurd rfl hconfigurable
  have he : e'.or e = e := by
    cases e' with
    | none => rfl
    | some b => simpa [changes] using henumerable
  cases kind' with
  | generic =>
      cases kind <;> cases hfill <;> exact ⟨hc, he, rfl, rfl, rfl, fun hw => ⟨hw, rfl⟩⟩
  | data value writable =>
      cases kind with
      | data v w =>
          cases hfill
          refine ⟨hc, he, rfl, rfl, rfl, fun hw => absurd hw ?_⟩
          exact (hkind.resolve_left Bool.false_ne_true).2
      | accessor | generic => cases hfill
  | accessor get set =>
      have hdata := (hkind.resolve_left Bool.false_ne_true).1
      cases kind with
      | data => cases hfill
      | accessor | generic => cases hdata

end Verdict

/-! ### Objects -/

/-- A key of a property: a string, a symbol, or an array index. -/
inductive OwnKey where
  | named (key : PropertyKey)
  | index (key : NonMaxU32)
  deriving DecidableEq

/-- Ordinary objects: their named properties, which include the prototypes, their indexed
properties, and whether they are extensible. -/
structure OrdinaryHeap (P W : Type) where
  named : MapWorld (JsValue P)
  indexed : List (IndexedProperties W)
  extensible : List Bool

/-- A request to an object. -/
inductive Request (P : Type) where
  | defineOwnProperty (obj : ℕ) (key : OwnKey) (desc : PropertyDescriptor (JsValue P))
  | set (obj : ℕ) (key : OwnKey) (value receiver : JsValue P)
  | delete (obj : ℕ) (key : OwnKey)

/-- The answer to a request: accepted, rejected, or a setter to be called. -/
inductive Answer (P : Type) where
  | accepted
  | rejected
  | setter (set : JsValue P)
  deriving DecidableEq

/-- The answer that a truth value stands for. -/
def Answer.ofBool : Bool → Answer P
  | true => accepted
  | false => rejected

namespace OrdinaryHeap

variable [DecidableEq P] (r : Representation P W) (h : OrdinaryHeap P W)

/-- `ordinary_get_own_property`. -/
def getOwnProperty (obj : ℕ) : OwnKey → Option (Option (PropertyDescriptor (JsValue P)))
  | .named key => h.named.objects[obj]?.bind fun x => x.map.get h.named.shapes key
  | .index key => h.indexed[obj]?.map fun p => (p.get key.val).map (.map r.decode)

/-- `ordinary_get_prototype_of`. -/
def getPrototypeOf (obj : ℕ) : Option JsPrototype :=
  h.named.objects[obj]?.map fun x => h.named.shapes.prototype x.map.shape

/-- Insert a property into the maps of an object (`PropertyMap::insert`). -/
def insert (obj : ℕ) (key : OwnKey) (property : PropertyDescriptor (JsValue P)) :
    Option (OrdinaryHeap P W) :=
  match key with
  | .named key => (h.named.exec (.insert obj key property)).map fun named => { h with named }
  | .index key =>
      h.indexed[obj]?.map fun p =>
        { h with indexed := h.indexed.set obj (p.insert key.val (property.map r.encode)).2 }

/-- Remove a property from the maps of an object (`PropertyMap::remove`). -/
def remove (obj : ℕ) (key : OwnKey) : Option (OrdinaryHeap P W) :=
  match key with
  | .named key => (h.named.exec (.remove obj key)).map fun named => { h with named }
  | .index key =>
      h.indexed[obj]?.map fun p =>
        { h with indexed := h.indexed.set obj (p.remove key.val).2 }

/-- `validate_and_apply_property_descriptor`. -/
def validateAndApplyPropertyDescriptor (obj : ℕ) (key : OwnKey) (extensible : Bool)
    (desc : PropertyDescriptor (JsValue P)) (current : Option (PropertyDescriptor (JsValue P))) :
    Option (Bool × OrdinaryHeap P W) :=
  match current with
  | none =>
      if extensible then
        let property :=
          if desc.isGenericDescriptor || desc.isDataDescriptor then desc.intoDataDefaulted
          else desc.intoAccessorDefaulted
        (h.insert r obj key property).map fun h => (true, h)
      else some (false, h)
  | some current =>
      if desc.isEmpty then some (true, h)
      else if Verdict.expectsAbsent desc current then none
      else
        match Verdict.of desc current with
        | .reject => some (false, h)
        | .accept => some (true, h)
        | .fill current =>
            (current.fillWith desc).bind fun current =>
              (h.insert r obj key current).map fun h => (true, h)

/-- `ordinary_define_own_property`. -/
def ordinaryDefineOwnProperty (obj : ℕ) (key : OwnKey) (desc : PropertyDescriptor (JsValue P)) :
    Option (Bool × OrdinaryHeap P W) :=
  (h.getOwnProperty r obj key).bind fun current =>
    h.extensible[obj]?.bind fun extensible =>
      h.validateAndApplyPropertyDescriptor r obj key extensible desc current

/-- `ordinary_delete`. -/
def ordinaryDelete (obj : ℕ) (key : OwnKey) : Option (Bool × OrdinaryHeap P W) :=
  (h.getOwnProperty r obj key).bind fun
    | some desc =>
        if desc.configurable = some true then (h.remove obj key).map fun h => (true, h)
        else some (false, h)
    | none => some (true, h)

/-- The property that `[[Set]]` finds along the prototype chain, and the object that has
it. -/
def findProperty (key : OwnKey) : ℕ → ℕ → Option (ℕ × Option (PropertyDescriptor (JsValue P)))
  | 0, _ => none
  | fuel + 1, obj =>
      (h.getOwnProperty r obj key).bind fun
        | some desc => some (obj, some desc)
        | none =>
            (h.getPrototypeOf obj).bind fun
              | some parent => findProperty key fuel parent
              | none => some (obj, none)

/-- The part of `ordinary_set` that stores the value in a property of the receiver. -/
def setOnReceiver (receiver : ℕ) (key : OwnKey) (value : JsValue P)
    (existing : Option (PropertyDescriptor (JsValue P))) : Option (Bool × OrdinaryHeap P W) :=
  match existing with
  | some existing =>
      if existing.isAccessorDescriptor then some (false, h)
      else if existing.writable ≠ some true then some (false, h)
      else
        h.ordinaryDefineOwnProperty r receiver key
          { enumerable := none, configurable := none, kind := .data (some value) none }
  -- `create_data_property_with_slot`
  | none => h.ordinaryDefineOwnProperty r receiver key (.ofData value true true true)

/-- The part of `ordinary_set` after the climb (`OrdinarySetWithOwnDescriptor`): `holder` is
the last object looked at, and `found` its property. -/
def setWithOwnDescriptor (key : OwnKey) (value receiver : JsValue P) (holder : ℕ)
    (found : Option (PropertyDescriptor (JsValue P))) : Option (Answer P × OrdinaryHeap P W) :=
  let ownDesc := found.getD (.ofData .undefined true true true)
  if ownDesc.isDataDescriptor then
    if ownDesc.writable ≠ some true then some (.rejected, h)
    else
      match receiver with
      | .object receiver =>
          let existing :=
            if found.isSome && holder == receiver then some (some ownDesc)
            else h.getOwnProperty r receiver key
          (existing.bind (h.setOnReceiver r receiver key value)).map fun (done, h) =>
            (.ofBool done, h)
      | _ => some (.rejected, h)
  else
    match ownDesc.set with
    | some set => if set = .undefined then some (.rejected, h) else some (.setter set, h)
    | none => some (.rejected, h)

/-- `ordinary_set`. -/
def ordinarySet (obj : ℕ) (key : OwnKey) (value receiver : JsValue P) :
    Option (Answer P × OrdinaryHeap P W) :=
  (h.findProperty r key (h.named.objects.length + 1) obj).bind fun (holder, found) =>
    h.setWithOwnDescriptor r key value receiver holder found

/-- Handle a request. -/
def handle : Request P → Option (Answer P × OrdinaryHeap P W)
  | .defineOwnProperty obj key desc =>
      (h.ordinaryDefineOwnProperty r obj key desc).map fun (done, h) => (.ofBool done, h)
  | .set obj key value receiver => h.ordinarySet r obj key value receiver
  | .delete obj key => (h.ordinaryDelete r obj key).map fun (done, h) => (.ofBool done, h)

end OrdinaryHeap

end BoaLigero
