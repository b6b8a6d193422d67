import BoaLigero.Object.PropertyMap

/-!
# Internal Methods of Ordinary Objects

The essential internal methods of ordinary objects (`object/internal_methods/mod.rs`):
property definition with its validation, deletion, `[[Get]]`, `[[Set]]` and the change of
prototype. The named properties of an object are a property map; its prototype is that of
its shape. Objects are found by address in an `ObjectHeap`.

`[[Get]]` and `[[Set]]` climb the prototype chain in the same way and note on the way, in
the *slot* of the internal method's context, where the property was found and whether an
inline cache may remember it. The climb is `resolve`; it is cut off after a given number of
objects. A place where the source panics gives `none`.

A getter or setter is not called here: `GetResult` and `SetResult` say which function the
method calls. Primitive values are a type `P` on which `SameValue` is equality.
-/

namespace BoaLigero

/-- A JavaScript value: undefined, an object by its address, or another primitive value. -/
inductive JsValue (P : Type) where
  | undefined
  | primitive (value : P)
  | object (addr : ℕ)
  deriving DecidableEq, Repr

variable {P : Type}

instance : Inhabited (JsValue P) := ⟨.undefined⟩

namespace JsValue

/-- Whether the value is an object (`is_object`). -/
def isObject : JsValue P → Bool
  | object _ => true
  | _ => false

/-- Whether the value may be a getter or a setter: an object, or undefined for none. -/
def isAccessorFunction : JsValue P → Bool
  | primitive _ => false
  | _ => true

end JsValue

namespace PropertyDescriptor

/-- Whether every field is absent (`is_empty`). -/
def isEmpty {V : Type} (d : PropertyDescriptor V) : Bool :=
  d.isGenericDescriptor && d.enumerable.isNone && d.configurable.isNone

/-- A data descriptor with default values (`into_data_defaulted`). -/
def intoDataDefaulted (d : PropertyDescriptor (JsValue P)) : PropertyDescriptor (JsValue P) :=
  { kind := .data (some (d.value.getD .undefined)) (some (d.writable.getD false))
    configurable := some (d.configurable.getD false)
    enumerable := some (d.enumerable.getD false) }

/-- An accessor descriptor with default values (`into_accessor_defaulted`). -/
def intoAccessorDefaulted (d : PropertyDescriptor (JsValue P)) :
    PropertyDescriptor (JsValue P) :=
  { kind := .accessor (some (d.get.getD .undefined)) (some (d.set.getD .undefined))
    configurable := some (d.configurable.getD false)
    enumerable := some (d.enumerable.getD false) }

/-- Fill in the fields that `desc` has (`fill_with`); the source panics on descriptors of
different kinds. -/
def fillWith {V : Type} (d desc : PropertyDescriptor V) : Option (PropertyDescriptor V) :=
  let kind : Option (DescriptorKind V) :=
    match d.kind, desc.kind with
    | .data value writable, .data descValue descWritable =>
        some (.data (descValue.or value) (descWritable.or writable))
    | .accessor get set, .accessor descGet descSet =>
        some (.accessor (descGet.or get) (descSet.or set))
    | kind, .generic => some kind
    | _, _ => none
  kind.map fun kind =>
    { kind, enumerable := desc.enumerable.or d.enumerable
      configurable := desc.configurable.or d.configurable }

/-- What a language-level request for a property definition guarantees: a getter or setter
is a function or undefined. -/
def IsRequest (desc : PropertyDescriptor (JsValue P)) : Prop :=
  (∀ get ∈ desc.get, get.isAccessorFunction) ∧ ∀ set ∈ desc.set, set.isAccessorFunction

instance (desc : PropertyDescriptor (JsValue P)) : Decidable desc.IsRequest :=
  inferInstanceAs (Decidable (_ ∧ _))

end PropertyDescriptor

/-- What the checks of `validate_and_apply_property_descriptor` come to: the request is
rejected, or there is nothing to do, or the property, converted to the kind of the request
if need be, gets the fields of the request. -/
inductive Verdict (P : Type) where
  | reject
  | accept
  | fill (current : PropertyDescriptor (JsValue P))
  deriving DecidableEq

namespace Verdict

variable [DecidableEq P] (desc current : PropertyDescriptor (JsValue P))

/-- Whether a request changes a field of the property. -/
def changes {T : Type} [DecidableEq T] (requested actual : Option T) : Bool :=
  requested.isSome && requested != actual

/-- The checks on a property of the same kind as the request. -/
def ofSameKind : Verdict P :=
  if current.isDataDescriptor then
    if current.configurable = some false ∧ current.writable = some false then
      if desc.writable = some true ∨ changes desc.value current.value then .reject else .accept
    else .fill current
  else if current.configurable = some false then
    if changes desc.set current.set ∨ changes desc.get current.get then .reject else .accept
  else .fill current

/-- The checks on a property that is there. -/
def of : Verdict P :=
  if current.configurable = some false ∧
      (desc.configurable = some true ∨ changes desc.enumerable current.enumerable) then .reject
  else if desc.isGenericDescriptor then .fill current
  else if current.isDataDescriptor ≠ desc.isDataDescriptor then
    if current.configurable = some false then .reject
    else if current.isDataDescriptor then .fill current.intoAccessorDefaulted
    else .fill current.intoDataDefaulted
  else ofSameKind desc current

variable {desc current}

/-- What is filled in on a property of the same kind: the property, which has not lost the right to
change. -/
theorem ofSameKind_eq_fill {d : PropertyDescriptor (JsValue P)}
    (heq : ofSameKind desc current = .fill d) : d = current ∧
      (current.configurable = some false →
        current.isDataDescriptor = true ∧ current.writable ≠ some false) := by
  rw [ofSameKind] at heq
  split at heq
  · next hdata =>
      split at heq
      · split at heq <;> cases heq
      · next hwritable =>
          cases heq
          exact ⟨rfl, fun hc => ⟨hdata, fun hw => hwritable ⟨hc, hw⟩⟩⟩
  · split at heq
    · split at heq <;> cases heq
    · next hc =>
        cases heq
        exact ⟨rfl, fun h => absurd h hc⟩

/-- **What is filled in**: the property as it is, for a request of its kind or of none, or a
configurable property that was converted to the kind of the request. -/
theorem of_eq_fill {d : PropertyDescriptor (JsValue P)} (heq : of desc current = .fill d) :
    d = current ∧ (current.configurable = some false → desc.isGenericDescriptor = true ∨
          current.isDataDescriptor = true ∧ current.writable ≠ some false) ∨
      desc.isGenericDescriptor = false ∧ current.isDataDescriptor ≠ desc.isDataDescriptor ∧
        current.configurable ≠ some false ∧
          (d = current.intoAccessorDefaulted ∨ d = current.intoDataDefaulted) := by
  rw [of] at heq
  split at heq
  · cases heq
  split at heq
  · next hgeneric =>
      cases heq
      exact .inl ⟨rfl, fun _ => .inl hgeneric⟩
  next hgeneric =>
  rw [Bool.not_eq_true] at hgeneric
  split at heq
  · next hkind =>
      split at heq
      · cases heq
      next hc =>
      split at heq
      · cases heq
        exact .inr ⟨hgeneric, hkind, hc, .inl rfl⟩
      · cases heq
        exact .inr ⟨hgeneric, hkind, hc, .inr rfl⟩
  · obtain ⟨rfl, hkeeps⟩ := ofSameKind_eq_fill heq
    exact .inl ⟨rfl, fun h => .inr (hkeeps h)⟩

end Verdict

/-- An ordinary object: its named properties, which include the prototype, and whether it
is extensible. -/
structure JsObject (P : Type) where
  map : PropertyMap (JsValue P)
  extensible : Bool
  deriving DecidableEq, Repr

/-- The objects by address, and the state behind their shapes. -/
structure ObjectHeap (P : Type) where
  shapes : Shapes
  objects : List (JsObject P)

namespace Slot

/-- Note that the search goes on in a prototype: only the immediate prototype is cacheable
(`set_not_cacheable_if_already_prototype`, then the `PROTOTYPE` bit). -/
def enterPrototype (slot : Slot) : Slot :=
  { slot with attributes := { slot.attributes with
      notCacheable := slot.attributes.notCacheable || slot.attributes.inPrototype
      inPrototype := true } }

/-- Whether an inline cache may remember the slot (`is_cacheable`). -/
def isCacheable (slot : Slot) : Bool := !slot.attributes.notCacheable && slot.attributes.found

/-- A slot without the bits of the inline cache. -/
def bare (slot : Slot) : Slot :=
  { slot with attributes := { slot.attributes with
      inPrototype := false, found := false, notCacheable := false } }

/-- The slot an internal method starts with (`Slot::new`). -/
def new : Slot := { index := 0, attributes := .empty }

end Slot

/-- Where the climb along the prototype chain ended: the last object, its property if it
has one, and the slot. -/
structure Resolved (P : Type) where
  holder : ℕ
  desc : Option (PropertyDescriptor (JsValue P))
  slot : Slot
  deriving DecidableEq

/-- What `[[Get]]` comes to: a value, or the call of a getter on the receiver. -/
inductive GetResult (P : Type) where
  | value (value : JsValue P)
  | getter (get : JsValue P)
  deriving DecidableEq, Repr

/-- What `[[Set]]` comes to: a new heap, the call of a setter on the receiver and the value,
or neither. -/
inductive SetResult (P : Type) where
  | stored (heap : ObjectHeap P)
  | setter (set : JsValue P)
  | rejected

namespace ObjectHeap

variable [DecidableEq P] (h : ObjectHeap P)

/-- The shape of an object. -/
def shape (obj : ℕ) : Option Shape := h.objects[obj]?.map fun x => x.map.shape

/-- `ordinary_get_own_property`. -/
def ordinaryGetOwnProperty (obj : ℕ) (key : PropertyKey) (slot : Slot) :
    Option (Option (PropertyDescriptor (JsValue P)) × Slot) :=
  h.objects[obj]?.bind fun x => x.map.getWithSlot h.shapes key slot

/-- Insert a property into the map of an object. -/
def insertWithSlot (obj : ℕ) (key : PropertyKey) (property : PropertyDescriptor (JsValue P))
    (slot : Slot) : Option (Slot × ObjectHeap P) :=
  h.objects[obj]?.bind fun x =>
    (x.map.insertWithSlot h.shapes key property slot).map fun (_, slot, map, shapes) =>
      (slot, { shapes, objects := h.objects.set obj { x with map } })

/-- `validate_and_apply_property_descriptor` on a property of an object. -/
def validateAndApplyPropertyDescriptor (obj : ℕ) (key : PropertyKey) (extensible : Bool)
    (desc : PropertyDescriptor (JsValue P)) (current : Option (PropertyDescriptor (JsValue P)))
    (slot : Slot) : Option (Bool × Slot × ObjectHeap P) :=
  match current with
  | none =>
      if extensible then
        let property :=
          if desc.isGenericDescriptor || desc.isDataDescriptor then desc.intoDataDefaulted
          else desc.intoAccessorDefaulted
        (h.insertWithSlot obj key property slot).map fun (slot, h) => (true, slot, h)
      else some (false, slot, h)
  | some current =>
      if desc.isEmpty then some (true, slot, h)
      else
        match Verdict.of desc current with
        | .reject => some (false, slot, h)
        | .accept => some (true, slot, h)
        | .fill current =>
            (current.fillWith desc).bind fun current =>
              (h.insertWithSlot obj key current slot).map fun (slot, h) =>
                (true, { slot with attributes := { slot.attributes with found := true } }, h)

/-- `ordinary_define_own_property`. -/
def ordinaryDefineOwnProperty (obj : ℕ) (key : PropertyKey)
    (desc : PropertyDescriptor (JsValue P)) (slot : Slot) :
    Option (Bool × Slot × ObjectHeap P) :=
  h.objects[obj]?.bind fun x =>
    (h.ordinaryGetOwnProperty obj key slot).bind fun (current, slot) =>
      h.validateAndApplyPropertyDescriptor obj key x.extensible desc current slot

/-- The unique shape that a definition of `key` on an object extends in place, if it does:
the object has a unique shape, is extensible and lacks the key. -/
def addedInPlace (obj : ℕ) (key : PropertyKey) : Option (ℕ × PropertyKey) :=
  h.objects[obj]?.bind fun x =>
    match x.map.shape with
    | .unique addr =>
        if x.extensible && (h.shapes.lookup x.map.shape key).isNone then some (addr, key)
        else none
    | .shared _ => none

/-- `ordinary_delete`. -/
def ordinaryDelete (obj : ℕ) (key : PropertyKey) : Option (Bool × ObjectHeap P) :=
  h.objects[obj]?.bind fun x =>
    (h.ordinaryGetOwnProperty obj key .new).bind fun
      | (some desc, _) =>
          if desc.configurable = some true then
            (x.map.remove h.shapes key).map fun (_, map, shapes) =>
              (true, { shapes, objects := h.objects.set obj { x with map } })
          else some (false, h)
      | (none, _) => some (true, h)

/-- `ordinary_prevent_extensions`. -/
def ordinaryPreventExtensions (obj : ℕ) : Option (ObjectHeap P) :=
  h.objects[obj]?.map fun x =>
    { h with objects := h.objects.set obj { x with extensible := false } }

/-- Whether an object is met along a prototype chain (the loop of
`ordinary_set_prototype_of`). -/
def inChain (obj : ℕ) : ℕ → JsPrototype → Option Bool
  | _, none => some false
  | 0, some _ => none
  | fuel + 1, some proto =>
      if proto = obj then some true
      else h.objects[proto]?.bind fun x => inChain obj fuel (h.shapes.prototype x.map.shape)

/-- `ordinary_set_prototype_of`. -/
def ordinarySetPrototypeOf (obj : ℕ) (val : JsPrototype) : Option (Bool × ObjectHeap P) :=
  h.objects[obj]?.bind fun x =>
    if val = h.shapes.prototype x.map.shape then some (true, h)
    else if !x.extensible then some (false, h)
    else
      (h.inChain obj (h.objects.length + 1) val).map fun
        | true => (false, h)
        | false =>
            let (map, shapes) := x.map.setPrototype h.shapes val
            (true, { shapes, objects := h.objects.set obj { x with map } })

/-- The climb along the prototype chain that `ordinary_get` and `ordinary_set` share: until
an object has the property or has no prototype. -/
def resolve (key : PropertyKey) : ℕ → ℕ → Slot → Option (Resolved P)
  | 0, _, _ => none
  | fuel + 1, obj, slot =>
      h.objects[obj]?.bind fun x =>
        (x.map.getWithSlot h.shapes key slot).bind fun
          | (some desc, slot) => some { holder := obj, desc := some desc, slot }
          | (none, slot) =>
              match h.shapes.prototype x.map.shape with
              | some parent => resolve key fuel parent slot.enterPrototype
              | none => some { holder := obj, desc := none, slot }

/-- The climb from an object, as long as there are objects. -/
def lookup (obj : ℕ) (key : PropertyKey) : Option (Resolved P) :=
  h.resolve key (h.objects.length + 1) obj .new

/-- What is read from a property (the end of `ordinary_get`). -/
def getResult : Option (PropertyDescriptor (JsValue P)) → GetResult P
  | none => .value .undefined
  | some desc =>
      match desc.kind with
      | .data (some value) _ => .value value
      | .accessor (some get) _ => if get = .undefined then .value .undefined else .getter get
      | _ => .value .undefined

/-- `ordinary_get`, and the slot the property was found at. -/
def ordinaryGet (obj : ℕ) (key : PropertyKey) : Option (GetResult P × Slot) :=
  (h.lookup obj key).map fun r => (getResult r.desc, r.slot)

/-- The answer of `[[DefineOwnProperty]]` as one of `[[Set]]`. -/
def setResult : Bool × Slot × ObjectHeap P → SetResult P × Slot
  | (true, slot, h) => (.stored h, slot)
  | (false, slot, _) => (.rejected, slot)

/-- The part of `ordinary_set` that stores the value in a property of the receiver. -/
def setOnReceiver (receiver : ℕ) (key : PropertyKey) (value : JsValue P)
    (existing : Option (PropertyDescriptor (JsValue P))) (slot : Slot) :
    Option (SetResult P × Slot) :=
  match existing with
  | some existing =>
      if existing.isAccessorDescriptor then some (.rejected, slot)
      else if existing.writable ≠ some true then some (.rejected, slot)
      else
        (h.ordinaryDefineOwnProperty receiver key
          { enumerable := none, configurable := none, kind := .data (some value) none }
          slot).map setResult
  -- `create_data_property_with_slot`
  | none =>
      (h.ordinaryDefineOwnProperty receiver key (.ofData value true true true) slot).map setResult

/-- The part of `ordinary_set` after the climb (`OrdinarySetWithOwnDescriptor`). -/
def setWithOwnDescriptor (key : PropertyKey) (value receiver : JsValue P) (r : Resolved P) :
    Option (SetResult P × Slot) :=
  -- A property that is not on the prototype chain counts as one of the object.
  let slot := if r.desc.isSome then r.slot else
    { r.slot with attributes := { r.slot.attributes with
        inPrototype := false, notCacheable := false } }
  let ownDesc := r.desc.getD (.ofData .undefined true true true)
  if ownDesc.isDataDescriptor then
    if ownDesc.writable ≠ some true then some (.rejected, slot)
    else
      match receiver with
      | .object receiver =>
          let slot := { slot with attributes := { slot.attributes with
            notCacheable := r.holder != receiver } }
          if r.desc.isSome && r.holder == receiver then
            h.setOnReceiver receiver key value (some ownDesc) slot
          else
            (h.ordinaryGetOwnProperty receiver key slot).bind fun (existing, slot) =>
              h.setOnReceiver receiver key value existing slot
      | _ => some (.rejected, slot)
  else
    match ownDesc.set with
    | some set =>
        if set = .undefined then some (.rejected, slot) else some (.setter set, slot)
    | none => some (.rejected, slot)

/-- `ordinary_set`, and the slot the property was found at. -/
def ordinarySet (obj : ℕ) (key : PropertyKey) (value receiver : JsValue P) :
    Option (SetResult P × Slot) :=
  (h.lookup obj key).bind (h.setWithOwnDescriptor key value receiver)

end ObjectHeap

end BoaLigero
