import BoaLigero.Util.Run
import BoaLigero.Object.PrototypeChain

/-!
# Inline Caches

The inline cache of a named property access (`vm/inline_cache/mod.rs`) and the two
operations that use it, `get_by_name` and `set_by_name` (`vm/opcode/get/property.rs`,
`vm/opcode/set/property.rs`). A cache remembers, for a shape of the receiver, the slot at
which the property was found: in the receiver itself, or in its immediate prototype, whose
shape is then remembered too. A hit reads or writes the storage cell directly.

A site is one instruction: it either reads or writes, always the same name. `SiteWorld` is
a site with the objects around it. A getter or setter called on a miss runs arbitrary code
before the cache is filled, so a miss that calls one is left `pending`: other steps happen,
accesses at the same site included, and then it finishes or throws.

Shapes stand for their addresses, which are not reused while a shape is referred to; the
liveness check that pairs with every comparison of addresses is `isUpgradable`, and a
collection may leave any shapes alive. What a strict-mode program sees of a failed
assignment is not modelled.

## Main definitions

* `InlineCache.get`, `InlineCache.set` — looking a shape up, and remembering a slot.
* `getByName`, `setByName` — an access at the site.
* `SiteWorld.Coherent` — a hit does what the internal method would do.
-/

namespace BoaLigero

/-- A cached shape-to-slot mapping (`CacheEntry`). -/
structure CacheEntry where
  shape : Shape
  /-- The shape of the immediate prototype that owned an inherited property. -/
  prototypeShape : Option Shape
  slot : Slot
  deriving DecidableEq, Repr

/-- An inline cache entry for a property access (`InlineCache`). -/
structure InlineCache where
  entries : List CacheEntry
  megamorphic : Bool
  deriving DecidableEq, Repr

/-- The number of shapes a cache remembers (`PIC_CAPACITY`). -/
def InlineCache.picCapacity : ℕ := 4

/-- Whether an instruction reads a property or writes it. -/
inductive AccessKind where
  | get
  | set
  deriving DecidableEq, Repr

/-- A bytecode site: its name, and what it does. -/
structure Site where
  name : PropertyKey
  kind : AccessKind
  deriving DecidableEq, Repr

/-- An access that called a getter or a setter and has not returned. -/
inductive PendingAccess where
  /-- A read: the shape of the receiver at lookup time, if the cache is to be seeded, and the
  slot that was found. -/
  | get (lookupShape : Option Shape) (slot : Slot)
  /-- A write: the object, and the slot that was found. -/
  | set (obj : ℕ) (slot : Slot)
  deriving DecidableEq, Repr

/-- Whether a read under way found the name on the prototype of a unique shape. -/
def PendingAccess.reliesOn (addr : ℕ) : PendingAccess → Bool
  | .get (some shape) slot =>
      shape == .unique addr && slot.isCacheable && slot.attributes.inPrototype
  | _ => false

/-- The cache of a site, the accesses at the site that are under way, and the objects. -/
structure SiteWorld (P : Type) where
  heap : ObjectHeap P
  cache : InlineCache
  /-- Innermost first. -/
  pending : List PendingAccess
  /-- Which unique shapes were collected. -/
  collected : ℕ → Bool

/-- What happens around a site. -/
inductive SiteLabel (P : Type) where
  | newUnique (prototype : JsPrototype)
  | newShared (prototype : JsPrototype)
  | define (obj : ℕ) (key : PropertyKey) (desc : PropertyDescriptor (JsValue P))
  | delete (obj : ℕ) (key : PropertyKey)
  | setPrototype (obj : ℕ) (val : JsPrototype)
  | preventExtensions (obj : ℕ)
  /-- A collection of shapes. -/
  | collect (alive collected : ℕ → Bool)
  /-- A read at the site. A primitive is read through the object that is its base class;
  only objects are looked up in the cache. -/
  | get (obj : ℕ) (primitive : Bool)
  /-- A write at the site. -/
  | set (obj : ℕ) (receiver value : JsValue P)
  /-- The innermost getter or setter called by a miss returns. -/
  | finish
  /-- The innermost getter or setter called by a miss throws. -/
  | abort

variable {P : Type} [DecidableEq P]

namespace ObjectHeap

variable (h : ObjectHeap P)

/-- The object whose storage a cached slot refers to. -/
def slotHolder (obj : ℕ) (slot : Slot) : Option ℕ :=
  if slot.attributes.inPrototype then (h.shape obj).bind h.shapes.prototype else some obj

/-- A hit of `get_by_name`. -/
def getThrough (obj : ℕ) (slot : Slot) : Option (GetResult P) :=
  (h.slotHolder obj slot).bind fun holder =>
    h.objects[holder]?.bind fun x =>
      x.map.storage[slot.index]?.map fun result =>
        if slot.attributes.get && result.isObject then .getter result else .value result

/-- A hit of `set_by_name`: a slot without a callable setter is left alone. -/
def setThrough (obj : ℕ) (slot : Slot) (value : JsValue P) : Option (SetResult P) :=
  (h.slotHolder obj slot).bind fun holder =>
    h.objects[holder]?.bind fun x =>
      if slot.attributes.isAccessorDescriptor then
        x.map.storage[slot.index + 1]?.map fun result =>
          if slot.attributes.set && result.isObject then .setter result else .rejected
      else
        (Storage.write x.map.storage slot.index value).map fun storage =>
          .stored { h with objects := h.objects.set holder { x with
            map := { x.map with storage } } }

end ObjectHeap

namespace SiteWorld

variable (site : Site) (w : SiteWorld P)

/-- Whether a weakly held shape was not collected (`is_upgradable`). -/
def isUpgradable : Shape → Bool
  | .shared shape => w.heap.shapes.shared.alive shape.addr
  | .unique addr => !w.collected addr

/-- Fused address and liveness check (`CacheEntry::matches`). -/
def entryMatches (e : CacheEntry) (shape : Shape) : Bool :=
  e.shape == shape && w.isUpgradable e.shape &&
    match e.prototypeShape with
    | none => true
    | some expected =>
        match (w.heap.shapes.prototype shape).bind w.heap.shape with
        | some prototypeShape => expected == prototypeShape && w.isUpgradable expected
        | none => false

/-- Fast lookup (`InlineCache::get`). -/
def cacheGet (shape : Shape) : Option Slot :=
  if w.cache.megamorphic then none
  else (w.cache.entries.find? fun e => w.entryMatches e shape).map CacheEntry.slot

/-- The shape of the prototype that a new entry records: the inner `none` is an own slot,
the outer one an object without prototype. -/
def recordedPrototype (shape : Shape) (slot : Slot) : Option (Option Shape) :=
  if slot.attributes.inPrototype then
    ((w.heap.shapes.prototype shape).bind w.heap.shape).map some
  else some none

/-- Cache a shape and a slot (`InlineCache::set`). -/
def cacheSet (shape : Shape) (slot : Slot) : InlineCache :=
  if w.cache.megamorphic then w.cache
  else
    let entries := w.cache.entries.filter fun e => w.isUpgradable e.shape
    match w.recordedPrototype shape slot with
    | none => { w.cache with entries }
    | some prototypeShape =>
        if entries.length < InlineCache.picCapacity then
          { w.cache with entries := entries ++ [{ shape, prototypeShape, slot }] }
        -- Too many shapes: stop caching.
        else { entries := [], megamorphic := true }

/-- The end of a read that missed. -/
def seedGet (lookupShape : Option Shape) (slot : Slot) : SiteWorld P :=
  match lookupShape with
  | some shape => if slot.isCacheable then { w with cache := w.cacheSet shape slot } else w
  | none => w

/-- The end of a successful write that missed: the object's shape is taken now. -/
def seedSet (obj : ℕ) (slot : Slot) : SiteWorld P :=
  match w.heap.shape obj with
  | some shape => if slot.isCacheable then { w with cache := w.cacheSet shape slot } else w
  | none => w

/-- `get_by_name` on an object, or on a primitive whose base class it is. -/
def getByName (obj : ℕ) (primitive : Bool) : Option (SiteWorld P) :=
  (w.heap.shape obj).bind fun shape =>
    match if primitive then none else w.cacheGet shape with
    | some slot => (w.heap.getThrough obj slot).map fun _ => w
    | none =>
        let lookupShape := if w.cache.megamorphic then none else some shape
        (w.heap.ordinaryGet obj site.name).map fun
          | (.value _, slot) => w.seedGet lookupShape slot
          | (.getter _, slot) => { w with pending := .get lookupShape slot :: w.pending }

/-- `set_by_name`. -/
def setByName (obj : ℕ) (receiver value : JsValue P) : Option (SiteWorld P) :=
  (w.heap.shape obj).bind fun shape =>
    match w.cacheGet shape with
    | some slot =>
        (w.heap.setThrough obj slot value).map fun
          | .stored heap => { w with heap }
          | _ => w
    | none =>
        (w.heap.ordinarySet obj site.name value receiver).map fun
          | (.stored heap, slot) => { w with heap }.seedSet obj slot
          | (.setter _, slot) => { w with pending := .set obj slot :: w.pending }
          | (.rejected, _) => w

/-- The innermost pending access seeds the cache. -/
def finish : Option (SiteWorld P) :=
  match w.pending with
  | [] => none
  | .get lookupShape slot :: pending => some ({ w with pending }.seedGet lookupShape slot)
  | .set obj slot :: pending => some ({ w with pending }.seedSet obj slot)

/-- The step function. -/
def exec : SiteLabel P → Option (SiteWorld P)
  | .newUnique prototype =>
      let (shape, shapes) := w.heap.shapes.newUnique prototype .empty
      some { w with heap := { shapes, objects := w.heap.objects ++
        [{ map := { shape, storage := [] }, extensible := true }] } }
  | .newShared prototype =>
      let (shape, shared) :=
        w.heap.shapes.shared.changePrototypeTransition ShapeHeap.rootShape prototype
      some { w with heap :=
        { shapes := { w.heap.shapes with shared }, objects := w.heap.objects ++
          [{ map := { shape := .shared shape, storage := [] }, extensible := true }] } }
  | .define obj key desc =>
      if desc.IsRequest then
        (w.heap.ordinaryDefineOwnProperty obj key desc .new).map fun (_, _, heap) => { w with heap }
      else none
  | .delete obj key => (w.heap.ordinaryDelete obj key).map fun (_, heap) => { w with heap }
  | .setPrototype obj val =>
      (w.heap.ordinarySetPrototypeOf obj val).map fun (_, heap) => { w with heap }
  | .preventExtensions obj =>
      (w.heap.ordinaryPreventExtensions obj).map fun heap => { w with heap }
  | .collect alive collected =>
      some { w with
        heap := { w.heap with shapes := { w.heap.shapes with
          shared := { w.heap.shapes.shared with alive } } }
        collected := fun addr => collected addr && decide (addr < w.heap.shapes.uniques.length) }
  | .get obj primitive => if site.kind = .get then w.getByName site obj primitive else none
  | .set obj receiver value =>
      if site.kind = .set then w.setByName site obj receiver value else none
  | .finish => w.finish
  | .abort => w.pending.tail?.map fun pending => { w with pending }

/-- An empty cache and no objects. -/
def initial : SiteWorld P where
  heap := { shapes := ⟨.initial, []⟩, objects := [] }
  cache := { entries := [], megamorphic := false }
  pending := []
  collected := fun _ => false

/-- All runs around a site. -/
def system (P : Type) [DecidableEq P] (site : Site) :
    TransitionSystem (SiteWorld P) (SiteLabel P) where
  init w := w = initial
  step w l w' := w.exec site l = some w'

/-! ### Coherence -/

/-- The site's name is found as an accessor on the prototype chain of an object. -/
def meetsAccessor (obj : ℕ) : Bool :=
  (w.heap.lookup obj site.name).any fun r => r.desc.any PropertyDescriptor.isAccessorDescriptor

/-- A receiver other than the object fits a write if an accessor is met, or if the object's
shape is not cached and the receiver is not where the property is found. -/
def ReceiverFits (obj : ℕ) (receiver : JsValue P) : Prop :=
  receiver = .object obj ∨ w.meetsAccessor site obj = true ∨
    ((∀ e ∈ w.cache.entries, w.heap.shape obj ≠ some e.shape) ∧
      ∀ r ∈ w.heap.lookup obj site.name, r.desc.isSome → receiver ≠ .object r.holder)

/-- **Coherence of a read site**: whenever the cache has a slot for the shape of an object,
what a hit reads is what `[[Get]]` would give at that moment. -/
def GetCoherent : Prop :=
  ∀ obj shape slot, w.heap.shape obj = some shape → w.cacheGet shape = some slot →
    ∃ result slot', w.heap.getThrough obj slot = some result ∧
      w.heap.ordinaryGet obj site.name = some (result, slot')

/-- **Coherence of a write site**: whenever the cache has a slot for the shape of an object, a
hit writes the cell, or calls the setter, that `[[Set]]` would at that moment. -/
def SetCoherent : Prop :=
  ∀ obj shape slot receiver value, w.heap.shape obj = some shape → w.cacheGet shape = some slot →
    w.ReceiverFits site obj receiver →
      ∃ result slot', w.heap.setThrough obj slot value = some result ∧
        w.heap.ordinarySet obj site.name value receiver = some (result, slot')

/-- A hit does what the internal method would do. -/
def Coherent : Prop :=
  match site.kind with
  | .get => w.GetCoherent site
  | .set => w.SetCoherent site

/-! ### The condition on steps -/

/-- A cache entry, or a read under way, relies on a unique shape not having the name, which
it found on the prototype. -/
def Watches (addr : ℕ) : Prop :=
  (∃ e ∈ w.cache.entries, e.shape = .unique addr ∧ e.prototypeShape.isSome) ∨
    ∃ p ∈ w.pending, p.reliesOn addr = true

/-- The name is still where it was found, seen from a shape. -/
def StillAt (shape : Shape) (slot : Slot) : Prop :=
  if slot.attributes.inPrototype then
    ∀ prototypeShape ∈ (w.heap.shapes.prototype shape).bind w.heap.shape,
      w.heap.shapes.lookup shape site.name = none ∧
        w.heap.shapes.lookup prototypeShape site.name = some slot.bare
  else w.heap.shapes.lookup shape site.name = some slot.bare

/-- The definition of the site's name on an object does not extend a watched shape in
place. -/
def AddsUnwatched (obj : ℕ) (key : PropertyKey) : Prop :=
  ∀ added ∈ w.heap.addedInPlace obj key, added.2 = site.name → ¬ w.Watches added.1

/-- The same for the receiver of a write. -/
def ReceiverUnwatched : JsValue P → Prop
  | .object receiver => w.AddsUnwatched site receiver site.name
  | _ => True

/-- The name is still where it was found when a pending access returns. -/
def ReturnFits : Option PendingAccess → Prop
  | some (.get (some shape) slot) =>
      slot.isCacheable → w.heap.InUse shape → w.StillAt site shape slot
  | some (.set obj slot) =>
      slot.isCacheable → ∀ shape ∈ w.heap.shape obj, w.StillAt site shape slot
  | _ => True

/-- The condition on a step. A definition of the name does not extend a watched unique shape;
a write fits its receiver; and when a getter or setter called by a miss returns, the name is
still where it was found. -/
def StepFits : SiteLabel P → Prop
  | .define obj key _ => w.AddsUnwatched site obj key
  | .set obj receiver _ => w.ReceiverFits site obj receiver ∧
      (w.meetsAccessor site obj = true ∨ w.ReceiverUnwatched site receiver)
  | .finish => w.ReturnFits site w.pending.head?
  | _ => True

end SiteWorld

end BoaLigero
