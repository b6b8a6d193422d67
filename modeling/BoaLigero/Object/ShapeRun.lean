import BoaLigero.Util.Run
import BoaLigero.Object.Rollback

/-!
# Shape Transitions against an Ordered Map

What shared shapes are for: a shape stands for an ordered map from property keys to
attributes, together with a prototype. A `ShapeWorld` holds any number of shapes, each
with the map obtained by performing the same operations on plain ordered maps; any shape
may be continued at any time, so that chains share prefixes and tables in every way, and
the collector may run between any two operations.

The other properties of a shape survive a removal or a conversion between data and
accessor exactly when the walk back along the chain records their present attributes
(`ShapeHeap.Kept`). Everything else about a shape — the order and the presence of its
properties, the attributes assigned last, the prototype — is always right, and no
operation fails.

## Main results

* `perform_spec` — one operation against the ordered map.
* `shapes_track_properties` — all runs whose removals and conversions keep the other
  properties agree with the ordered maps, and the next operation agrees exactly when it
  keeps them too.
* `not_forall_shapes_agree` — the other runs need not agree.
-/

namespace BoaLigero

/-- The operations on a shape. -/
inductive ShapeOp where
  | insertProperty (key : TransitionKey)
  | changeAttributes (key : TransitionKey)
  | changePrototype (prototype : JsPrototype)
  | removeProperty (key : PropertyKey)
  deriving DecidableEq, Repr

/-- What a shape stands for. -/
@[ext] structure ShapeReference where
  prototype : JsPrototype
  properties : OrderedMap PropertyKey SlotAttributes

namespace ShapeReference

/-- The reference of the root shape. -/
def root : ShapeReference := ⟨none, .empty⟩

/-- An operation, on the ordered map. -/
def apply (r : ShapeReference) : ShapeOp → ShapeReference
  | .insertProperty key =>
      { r with properties := r.properties.insert key.propertyKey key.attributes }
  | .changeAttributes key =>
      { r with properties := r.properties.insert key.propertyKey key.attributes }
  | .changePrototype prototype => { r with prototype }
  | .removeProperty key => { r with properties := r.properties.erase key }

/-- What the callers of an operation ensure: only absent properties are inserted, only
present ones are changed or removed. -/
def Admits (r : ShapeReference) : ShapeOp → Prop
  | .insertProperty key => key.propertyKey ∉ r.properties.keys
  | .changeAttributes key => key.propertyKey ∈ r.properties.keys
  | .changePrototype _ => True
  | .removeProperty key => key ∈ r.properties.keys

instance (r : ShapeReference) (op : ShapeOp) : Decidable (r.Admits op) := by
  cases op <;> unfold Admits <;> infer_instance

end ShapeReference

namespace ShapeHeap

/-- An operation on a shape of the heap. -/
def perform (h : ShapeHeap) (s : SharedShape) : ShapeOp → Option (SharedShape × ShapeHeap)
  | .insertProperty key => some (h.insertPropertyTransition s key)
  | .changeAttributes key => (h.changeAttributesTransition s key).map fun r => (r.1.1, r.2)
  | .changePrototype prototype => some (h.changePrototypeTransition s prototype)
  | .removeProperty key => h.removePropertyTransition s key

/-- The operation leaves the other properties as they are: it is not a removal and not a
conversion between data and accessor, or the walk back records the present attributes of
every other property. -/
def Preserves (h : ShapeHeap) (s : SharedShape) : ShapeOp → Prop
  | .insertProperty _ => True
  | .changeAttributes key =>
      (∀ b ∈ (h.propertyList s).lookup key.propertyKey, b.widthMatch key.attributes) ∨
        h.Kept s key.propertyKey
  | .changePrototype _ => True
  | .removeProperty key => h.Kept s key

instance (h : ShapeHeap) (s : SharedShape) : ∀ op, Decidable (h.Preserves s op)
  | .insertProperty _ => .isTrue trivial
  | .changeAttributes _ => inferInstanceAs (Decidable (_ ∨ _))
  | .changePrototype _ => .isTrue trivial
  | .removeProperty key => inferInstanceAs (Decidable (h.Kept s key))

end ShapeHeap

/-- A shape with the ordered map it should stand for. -/
structure ShapeHandle where
  shape : SharedShape
  reference : ShapeReference

namespace ShapeHandle

/-- The shape stands for its reference: the same prototype and the same ordered list of
keys and attributes. -/
def Agrees (h : ShapeHeap) (x : ShapeHandle) : Prop :=
  h.propertyList x.shape = x.reference.properties.entries ∧
    x.shape.prototype = x.reference.prototype

instance (h : ShapeHeap) (x : ShapeHandle) : Decidable (x.Agrees h) :=
  inferInstanceAs (Decidable (_ ∧ _))

end ShapeHandle

/-- A heap with the shapes in use. -/
structure ShapeWorld where
  heap : ShapeHeap
  handles : List ShapeHandle

/-- What happens to the shapes. -/
inductive ShapeLabel where
  /-- An operation on the shape of handle `i`, whose result is a new handle. -/
  | perform (i : ℕ) (op : ShapeOp)
  /-- A collection. Which shapes are still in use is not tracked: it may leave any set of
  shapes alive, which covers every collection. -/
  | collect (alive : ℕ → Bool)

namespace ShapeWorld

/-- The step relation of the shapes. -/
inductive Step : ShapeWorld → ShapeLabel → ShapeWorld → Prop
  | perform {w : ShapeWorld} {i : ℕ} {x : ShapeHandle} {op : ShapeOp} {s' : SharedShape}
      {h' : ShapeHeap} (hx : w.handles[i]? = some x) (hallowed : x.reference.Admits op)
      (hperform : w.heap.perform x.shape op = some (s', h')) :
      Step w (.perform i op) ⟨h', w.handles ++ [⟨s', x.reference.apply op⟩]⟩
  | collect {w : ShapeWorld} (alive : ℕ → Bool) :
      Step w (.collect alive) ⟨{ w.heap with alive := alive }, w.handles⟩

/-- The world with the root shape alone. -/
def initial : ShapeWorld := ⟨.initial, [⟨ShapeHeap.rootShape, .root⟩]⟩

/-- All runs of shape operations, starting at the root shape. -/
def system : TransitionSystem ShapeWorld ShapeLabel where
  init w := w = initial
  step := Step

/-- The condition on a step: an operation preserves the other properties of its shape. -/
def StepPreserves (w : ShapeWorld) : ShapeLabel → Prop
  | .perform i op => ∀ x ∈ w.handles[i]?, w.heap.Preserves x.shape op
  | .collect _ => True

instance (w : ShapeWorld) : ∀ l, Decidable (w.StepPreserves l)
  | .perform i op => inferInstanceAs (Decidable (∀ x ∈ w.handles[i]?, w.heap.Preserves x.shape op))
  | .collect _ => .isTrue trivial

/-- The invariant of the runs. -/
structure Inv (w : ShapeWorld) : Prop where
  wf : w.heap.WF
  valid : ∀ x ∈ w.handles, w.heap.Valid x.shape
  agrees : ∀ x ∈ w.handles, x.Agrees w.heap

end ShapeWorld

namespace ShapeHeap

variable {h h' : ShapeHeap}

/-- **One operation against the ordered map.** It never fails; the shape it leads to stands
for the updated map exactly when the operation preserves the other properties. -/
theorem perform_spec (wf : h.WF) {x : ShapeHandle} (hv : h.Valid x.shape) (hx : x.Agrees h)
    {op : ShapeOp} (hallowed : x.reference.Admits op) :
    ∃ s' h', h.perform x.shape op = some (s', h') ∧ h'.WF ∧ h.Extends h' ∧ h'.Valid s' ∧
      (ShapeHandle.Agrees h' ⟨s', x.reference.apply op⟩ ↔ h.Preserves x.shape op) := by
  obtain ⟨s, r⟩ := x
  obtain ⟨hlist, hproto⟩ := hx
  dsimp only at hv hlist hproto hallowed ⊢
  have hkeys : r.properties.keys = Assoc.keys (h.propertyList s) := by
    rw [hlist, OrderedMap.keys]
  cases op with
  | insertProperty key =>
      obtain ⟨s', h', heq⟩ : ∃ s' h', h.insertPropertyTransition s key = (s', h') :=
        ⟨_, _, rfl⟩
      have hk : key.propertyKey ∉ Assoc.keys (h.propertyList s) := hkeys ▸ hallowed
      have hspec := insertPropertyTransition_spec wf hv hk heq
      refine ⟨s', h', by simp [perform, heq], hspec.wf, hspec.extends_heap, hspec.valid, ?_⟩
      refine iff_of_true ⟨?_, ?_⟩ trivial
      · rw [hspec.list_eq, ← Assoc.assign_of_notMem hk, hlist]
        rfl
      · exact hspec.prototype_eq.trans hproto
  | changeAttributes key =>
      obtain ⟨b, hb⟩ := Assoc.exists_lookup_of_mem (hkeys ▸ hallowed :
        key.propertyKey ∈ Assoc.keys (h.propertyList s))
      by_cases hw : b.widthMatch key.attributes
      · obtain ⟨s', h', heq, hspec⟩ := changeAttributesTransition_of_widthMatch wf hv hb hw
        refine ⟨s', h', by simp [perform, heq], hspec.wf, hspec.extends_heap, hspec.valid, ?_⟩
        refine iff_of_true ⟨?_, hspec.prototype_eq.trans hproto⟩ (.inl fun c hc => ?_)
        · rw [hspec.list_eq, hlist]
          rfl
        · rw [hb] at hc
          exact Option.some.inj hc ▸ hw
      · obtain ⟨s', h', pre, post, heq, hspec, hreb⟩ :=
          changeAttributesTransition_of_not_widthMatch wf hv hb hw
        refine ⟨s', h', by simp [perform, heq], hspec.wf, hspec.extends_heap, hspec.valid, ?_⟩
        have hiff := converted_eq_iff wf hreb key.attributes
        rw [← hspec.list_eq, hlist] at hiff
        constructor
        · exact fun hagrees => .inr (hiff.mp hagrees.1)
        · rintro (hall | hkept)
          · exact absurd (hall b hb) hw
          · exact ⟨hiff.mpr hkept, hspec.prototype_eq.trans hproto⟩
  | changePrototype prototype =>
      obtain ⟨s', h', heq⟩ : ∃ s' h', h.changePrototypeTransition s prototype = (s', h') :=
        ⟨_, _, rfl⟩
      have hspec := changePrototypeTransition_spec wf hv heq
      refine ⟨s', h', by simp [perform, heq], hspec.wf, hspec.extends_heap, hspec.valid, ?_⟩
      exact iff_of_true ⟨hspec.list_eq.trans hlist, hspec.prototype_eq⟩ trivial
  | removeProperty key =>
      have hk : key ∈ Assoc.keys (h.propertyList s) :=
        hkeys ▸ (show key ∈ r.properties.keys from hallowed)
      obtain ⟨s', h', pre, post, heq, hspec, hreb⟩ := removePropertyTransition_spec wf hv hk
      refine ⟨s', h', by simp [perform, heq], hspec.wf, hspec.extends_heap, hspec.valid, ?_⟩
      have hiff := removed_eq_iff wf hreb
      rw [← hspec.list_eq, hlist] at hiff
      constructor
      · exact fun hagrees => hiff.mp hagrees.1
      · exact fun hkept => ⟨hiff.mpr hkept, hspec.prototype_eq.trans hproto⟩

end ShapeHeap

namespace ShapeWorld

variable {w w' : ShapeWorld}

/-- The root shape stands for the empty map. -/
theorem inv_initial : initial.Inv := by
  refine ⟨ShapeHeap.wf_initial, ?_, ?_⟩
  · intro x hx
    rw [List.mem_singleton.mp hx]
    rfl
  · intro x hx
    rw [List.mem_singleton.mp hx]
    exact ⟨rfl, rfl⟩

/-- Every preserving step keeps the invariant. -/
theorem Inv.step (inv : w.Inv) {l : ShapeLabel} (hok : w.StepPreserves l)
    (hstep : Step w l w') : w'.Inv := by
  cases hstep with
  | perform hx hallowed hperform =>
      have hmem := List.mem_of_getElem? hx
      obtain ⟨s', h', heq, hwf, hext, hvalid, hiff⟩ :=
        ShapeHeap.perform_spec inv.wf (inv.valid _ hmem) (inv.agrees _ hmem) hallowed
      obtain ⟨rfl, rfl⟩ := Prod.mk.inj (Option.some.inj (hperform.symm.trans heq))
      refine ⟨hwf, fun y hy => ?_, fun y hy => ?_⟩
      · rcases List.mem_append.mp hy with hy | hy
        · exact hext.valid (inv.valid y hy)
        · rw [List.mem_singleton.mp hy]
          exact hvalid
      · rcases List.mem_append.mp hy with hy | hy
        · refine ⟨?_, (inv.agrees y hy).2⟩
          rw [hext.propertyList_eq inv.wf (inv.valid y hy)]
          exact (inv.agrees y hy).1
        · rw [List.mem_singleton.mp hy]
          exact hiff.mpr (hok _ hx)
  | collect alive =>
      exact ⟨inv.wf.withAlive alive, inv.valid, inv.agrees⟩

/-- **Shapes track their properties.** In every run whose removals and conversions preserve
the other properties, every shape stands for the ordered map on which the same operations
were performed; and the next operation on any of them, whatever it is, returns a shape that
stands for the updated map if and only if it preserves the other properties. -/
theorem shapes_track_properties (run : system.Run StepPreserves w) :
    (∀ x ∈ w.handles, x.Agrees w.heap) ∧
      ∀ x ∈ w.handles, ∀ op, x.reference.Admits op →
        ∃ s' h', w.heap.perform x.shape op = some (s', h') ∧
          (ShapeHandle.Agrees h' ⟨s', x.reference.apply op⟩ ↔
            w.heap.Preserves x.shape op) := by
  have inv : w.Inv := run.invariant (fun s hs => hs ▸ inv_initial)
    fun s l s' hinv hok hstep => hinv.step hok hstep
  refine ⟨inv.agrees, fun x hx op hallowed => ?_⟩
  obtain ⟨s', h', heq, -, -, -, hiff⟩ :=
    ShapeHeap.perform_spec inv.wf (inv.valid x hx) (inv.agrees x hx) hallowed
  exact ⟨s', h', heq, hiff⟩

/-! ### Particular runs -/

/-- Perform an operation on the shape of handle `i`, if the reference admits it. -/
def performAt (w : ShapeWorld) (i : ℕ) (op : ShapeOp) : Option ShapeWorld :=
  match w.handles[i]? with
  | none => none
  | some x =>
      if x.reference.Admits op then
        (w.heap.perform x.shape op).map fun r =>
          ⟨r.2, w.handles ++ [⟨r.1, x.reference.apply op⟩]⟩
      else none

/-- Perform operations one after the other, each on the newest handle, as long as the step
conditions hold. -/
def performAll (check : ShapeWorld → ShapeLabel → Bool) (w : ShapeWorld) :
    List ShapeOp → Option ShapeWorld
  | [] => some w
  | op :: ops =>
      let i := w.handles.length - 1
      if check w (.perform i op) then
        (w.performAt i op).bind fun w => w.performAll check ops
      else none

/-- Performing an operation is a step. -/
theorem step_performAt {i : ℕ} {op : ShapeOp} (heq : w.performAt i op = some w') :
    Step w (.perform i op) w' := by
  rw [performAt] at heq
  split at heq
  · cases heq
  · next x hx =>
      split at heq
      · next hallowed =>
          obtain ⟨⟨s', h'⟩, hperform, rfl⟩ := Option.map_eq_some_iff.mp heq
          exact .perform hx hallowed hperform
      · cases heq

/-- Performing operations is a run under the step conditions. -/
theorem run_performAll {check : ShapeWorld → ShapeLabel → Bool}
    (hw : system.Run (fun w l => check w l) w) {ops : List ShapeOp}
    (heq : w.performAll check ops = some w') : system.Run (fun w l => check w l) w' := by
  induction ops generalizing w with
  | nil => exact Option.some.inj heq ▸ hw
  | cons op ops ih =>
      rw [performAll] at heq
      split at heq
      · next hok =>
          obtain ⟨w₁, hperform, hrest⟩ := Option.bind_eq_some_iff.mp heq
          exact ih (hw.next hok (step_performAt hperform)) hrest
      · cases heq

/-- The attributes of an ordinary data property, writable or not. -/
def dataAttributes (writable : Bool) : SlotAttributes :=
  { writable, enumerable := true, configurable := true }

/-- A property made read-only while it is the newest one, another property, and the removal
of that one. -/
def keptOps : List ShapeOp :=
  [.insertProperty ⟨.string "a", dataAttributes true⟩,
    .changeAttributes ⟨.string "a", dataAttributes false⟩,
    .insertProperty ⟨.string "b", dataAttributes true⟩,
    .removeProperty (.string "b")]

/-- The shapes after `keptOps`. -/
def keptWorld : ShapeWorld :=
  (initial.performAll (fun w l => decide (w.StepPreserves l)) keptOps).getD initial

/-- The result of `keptOps` is the read-only property alone. -/
theorem shapes_track_properties_keptWorld :
    (keptWorld.handles.map fun x => keptWorld.heap.propertyList x.shape)[4]? =
        some [(.string "a", dataAttributes false)] ∧
      keptWorld.handles.Forall fun x => x.Agrees keptWorld.heap := by
  have heq : initial.performAll (fun w l => decide (w.StepPreserves l)) keptOps =
      some keptWorld := rfl
  have run : system.Run StepPreserves keptWorld :=
    (run_performAll (.start rfl) heq).mono fun w l => of_decide_eq_true
  exact ⟨by decide, List.forall_iff_forall_mem.mpr (shapes_track_properties run).1⟩

/-- Two properties, an attribute change of the first, removal of the second. -/
def lossyOps : List ShapeOp :=
  [.insertProperty ⟨.string "a", dataAttributes true⟩,
    .insertProperty ⟨.string "b", dataAttributes true⟩,
    .changeAttributes ⟨.string "a", dataAttributes false⟩,
    .removeProperty (.string "b")]

/-- The removal of `b` makes `a` writable again. -/
theorem not_forall_shapes_agree :
    ¬ ∀ w, system.Reachable w → ∀ x ∈ w.handles, x.Agrees w.heap := by
  intro hall
  have hrun : ∃ w, initial.performAll (fun _ _ => true) lossyOps = some w ∧
      ∃ x ∈ w.handles, ¬ x.Agrees w.heap := by
    refine ⟨_, rfl, ?_⟩
    decide
  obtain ⟨w, heq, x, hx, hnot⟩ := hrun
  have run := run_performAll (w := initial) (.start rfl) heq
  exact hnot (hall w run.reachable x hx)

end ShapeWorld

end BoaLigero
