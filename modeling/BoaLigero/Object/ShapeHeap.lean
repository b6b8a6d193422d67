import Mathlib.Order.Nat
import BoaLigero.Object.SharedShape

/-!
# The Heap of Shared Shapes

The invariant of the state behind shared shapes, and what the two transitions that build
shapes do to it. Everything a shape says about its properties is read through its table,
which other shapes go on extending: `ShapeHeap.propertyList` is the part a shape owns, and
`Extends.propertyList_eq` says it never changes. A forward transition is sound when the
shape it leads to has the property list and the prototype that the transition promises;
the invariant keeps every recorded transition sound, so that following one is as good as
making a new shape.

## Main results

* `WF.withForward`, `WF.withTables`, `WF.alloc` — the heap updates of which the transitions
  are made, each keeping the invariant.
* `insertPropertyTransition_spec`, `changePrototypeTransition_spec` — the two transitions,
  as operations on property lists and prototypes.
* `lookup_eq` — looking a property up finds its slot in the layout of the shape's list.
-/

namespace BoaLigero

namespace ShapeHeap

variable {h h' h'' : ShapeHeap} {s s' p : SharedShape}

/-- All properties of a table, with their attributes. -/
def entries (h : ShapeHeap) (table : ℕ) : PropertyList :=
  (h.tables table).keys.map fun e => (e.1, e.2.attributes)

/-- The properties a shape owns, with their attributes, in insertion order. -/
def propertyList (h : ShapeHeap) (s : SharedShape) : PropertyList :=
  (h.entries s.inner.propertyTable).take s.propertyCount

/-- A shape of this heap: the shape at its own address. -/
def Valid (h : ShapeHeap) (s : SharedShape) : Prop := h.shapes[s.addr]? = some s

/-- How the properties of a shape follow from those of the shape it was made from. -/
def Linked (h : ShapeHeap) (previous s : SharedShape) : Prop :=
  match s.inner.flags with
  | .insertProperty =>
      s.prototype = previous.prototype ∧ s.propertyCount = previous.propertyCount + 1 ∧
        ∃ k a, k ∉ Assoc.keys (h.propertyList previous) ∧
          h.propertyList s = h.propertyList previous ++ [(k, a)]
  | .configureProperty =>
      s.prototype = previous.prototype ∧ s.propertyCount = previous.propertyCount ∧
        ∃ k a b, (h.propertyList previous).lookup k = some b ∧ b.widthMatch a ∧
          h.propertyList s = Assoc.assign (h.propertyList previous) k a
  | .prototype =>
      s.propertyCount = previous.propertyCount ∧ h.propertyList s = h.propertyList previous

/-- A property transition from `s` may lead to `s'`: its properties are those of `s` with
one assigned, and the width of a property that `s` has already does not change. -/
structure PropertySound (h : ShapeHeap) (s : SharedShape) (key : TransitionKey)
    (s' : SharedShape) : Prop where
  valid : h.Valid s'
  prototype_eq : s'.prototype = s.prototype
  list_eq : h.propertyList s' =
    Assoc.assign (h.propertyList s) key.propertyKey key.attributes
  width : ∀ b, (h.propertyList s).lookup key.propertyKey = some b → b.widthMatch key.attributes

/-- A prototype transition from `s` may lead to `s'`. -/
structure PrototypeSound (h : ShapeHeap) (s : SharedShape) (prototype : JsPrototype)
    (s' : SharedShape) : Prop where
  valid : h.Valid s'
  prototype_eq : s'.prototype = prototype
  list_eq : h.propertyList s' = h.propertyList s

/-- **The invariant of the heap of shared shapes.** -/
structure WF (h : ShapeHeap) : Prop where
  represents : ∀ t, (h.tables t).Represents (h.entries t)
  addr : ∀ i (s : SharedShape), h.shapes[i]? = some s → s.addr = i
  table : ∀ s, h.Valid s → s.inner.propertyTable < h.tableCount
  count : ∀ s, h.Valid s → s.propertyCount ≤ (h.entries s.inner.propertyTable).length
  root : ∀ s, h.Valid s → s.previous = none → s.propertyCount = 0
  linked : ∀ s p, h.Valid s → s.previous = some p → h.Valid p ∧ h.Linked p s
  properties : ∀ s key s', h.Valid s → h.getProperty s key = some s' → h.PropertySound s key s'
  prototypes : ∀ s q s', h.Valid s → h.getPrototype s q = some s' → h.PrototypeSound s q s'

/-- What may happen to a heap: shapes and tables are added, tables grow. -/
structure Extends (h h' : ShapeHeap) : Prop where
  shapes : h.shapes <+: h'.shapes
  tableCount : h.tableCount ≤ h'.tableCount
  entries : ∀ t < h.tableCount, h.entries t <+: h'.entries t

/-- The initial heap is well formed. -/
theorem wf_initial : initial.WF := by
  have hvalid : ∀ s, initial.Valid s → s = rootShape := by
    intro s hs
    have hmem : s ∈ [rootShape] := List.mem_of_getElem? hs
    simpa using hmem
  refine ⟨fun t => .empty, ?_, ?_, ?_, ?_, ?_, ?_, ?_⟩
  · intro i s hs
    rw [initial, List.getElem?_singleton] at hs
    split at hs
    · next hi => rw [← Option.some.inj hs, hi]; rfl
    · cases hs
  · intro s hs
    rw [hvalid s hs]
    exact Nat.zero_lt_one
  · intro s hs
    rw [hvalid s hs]
    exact Nat.zero_le _
  · intro s hs _
    rw [hvalid s hs]
    rfl
  · intro s p hs hp
    rw [hvalid s hs] at hp
    cases hp
  · intro s key s' _ hget
    cases hget
  · intro s q s' _ hget
    cases hget

/-! ### Extension -/

namespace Extends

@[refl] theorem refl (h : ShapeHeap) : h.Extends h :=
  ⟨List.prefix_refl _, Nat.le_refl _, fun _ _ => List.prefix_refl _⟩

theorem trans (h₁ : h.Extends h') (h₂ : h'.Extends h'') : h.Extends h'' :=
  ⟨h₁.shapes.trans h₂.shapes, le_trans h₁.tableCount h₂.tableCount, fun t ht =>
    (h₁.entries t ht).trans (h₂.entries t (lt_of_lt_of_le ht h₁.tableCount))⟩

/-- Shapes stay where they are. -/
theorem valid (hext : h.Extends h') (hv : h.Valid s) : h'.Valid s := by
  obtain ⟨rest, hrest⟩ := hext.shapes
  rw [Valid, ← hrest]
  exact List.getElem?_append_left (List.getElem?_eq_some_iff.mp hv).1 ▸ hv

/-- **Shapes keep their properties**, however their table grows. -/
theorem propertyList_eq (hext : h.Extends h') (wf : h.WF) (hv : h.Valid s) :
    h'.propertyList s = h.propertyList s := by
  have hprefix := hext.entries _ (wf.table s hv)
  obtain ⟨rest, hrest⟩ := hprefix
  rw [propertyList, propertyList, ← hrest, List.take_append_of_le_length (wf.count s hv)]

theorem linked (hext : h.Extends h') (wf : h.WF) (hp : h.Valid p) (hs : h.Valid s)
    (hl : h.Linked p s) : h'.Linked p s := by
  simpa only [Linked, hext.propertyList_eq wf hp, hext.propertyList_eq wf hs] using hl

theorem propertySound (hext : h.Extends h') (wf : h.WF) (hs : h.Valid s) {key : TransitionKey}
    (hp : h.PropertySound s key s') : h'.PropertySound s key s' := by
  refine ⟨hext.valid hp.valid, hp.prototype_eq, ?_, ?_⟩
  · rw [hext.propertyList_eq wf hp.valid, hext.propertyList_eq wf hs, hp.list_eq]
  · rw [hext.propertyList_eq wf hs]
    exact hp.width

theorem prototypeSound (hext : h.Extends h') (wf : h.WF) (hs : h.Valid s) {q : JsPrototype}
    (hp : h.PrototypeSound s q s') : h'.PrototypeSound s q s' := by
  refine ⟨hext.valid hp.valid, hp.prototype_eq, ?_⟩
  rw [hext.propertyList_eq wf hp.valid, hext.propertyList_eq wf hs, hp.list_eq]

end Extends

/-! ### Heap updates -/

namespace WF

/-- No shape lists a property twice. -/
theorem nodup (wf : h.WF) (s : SharedShape) : (Assoc.keys (h.propertyList s)).Nodup := by
  rw [propertyList, Assoc.keys_take]
  exact (wf.represents _).nodup.sublist (List.take_sublist _ _)

/-- A shape owns as many properties as it counts. -/
theorem length_propertyList (wf : h.WF) (hv : h.Valid s) :
    (h.propertyList s).length = s.propertyCount := by
  rw [propertyList, List.length_take, Nat.min_eq_left (wf.count s hv)]

/-- Shapes sit below the end of the heap. -/
theorem addr_lt (hv : h.Valid s) : s.addr < h.shapes.length :=
  (List.getElem?_eq_some_iff.mp hv).1

/-- Replacing the forward transitions by sound ones. -/
theorem withForward (wf : h.WF) (f : ℕ → ForwardTransition)
    (hprop : ∀ s key s', h.Valid s → TransitionMap.get (f s.addr).properties key = some s' →
      h.PropertySound s key s')
    (hproto : ∀ s q s', h.Valid s → TransitionMap.get (f s.addr).prototypes q = some s' →
      h.PrototypeSound s q s') :
    WF { h with forward := f } where
  represents := wf.represents
  addr := wf.addr
  table := wf.table
  count := wf.count
  root := wf.root
  linked := wf.linked
  properties := fun s key s' hv hget =>
    have hsound := hprop s key s' hv hget
    ⟨hsound.valid, hsound.prototype_eq, hsound.list_eq, hsound.width⟩
  prototypes := fun s q s' hv hget =>
    have hsound := hproto s q s' hv hget
    ⟨hsound.valid, hsound.prototype_eq, hsound.list_eq⟩

/-- Changing which shapes are alive. -/
theorem withAlive (wf : h.WF) (alive : ℕ → Bool) : WF { h with alive := alive } where
  represents := wf.represents
  addr := wf.addr
  table := wf.table
  count := wf.count
  root := wf.root
  linked := wf.linked
  properties := fun s key s' hv hget =>
    have hsound := wf.properties s key s' hv hget
    ⟨hsound.valid, hsound.prototype_eq, hsound.list_eq, hsound.width⟩
  prototypes := fun s q s' hv hget =>
    have hsound := wf.prototypes s q s' hv hget
    ⟨hsound.valid, hsound.prototype_eq, hsound.list_eq⟩

/-- Growing the tables. -/
theorem withTables (wf : h.WF) {tables : ℕ → PropertyTableInner} {tableCount : ℕ}
    (hext : h.Extends { h with tables := tables, tableCount := tableCount })
    (hrep : ∀ t, (tables t).Represents ((tables t).keys.map fun e => (e.1, e.2.attributes))) :
    WF { h with tables := tables, tableCount := tableCount } where
  represents := hrep
  addr := wf.addr
  table := fun s hv => lt_of_lt_of_le (wf.table s hv) hext.tableCount
  count := fun s hv => le_trans (wf.count s hv) (hext.entries _ (wf.table s hv)).length_le
  root := wf.root
  linked := fun s p hv hp =>
    have hl := wf.linked s p hv hp
    ⟨hl.1, hext.linked wf hl.1 hv hl.2⟩
  properties := fun s key s' hv hget =>
    hext.propertySound wf hv (wf.properties s key s' hv hget)
  prototypes := fun s q s' hv hget =>
    hext.prototypeSound wf hv (wf.prototypes s q s' hv hget)

end WF

/-- The heap after an allocation extends the one before it. -/
theorem extends_alloc (h : ShapeHeap) (previous : SharedShape) (n : ℕ) (q : JsPrototype)
    (t : ℕ) (flags : TransitionType) : h.Extends (h.alloc previous n q t flags).2 :=
  ⟨List.prefix_append _ _, Nat.le_refl _, fun _ _ => List.prefix_refl _⟩

/-- An allocated shape is at its address. -/
theorem valid_alloc (h : ShapeHeap) (previous : SharedShape) (n : ℕ) (q : JsPrototype)
    (t : ℕ) (flags : TransitionType) :
    (h.alloc previous n q t flags).2.Valid (h.alloc previous n q t flags).1 := by
  simp [Valid, alloc, SharedShape.addr, SharedShape.inner]

/-- **Allocating a shape that is linked to its previous shape** keeps the invariant. -/
theorem WF.alloc (wf : h.WF) {n : ℕ} {q : JsPrototype} {t : ℕ} {flags : TransitionType}
    (hp : h.Valid p) (ht : t < h.tableCount) (hn : n ≤ (h.entries t).length)
    (hl : h.Linked p (h.alloc p n q t flags).1) : (h.alloc p n q t flags).2.WF := by
  have hext := h.extends_alloc p n q t flags
  set s := (h.alloc p n q t flags).1 with hs
  have hshapes : (h.alloc p n q t flags).2.shapes = h.shapes ++ [s] := rfl
  have haddr : s.addr = h.shapes.length := rfl
  -- A shape of the new heap is the new shape or a shape of the old heap.
  have hcases : ∀ x, (h.alloc p n q t flags).2.Valid x → x = s ∨ h.Valid x := by
    intro x hx
    rw [Valid, hshapes, List.getElem?_append] at hx
    split at hx
    · exact .inr hx
    · rw [List.getElem?_singleton] at hx
      split at hx
      · exact .inl (Option.some.inj hx).symm
      · cases hx
  have hforward : ∀ x, h.Valid x → (h.alloc p n q t flags).2.forward x.addr = h.forward x.addr :=
    fun x hx => Function.update_of_ne (WF.addr_lt hx).ne _ _
  have hnew : (h.alloc p n q t flags).2.forward s.addr = default := Function.update_self _ _ _
  refine ⟨wf.represents, ?_, ?_, ?_, ?_, ?_, ?_, ?_⟩
  · intro i x hx
    rw [hshapes, List.getElem?_append] at hx
    split at hx
    · exact wf.addr i x hx
    · rw [List.getElem?_singleton] at hx
      split at hx
      · obtain rfl := Option.some.inj hx
        rw [haddr]; omega
      · cases hx
  · intro x hx
    rcases hcases x hx with rfl | hx
    · exact ht
    · exact wf.table x hx
  · intro x hx
    rcases hcases x hx with rfl | hx
    · exact hn
    · exact wf.count x hx
  · intro x hx hnone
    rcases hcases x hx with rfl | hx
    · cases hnone
    · exact wf.root x hx hnone
  · intro x y hx hy
    rcases hcases x hx with rfl | hx
    · obtain rfl : p = y := Option.some.inj hy
      exact ⟨hext.valid hp, hl⟩
    · have hlink := wf.linked x y hx hy
      exact ⟨hext.valid hlink.1, hext.linked wf hlink.1 hx hlink.2⟩
  · intro x key y hx hget
    rcases hcases x hx with rfl | hx
    · rw [getProperty, hnew] at hget
      cases hget
    · rw [getProperty, hforward x hx] at hget
      exact hext.propertySound wf hx (wf.properties x key y hx hget)
  · intro x q' y hx hget
    rcases hcases x hx with rfl | hx
    · rw [getPrototype, hnew] at hget
      cases hget
    · rw [getPrototype, hforward x hx] at hget
      exact hext.prototypeSound wf hx (wf.prototypes x q' y hx hget)

@[simp] theorem newTable_tables_self (h : ShapeHeap) (t : PropertyTableInner) :
    (h.newTable t).2.tables (h.newTable t).1 = t := Function.update_self ..

theorem newTable_tables_of_ne (h : ShapeHeap) (t : PropertyTableInner) {i : ℕ}
    (hi : i ≠ h.tableCount) : (h.newTable t).2.tables i = h.tables i :=
  Function.update_of_ne hi ..

@[simp] theorem writeTable_tables_self (h : ShapeHeap) (i : ℕ) (t : PropertyTableInner) :
    (h.writeTable i t).tables i = t := Function.update_self ..

theorem writeTable_tables_of_ne (h : ShapeHeap) (t : PropertyTableInner) {i j : ℕ}
    (hj : j ≠ i) : (h.writeTable i t).tables j = h.tables j :=
  Function.update_of_ne hj ..

/-- Adding a table. -/
theorem WF.newTable (wf : h.WF) {t : PropertyTableInner} {ps : PropertyList}
    (ht : t.Represents ps) :
    (h.newTable t).2.WF ∧ h.Extends (h.newTable t).2 ∧
      (h.newTable t).2.entries (h.newTable t).1 = ps := by
  have hents : (h.newTable t).2.entries (h.newTable t).1 = ps := by
    rw [entries, newTable_tables_self, ht.map_attributes]
  have hext : h.Extends (h.newTable t).2 := by
    refine ⟨List.prefix_refl _, Nat.le_succ _, fun i hi => ?_⟩
    simp [entries, newTable_tables_of_ne h t hi.ne]
  refine ⟨wf.withTables hext fun i => ?_, hext, hents⟩
  by_cases hi : i = h.tableCount
  · subst hi
    rw [Function.update_self, ht.map_attributes]
    exact ht
  · rw [Function.update_of_ne hi]
    exact wf.represents i

/-- Replacing a table by one that stores more. -/
theorem WF.writeTable (wf : h.WF) {i : ℕ} {t : PropertyTableInner} {ps : PropertyList}
    (ht : t.Represents ps) (hgrow : h.entries i <+: ps) :
    (h.writeTable i t).WF ∧ h.Extends (h.writeTable i t) ∧ (h.writeTable i t).entries i = ps := by
  have hents : (h.writeTable i t).entries i = ps := by
    rw [entries, writeTable_tables_self, ht.map_attributes]
  have hext : h.Extends (h.writeTable i t) := by
    refine ⟨List.prefix_refl _, Nat.le_refl _, fun j _ => ?_⟩
    by_cases hj : j = i
    · rw [hj, hents]
      exact hgrow
    · simp [entries, writeTable_tables_of_ne h t hj]
  refine ⟨wf.withTables hext fun j => ?_, hext, hents⟩
  by_cases hj : j = i
  · subst hj
    rw [Function.update_self, ht.map_attributes]
    exact ht
  · rw [Function.update_of_ne hj]
    exact wf.represents j

/-- **Adding a property to a shape's table**: the table that results stores the shape's
properties and the new one, whether it is the old table extended or a clone. -/
theorem addPropertyDeepCloneIfNeeded_spec (wf : h.WF) (hs : h.Valid s) {k : PropertyKey}
    (hk : k ∉ Assoc.keys (h.propertyList s)) (a : SlotAttributes) {t : ℕ}
    (heq : h.addPropertyDeepCloneIfNeeded s.inner.propertyTable k a s.propertyCount = (t, h')) :
    h'.WF ∧ h.Extends h' ∧ t < h'.tableCount ∧
      h'.entries t = h.propertyList s ++ [(k, a)] := by
  have hrep := wf.represents s.inner.propertyTable
  have hlen : (h.tables s.inner.propertyTable).keys.length =
      (h.entries s.inner.propertyTable).length := by simp [entries]
  rw [addPropertyDeepCloneIfNeeded] at heq
  split at heq
  · next hcond =>
      obtain ⟨hcount, hnone⟩ := hcond
      have hall : h.entries s.inner.propertyTable = h.propertyList s := by
        rw [propertyList, List.take_of_length_le (by omega)]
      have hins := hrep.insert (hrep.map_eq_none_iff.mp hnone) a
      obtain ⟨rfl, rfl⟩ := Prod.mk.inj heq
      obtain ⟨hwf, hext, hents⟩ := wf.writeTable hins (List.prefix_append _ _)
      exact ⟨hwf, hext, wf.table s hs, by rw [hents, hall]⟩
  · have hins := (hrep.cloneCount s.propertyCount).insert hk a
    obtain ⟨hwf, hext, hents⟩ := wf.newTable hins
    rw [heq] at hwf hext hents
    have ht : t = h.tableCount ∧ h'.tableCount = h.tableCount + 1 := by
      obtain ⟨rfl, rfl⟩ := Prod.mk.inj heq
      exact ⟨rfl, rfl⟩
    exact ⟨hwf, hext, by omega, hents⟩

/-! ### The transitions -/

/-- What a transition to a shape with properties `ps` and prototype `q` leaves behind. -/
structure Produces (h h' : ShapeHeap) (s : SharedShape) (ps : PropertyList) (q : JsPrototype) :
    Prop where
  wf : h'.WF
  extends_heap : h.Extends h'
  valid : h'.Valid s
  list_eq : h'.propertyList s = ps
  prototype_eq : s.prototype = q

/-- Recording a sound property transition keeps the invariant. -/
theorem WF.insertProperty (wf : h.WF) (hs : h.Valid s) {key : TransitionKey}
    (hsound : h.PropertySound s key s') : (h.insertProperty s.addr key s').WF := by
  refine wf.withForward _ (fun x k y hx hget => ?_) fun x q y hx hget => ?_
  · by_cases haddr : x.addr = s.addr
    · obtain rfl : x = s := Option.some.inj (hx.symm.trans (haddr ▸ hs))
      rw [Function.update_self] at hget
      rcases TransitionMap.get_insert hget with ⟨rfl, rfl⟩ | hget
      · exact hsound
      · exact wf.properties x k y hx hget
    · rw [Function.update_of_ne haddr] at hget
      exact wf.properties x k y hx hget
  · by_cases haddr : x.addr = s.addr
    · rw [haddr, Function.update_self] at hget
      exact wf.prototypes x q y hx (by rw [getPrototype, haddr]; exact hget)
    · rw [Function.update_of_ne haddr] at hget
      exact wf.prototypes x q y hx hget

/-- Recording a sound prototype transition keeps the invariant. -/
theorem WF.insertPrototype (wf : h.WF) (hs : h.Valid s) {q : JsPrototype}
    (hsound : h.PrototypeSound s q s') : (h.insertPrototype s.addr q s').WF := by
  refine wf.withForward _ (fun x k y hx hget => ?_) fun x p y hx hget => ?_
  · by_cases haddr : x.addr = s.addr
    · rw [haddr, Function.update_self] at hget
      exact wf.properties x k y hx (by rw [getProperty, haddr]; exact hget)
    · rw [Function.update_of_ne haddr] at hget
      exact wf.properties x k y hx hget
  · by_cases haddr : x.addr = s.addr
    · obtain rfl : x = s := Option.some.inj (hx.symm.trans (haddr ▸ hs))
      rw [Function.update_self] at hget
      rcases TransitionMap.get_insert hget with ⟨rfl, rfl⟩ | hget
      · exact hsound
      · exact wf.prototypes x p y hx hget
    · rw [Function.update_of_ne haddr] at hget
      exact wf.prototypes x p y hx hget

/-- Pruning keeps the invariant. -/
theorem WF.prunePropertyTransitions (wf : h.WF) (addr : ℕ) :
    (h.prunePropertyTransitions addr).WF := by
  refine wf.withForward _ (fun x k y hx hget => ?_) fun x p y hx hget => ?_
  · by_cases haddr : x.addr = addr
    · rw [haddr, Function.update_self] at hget
      exact wf.properties x k y hx (by rw [getProperty, haddr]; exact TransitionMap.get_prune hget)
    · rw [Function.update_of_ne haddr] at hget
      exact wf.properties x k y hx hget
  · by_cases haddr : x.addr = addr
    · rw [haddr, Function.update_self] at hget
      exact wf.prototypes x p y hx (by rw [getPrototype, haddr]; exact hget)
    · rw [Function.update_of_ne haddr] at hget
      exact wf.prototypes x p y hx hget

/-- Pruning keeps the invariant. -/
theorem WF.prunePrototypeTransitions (wf : h.WF) (addr : ℕ) :
    (h.prunePrototypeTransitions addr).WF := by
  refine wf.withForward _ (fun x k y hx hget => ?_) fun x p y hx hget => ?_
  · by_cases haddr : x.addr = addr
    · rw [haddr, Function.update_self] at hget
      exact wf.properties x k y hx (by rw [getProperty, haddr]; exact hget)
    · rw [Function.update_of_ne haddr] at hget
      exact wf.properties x k y hx hget
  · by_cases haddr : x.addr = addr
    · rw [haddr, Function.update_self] at hget
      exact wf.prototypes x p y hx
        (by rw [getPrototype, haddr]; exact TransitionMap.get_prune hget)
    · rw [Function.update_of_ne haddr] at hget
      exact wf.prototypes x p y hx hget

/-- Pruning touches neither tables nor shapes. -/
theorem extends_prunePropertyTransitions (h : ShapeHeap) (addr : ℕ) :
    h.Extends (h.prunePropertyTransitions addr) :=
  ⟨List.prefix_refl _, Nat.le_refl _, fun _ _ => List.prefix_refl _⟩

theorem extends_prunePrototypeTransitions (h : ShapeHeap) (addr : ℕ) :
    h.Extends (h.prunePrototypeTransitions addr) :=
  ⟨List.prefix_refl _, Nat.le_refl _, fun _ _ => List.prefix_refl _⟩

/-- A new insert shape has one property more. -/
theorem newInsertShape_spec (wf : h.WF) (hs : h.Valid s) {k : PropertyKey} {a : SlotAttributes}
    (hk : k ∉ Assoc.keys (h.propertyList s))
    (heq : h.newInsertShape s { propertyKey := k, attributes := a } = (s', h')) :
    h.Produces h' s' (h.propertyList s ++ [(k, a)]) s.prototype := by
  obtain ⟨t, h₁, hadd⟩ : ∃ t h₁, h.addPropertyDeepCloneIfNeeded s.inner.propertyTable k a
      s.propertyCount = (t, h₁) := ⟨_, _, rfl⟩
  obtain ⟨wf₁, hext₁, ht, hents⟩ := addPropertyDeepCloneIfNeeded_spec wf hs hk a hadd
  have hlen := wf.length_propertyList hs
  have hs₁ := hext₁.valid hs
  have hlist₁ := hext₁.propertyList_eq wf hs
  -- The new shape owns the whole of its table.
  have hnew : ∀ x : SharedShape, x.inner.propertyTable = t → x.propertyCount = s.propertyCount + 1 →
      h₁.propertyList x = h.propertyList s ++ [(k, a)] := by
    intro x hxt hxn
    rw [propertyList, hxt, hxn, hents, List.take_of_length_le (by simp [hlen])]
  have hlinked : h₁.Linked s
      (h₁.alloc s (s.propertyCount + 1) s.prototype t .insertProperty).1 := by
    refine ⟨rfl, rfl, k, a, ?_, ?_⟩
    · rwa [hlist₁]
    · rw [hlist₁]
      exact hnew _ rfl rfl
  have wf₂ := wf₁.alloc (q := s.prototype) hs₁ ht (by simp [hents, hlen]) hlinked
  have hext₂ := h₁.extends_alloc s (s.propertyCount + 1) s.prototype t .insertProperty
  have hv₂ := h₁.valid_alloc s (s.propertyCount + 1) s.prototype t .insertProperty
  simp only [newInsertShape, hadd] at heq
  set h₂ := (h₁.alloc s (s.propertyCount + 1) s.prototype t .insertProperty).2
  set x := (h₁.alloc s (s.propertyCount + 1) s.prototype t .insertProperty).1
  obtain ⟨rfl, rfl⟩ := Prod.mk.inj heq
  have hlist₂ : h₂.propertyList x = h.propertyList s ++ [(k, a)] := hnew x rfl rfl
  have hs₂ := hext₂.valid hs₁
  have hlist : h₂.propertyList s = h.propertyList s :=
    (hext₂.propertyList_eq wf₁ hs₁).trans hlist₁
  have hsound : h₂.PropertySound s { propertyKey := k, attributes := a } x := by
    refine ⟨hv₂, rfl, ?_, ?_⟩
    · rw [hlist₂, hlist, Assoc.assign_of_notMem hk]
    · intro b hb
      rw [hlist] at hb
      exact absurd (Assoc.mem_keys_of_lookup hb) hk
  exact ⟨wf₂.insertProperty hs₂ hsound, (hext₁.trans hext₂).trans
    ⟨List.prefix_refl _, Nat.le_refl _, fun _ _ => List.prefix_refl _⟩, hv₂, hlist₂, rfl⟩

/-- **Inserting an absent property** leads to a shape with that property appended. -/
theorem insertPropertyTransition_spec (wf : h.WF) (hs : h.Valid s) {k : PropertyKey}
    {a : SlotAttributes} (hk : k ∉ Assoc.keys (h.propertyList s))
    (heq : h.insertPropertyTransition s { propertyKey := k, attributes := a } = (s', h')) :
    h.Produces h' s' (h.propertyList s ++ [(k, a)]) s.prototype := by
  rw [insertPropertyTransition] at heq
  split at heq
  · next shape hget =>
      split at heq
      · next inner hup =>
          rw [upgrade] at hup
          split at hup
          · obtain rfl := Option.some.inj hup
            obtain ⟨rfl, rfl⟩ := Prod.mk.inj heq
            have hsound := wf.properties s _ _ hs hget
            refine ⟨wf, .refl _, hsound.valid, ?_, hsound.prototype_eq⟩
            rw [hsound.list_eq, Assoc.assign_of_notMem hk]
          · cases hup
      · have hext := h.extends_prunePropertyTransitions s.addr
        have hspec := newInsertShape_spec (wf.prunePropertyTransitions s.addr)
          (hext.valid hs) (by rwa [hext.propertyList_eq wf hs]) heq
        rw [hext.propertyList_eq wf hs] at hspec
        exact ⟨hspec.wf, hext.trans hspec.extends_heap, hspec.valid, hspec.list_eq,
          hspec.prototype_eq⟩
  · exact newInsertShape_spec wf hs hk heq

/-- A new prototype shape shares the table of the shape it was made from. -/
theorem newPrototypeShape_spec (wf : h.WF) (hs : h.Valid s) {q : JsPrototype}
    (heq : h.newPrototypeShape s q = (s', h')) :
    h.Produces h' s' (h.propertyList s) q := by
  have hlinked : h.Linked s
      (h.alloc s s.propertyCount q s.inner.propertyTable .prototype).1 := ⟨rfl, rfl⟩
  have wf₂ := wf.alloc (q := q) hs (wf.table s hs) (wf.count s hs) hlinked
  have hext₂ := h.extends_alloc s s.propertyCount q s.inner.propertyTable .prototype
  have hv₂ := h.valid_alloc s s.propertyCount q s.inner.propertyTable .prototype
  simp only [newPrototypeShape] at heq
  set h₂ := (h.alloc s s.propertyCount q s.inner.propertyTable .prototype).2
  set x := (h.alloc s s.propertyCount q s.inner.propertyTable .prototype).1
  obtain ⟨rfl, rfl⟩ := Prod.mk.inj heq
  have hlist₂ : h₂.propertyList x = h.propertyList s := rfl
  have hsound : h₂.PrototypeSound s q x := ⟨hv₂, rfl, rfl⟩
  exact ⟨wf₂.insertPrototype (hext₂.valid hs) hsound, hext₂.trans
    ⟨List.prefix_refl _, Nat.le_refl _, fun _ _ => List.prefix_refl _⟩, hv₂, hlist₂, rfl⟩

/-- **Changing the prototype** leaves the properties as they are. -/
theorem changePrototypeTransition_spec (wf : h.WF) (hs : h.Valid s) {q : JsPrototype}
    (heq : h.changePrototypeTransition s q = (s', h')) :
    h.Produces h' s' (h.propertyList s) q := by
  rw [changePrototypeTransition] at heq
  split at heq
  · next shape hget =>
      split at heq
      · next inner hup =>
          rw [upgrade] at hup
          split at hup
          · obtain rfl := Option.some.inj hup
            obtain ⟨rfl, rfl⟩ := Prod.mk.inj heq
            have hsound := wf.prototypes s _ _ hs hget
            exact ⟨wf, .refl _, hsound.valid, hsound.list_eq, hsound.prototype_eq⟩
          · cases hup
      · have hext := h.extends_prunePrototypeTransitions s.addr
        have hspec := newPrototypeShape_spec (wf.prunePrototypeTransitions s.addr)
          (hext.valid hs) heq
        rw [hext.propertyList_eq wf hs] at hspec
        exact ⟨hspec.wf, hext.trans hspec.extends_heap, hspec.valid, hspec.list_eq,
          hspec.prototype_eq⟩
  · exact newPrototypeShape_spec wf hs heq

/-! ### Lookup -/

/-- **Looking a property up** finds its slot in the layout of the shape's own properties. -/
theorem lookup_eq (wf : h.WF) (s : SharedShape) (k : PropertyKey) :
    h.lookup s k = (layout (h.propertyList s)).lookup k := by
  have hrep := wf.represents s.inner.propertyTable
  have hnd : (Assoc.keys (layout (h.propertyList s))).Nodup := by simpa using wf.nodup s
  have htake : layout (h.propertyList s) =
      (layout (h.entries s.inner.propertyTable)).take s.propertyCount := by
    rw [propertyList, layout_take]
  rw [lookup, propertyTable]
  split
  · next hzero => rw [htake, hzero]; rfl
  · split
    · next i slot hmap =>
        have hi := (hrep.map_eq k i slot).mp hmap
        split
        · next hlt =>
            rw [eq_comm, Assoc.lookup_eq_some_iff_mem hnd, htake]
            exact List.mem_iff_getElem?.mpr ⟨i, by rw [List.getElem?_take_of_lt hlt, hi]⟩
        · next hge =>
            rw [eq_comm, Assoc.lookup_eq_none_iff_notMem]
            intro hmem
            obtain ⟨slot', hslot'⟩ := Assoc.exists_of_mem_keys hmem
            obtain ⟨j, hj⟩ := List.mem_iff_getElem?.mp hslot'
            rw [htake, List.getElem?_take] at hj
            split at hj
            · next hlt =>
                have hij := (hrep.map_eq k j slot').mpr hj
                rw [hmap] at hij
                have := (Prod.mk.inj (Option.some.inj hij)).1
                omega
            · cases hj
    · next hmap =>
        rw [eq_comm, Assoc.lookup_eq_none_iff_notMem, keys_layout]
        intro hmem
        rw [propertyList, Assoc.keys_take] at hmem
        exact hrep.map_eq_none_iff.mp hmap (List.mem_of_mem_take hmem)

end ShapeHeap

end BoaLigero
