import BoaLigero.Object.IndexedProperties
import BoaLigero.Util.Run

/-!
# Runs of Indexed Properties

Indexed properties beside a finite map from keys to descriptors on which the same operations
are performed, from the contents of an array on. Whatever storage the operations lead
through, the two answer alike.

A value is pushed by an array literal, which does so while the length of the array is a
positive 32-bit integer; a push that the storage refuses is no operation.

## Main results

* `indexed_properties_are_a_map` — in every run indexed properties are the finite map.
-/

namespace BoaLigero

open IndexedProperties

variable {P : Type}

/-- An array index: any 32-bit integer but the largest. -/
structure NonMaxU32 where
  val : UInt32
  ne_max : val ≠ 2 ^ 32 - 1
  deriving DecidableEq

/-- What is done to indexed properties. -/
inductive IndexLabel (P : Type) where
  | insert (key : NonMaxU32) (property : PropertyDescriptor (JsVariant P))
  | remove (key : NonMaxU32)
  | pushDense (value : JsVariant P)
  | setDenseProperty (index : UInt32) (value : JsVariant P)
  | transformToSparse

/-- Indexed properties and the finite map. -/
structure IndexWorld (P : Type) where
  properties : IndexedProperties P
  reference : OrderedMap UInt32 (PropertyDescriptor (JsVariant P))

namespace IndexWorld

/-- Store an element in the finite map, if the indexed properties have done so. -/
def store (w : IndexWorld P) (key : UInt32) (value : JsVariant P)
    (r : Bool × IndexedProperties P) : IndexWorld P :=
  { properties := r.2
    reference := if r.1 then w.reference.insert key (simple value) else w.reference }

/-- Perform an operation; a value is pushed behind all others. -/
def perform (w : IndexWorld P) : IndexLabel P → IndexWorld P
  | .insert key property =>
      { properties := (w.properties.insert key.val property).2
        reference := w.reference.insert key.val property }
  | .remove key =>
      { properties := (w.properties.remove key.val).2
        reference := w.reference.erase key.val }
  | .pushDense value =>
      w.store (.ofNat w.reference.keys.length) value (w.properties.pushDense value)
  | .setDenseProperty index value =>
      w.store index value (w.properties.setDenseProperty index value)
  | .transformToSparse => { w with properties := w.properties.transformToSparse }

/-- Whether an operation is asked for: values are pushed while the length is a positive
32-bit integer. -/
def Asked (w : IndexWorld P) : IndexLabel P → Prop
  | .pushDense _ => w.properties.count < 2 ^ 31
  | _ => True

/-- The runs, from the contents of an array. -/
def system (P : Type) : TransitionSystem (IndexWorld P) (IndexLabel P) where
  init := fun w => ∃ elements : List (JsVariant P), elements.length < 2 ^ 32 ∧
    (w.properties = fromDenseJsValue elements ∨ w.properties = .denseElement elements) ∧
    w.reference = collect (elements.map simple)
  step := fun w l w' => w.Asked l ∧ w' = w.perform l

/-- The indexed properties answer as the finite map does. -/
structure Matches (w : IndexWorld P) : Prop where
  get : ∀ key, (w.properties.get key).map PropertyDescriptor.settled
    = (w.reference.get? key).map PropertyDescriptor.settled
  containsKey : ∀ key, w.properties.containsKey key = (w.reference.get? key).isSome
  keys_nodup : w.properties.keys.Nodup
  keys : ∀ key, key ∈ w.properties.keys ↔ key ∈ w.reference.keys
  insert : ∀ (key : NonMaxU32) property,
    (w.properties.insert key.val property).1 = (w.reference.get? key.val).isSome
  remove : ∀ key : NonMaxU32,
    (w.properties.remove key.val).1 = (w.reference.get? key.val).isSome

/-- The properties are bounded and are those of the finite map. -/
structure Inv (w : IndexWorld P) : Prop where
  bounded : w.properties.Bounded
  view : ∀ key, w.properties.view key = (w.reference.get? key).map PropertyDescriptor.settled

variable {w : IndexWorld P}

theorem Inv.isSome (inv : Inv w) (key : UInt32) :
    (w.properties.get key).isSome = (w.reference.get? key).isSome := by
  rw [← isSome_view, inv.view, Option.isSome_map]

theorem Inv.matches (inv : Inv w) : Matches w where
  get := inv.view
  containsKey key := by rw [containsKey_eq inv.bounded, inv.isSome]
  keys_nodup := nodup_keys _
  keys key := by rw [mem_keys_iff inv.bounded, inv.isSome, OrderedMap.mem_keys_iff]
  insert key property := by
    rw [(inserts_insert inv.bounded key.ne_max).answer, inv.isSome]
  remove key := by rw [(removes_remove inv.bounded key.ne_max).answer, inv.isSome]

/-- There are as many properties as entries of the finite map. -/
theorem Inv.count_eq (inv : Inv w) : w.properties.count = w.reference.keys.length :=
  ((List.perm_ext_iff_of_nodup (nodup_keys _) w.reference.nodup).mpr inv.matches.keys).length_eq

/-- An element that is stored is stored in both. -/
theorem Inv.store (inv : Inv w) {key : UInt32} {value : JsVariant P}
    {r : Bool × IndexedProperties P}
    (hr : (r.1 = false ∧ r.2 = w.properties) ∨ r.1 = true ∧ r.2.Bounded ∧
      ∀ k, r.2.view k = if k = key then some (simple value.settled) else w.properties.view k) :
    Inv (w.store key value r) := by
  obtain ⟨stored, p⟩ := r
  rcases hr with ⟨rfl, rfl⟩ | ⟨rfl, hbounded, hview⟩
  · exact inv
  · refine ⟨hbounded, fun k => ?_⟩
    change p.view k = ((w.reference.insert key (simple value)).get? k).map _
    rw [hview, OrderedMap.get?_insert, inv.view]
    split <;> rfl

/-- **A step keeps the properties those of the finite map.** -/
theorem Inv.step (inv : Inv w) {l : IndexLabel P} (hasked : w.Asked l) : Inv (w.perform l) := by
  cases l with
  | insert key property =>
      have h : Inserts w.properties key.val property (w.properties.insert key.val property) :=
        inserts_insert inv.bounded key.ne_max
      refine ⟨h.bounded, fun k => ?_⟩
      rw [perform, h.view, OrderedMap.get?_insert, inv.view]
      split <;> rfl
  | remove key =>
      have h := removes_remove inv.bounded key.ne_max
      refine ⟨h.bounded, fun k => ?_⟩
      rw [perform, h.view, OrderedMap.get?_erase, inv.view]
      split <;> rfl
  | pushDense value =>
      have hlt : w.properties.count < 2 ^ 31 := hasked
      refine inv.store ?_
      rw [← inv.count_eq]
      exact view_pushDense inv.bounded (by omega)
  | setDenseProperty index value => exact inv.store (view_setDenseProperty inv.bounded)
  | transformToSparse =>
      obtain ⟨hbounded, hview⟩ := view_transformToSparse inv.bounded
      exact ⟨hbounded, fun k => (hview k).trans (inv.view k)⟩

/-- The contents of an array are those of the finite map. -/
theorem inv_init (h : (system P).init w) : Inv w := by
  obtain ⟨properties, reference⟩ := w
  obtain ⟨elements, hlen, hproperties, rfl⟩ := h
  have hdense : Inv ⟨.denseElement elements, collect (elements.map simple)⟩ := by
    refine ⟨hlen, fun k => ?_⟩
    rw [view_denseElement, get?_collect (by rw [List.length_map]; omega), List.getElem?_map,
      Option.map_map]
    rfl
  rcases hproperties with rfl | rfl
  · rw [fromDenseJsValue]
    split
    · next hnil =>
      subst hnil
      exact ⟨Nat.zero_lt_succ _, fun k => rfl⟩
    · exact hdense
  · exact hdense

/-- **Indexed properties are a finite map**: after every sequence of operations on the
contents of an array they return the last descriptor inserted and not removed, enumerate
every present key once, and answer whether a key was present. -/
theorem indexed_properties_are_a_map (hrun : (system P).Reachable w) : Matches w := by
  have inv : Inv w := by
    refine hrun.invariant (I := Inv) (fun _ => inv_init) ?_
    rintro w l w' inv - ⟨hasked, rfl⟩
    exact inv.step hasked
  exact inv.matches

/-! ### A run -/

instance (w : IndexWorld P) : (l : IndexLabel P) → Decidable (w.Asked l)
  | .pushDense _ => inferInstanceAs (Decidable (_ < _))
  | .insert .. | .remove _ | .setDenseProperty .. | .transformToSparse =>
      inferInstanceAs (Decidable True)

/-- Perform operations on an empty array. -/
def performAll (ls : List (IndexLabel P)) : Option (IndexWorld P) :=
  TransitionSystem.performAll (fun w l => if w.Asked l then some (w.perform l) else none)
    (fun _ _ => true) ⟨default, .empty⟩ ls

theorem reachable_performAll {ls : List (IndexLabel P)} (heq : performAll ls = some w) :
    (system P).Reachable w := by
  have hinit : (system P).init ⟨default, .empty⟩ :=
    ⟨[], Nat.zero_lt_succ _, .inl (if_pos rfl).symm, rfl⟩
  refine (TransitionSystem.Run.performAll (fun w l w' h => ?_) (.start hinit) heq).reachable
  split at h
  · next hasked => exact ⟨hasked, (Option.some.inj h).symm⟩
  · cases h

/-- Integers, an integer held as a double, `-0`, a hole, a read-only element and removals. -/
def mixedSteps : List (IndexLabel Unit) :=
  [.pushDense (.integer32 7),
    .pushDense (.float64 (.ofInt32 8)),
    .setDenseProperty 0 (.float64 ⟨0x8000000000000000#64⟩),
    .insert ⟨2, by decide⟩ (simple (.integer32 9)),
    .insert ⟨5, by decide⟩ (simple (.other ())),
    .insert ⟨6, by decide⟩ (readonly (.integer32 1)),
    .remove ⟨1, by decide⟩]

theorem indexed_properties_are_a_map_mixedSteps :
    ∃ w, performAll mixedSteps = some w ∧ Matches w ∧
      w.properties.get 0 = some (simple (.float64 ⟨0x8000000000000000#64⟩)) ∧
      w.properties.get 1 = none ∧ w.properties.keys = [0, 2, 5, 6] := by
  have hrun : ∃ w, performAll mixedSteps = some w ∧
      w.properties.get 0 = some (simple (.float64 ⟨0x8000000000000000#64⟩)) ∧
      w.properties.get 1 = none ∧ w.properties.keys = [0, 2, 5, 6] :=
    ⟨_, rfl, by decide, by decide, by decide⟩
  obtain ⟨w, heq, hprops⟩ := hrun
  exact ⟨w, heq, indexed_properties_are_a_map (reachable_performAll heq), hprops⟩

end IndexWorld

end BoaLigero
