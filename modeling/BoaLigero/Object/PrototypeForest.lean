import BoaLigero.Object.PrototypeChain
import BoaLigero.Util.ParentChain
import BoaLigero.Util.Run

/-!
# Prototype Chains End

The prototypes of ordinary objects form a forest. `ordinary_set_prototype_of` looks for the
object it is called on along the chain of the new prototype only; that this keeps every chain
of the heap ending is what makes its own walk, and those of `[[HasProperty]]`, `[[Get]]` and
`[[Set]]`, terminate.

The walks of the model count down from the number of objects. A walk that runs out gives
`none`; here it is proved that none does.

## Main results

* `ordinarySetPrototypeOf_forest` — one call: it changes the prototype of one object, or no
  prototype at all, and the prototypes still form a forest.
* `prototypes_end` — in every run of calls all chains end, the walks terminate, and a rejected
  call changes no prototype.
-/

namespace BoaLigero

open ParentChain

namespace ObjectHeap

variable {P : Type} {h h' : ObjectHeap P} {x : JsObject P} {obj : ℕ} {val : JsPrototype}

/-- The prototype of an object. -/
def prototypeOf (h : ObjectHeap P) (obj : ℕ) : JsPrototype :=
  h.objects[obj]?.bind fun x => h.shapes.prototype x.map.shape

/-- `ordinary_has_property`. -/
def ordinaryHasProperty (h : ObjectHeap P) (obj : ℕ) (key : PropertyKey) : Option Bool :=
  (h.lookup obj key).map fun r => r.desc.isSome

/-- A prototype is an object of the heap, if it is not null. -/
def HasPrototype (h : ObjectHeap P) (val : JsPrototype) : Prop :=
  ∀ proto, val = some proto → proto < h.objects.length

/-- The prototypes of the objects are objects, and every chain of them comes to null. -/
structure Forest (h : ObjectHeap P) : Prop where
  closed : ∀ obj, h.HasPrototype (h.prototypeOf obj)
  ends : ∀ obj, Ends h.prototypeOf (some obj)

theorem prototypeOf_eq (hx : h.objects[obj]? = some x) :
    h.prototypeOf obj = h.shapes.prototype x.map.shape := by
  rw [prototypeOf, hx, Option.bind_some]

/-! ### The walks -/

/-- A chain of objects is no longer than there are objects. -/
theorem Forest.above_length (hf : h.Forest) (hval : h.HasPrototype val) :
    above h.prototypeOf h.objects.length val = none := by
  have hends : Ends h.prototypeOf val := by
    cases val with
    | none => exact .none _
    | some proto => exact hf.ends proto
  have hcard := above_card (s := Finset.range h.objects.length)
    (fun obj _ proto hproto => Finset.mem_range.mpr (hf.closed obj proto hproto))
    (fun proto hproto => Finset.mem_range.mpr (hval proto hproto)) hends
  rwa [Finset.card_range] at hcard

/-- **The walk of `ordinary_set_prototype_of`** comes to the end of the chain, and tells
whether the object is met. -/
theorem inChain_eq (hf : h.Forest) {n : ℕ} (hval : h.HasPrototype val)
    (hn : above h.prototypeOf n val = none) :
    ∃ met, h.inChain obj n val = some met ∧ (met = true ↔ Meets h.prototypeOf obj val) := by
  induction n generalizing val with
  | zero =>
      obtain rfl : val = none := hn
      exact ⟨false, rfl, by simp [not_meets_none]⟩
  | succ n ih =>
      cases val with
      | none => exact ⟨false, rfl, by simp [not_meets_none]⟩
      | some proto =>
          rw [inChain, meets_some_iff]
          by_cases hproto : proto = obj
          · exact ⟨true, if_pos hproto, by simp [hproto]⟩
          · obtain ⟨y, hy⟩ : ∃ y, h.objects[proto]? = some y :=
              ⟨_, List.getElem?_eq_getElem (hval proto rfl)⟩
            obtain ⟨met, hmet, hiff⟩ := ih (hf.closed proto) hn
            rw [prototypeOf_eq hy] at hmet
            rw [if_neg hproto, hy, Option.bind_some]
            exact ⟨met, hmet, by rw [hiff]; simp [hproto]⟩

/-- **The walk of `[[HasProperty]]`, `[[Get]]` and `[[Set]]`** ends. -/
theorem exists_resolve (wf : h.WF) (hf : h.Forest) (key : PropertyKey) {n : ℕ}
    (hobj : obj < h.objects.length) (hn : above h.prototypeOf n (some obj) = none)
    (slot : Slot) : ∃ r, h.resolve key n obj slot = some r := by
  induction n generalizing obj slot with
  | zero => cases hn
  | succ n ih =>
      obtain ⟨x, hx⟩ : ∃ x, h.objects[obj]? = some x := ⟨_, List.getElem?_eq_getElem hobj⟩
      cases hlook : h.shapes.lookup x.map.shape key with
      | some found =>
          obtain ⟨d, hres, -⟩ := resolve_of_some wf hx hlook n slot
          exact ⟨_, hres⟩
      | none =>
          rw [resolve_of_none hx hlook]
          rw [above_succ_some, prototypeOf_eq hx] at hn
          have hclosed := hf.closed obj
          rw [prototypeOf_eq hx] at hclosed
          cases hproto : h.shapes.prototype x.map.shape with
          | none => exact ⟨_, rfl⟩
          | some parent =>
              rw [hproto] at hn
              exact ih (hclosed parent hproto) hn _

theorem Forest.exists_lookup (hf : h.Forest) (wf : h.WF) (hobj : obj < h.objects.length)
    (key : PropertyKey) : ∃ r, h.lookup obj key = some r := by
  refine exists_resolve wf hf key hobj (above_eq_none_of_le (hf.above_length ?_)
    (Nat.le_succ _)) .new
  rintro proto ⟨⟩
  exact hobj

/-! ### Changing a prototype -/

/-- Storing a prototype changes the prototype of one object. -/
theorem prototypeOf_set (wf : h.WF) (hx : h.objects[obj]? = some x)
    {map : PropertyMap (JsValue P)} {shapes : Shapes}
    (hset : x.map.setPrototype h.shapes val = (map, shapes)) :
    prototypeOf { shapes, objects := h.objects.set obj { x with map } } =
      Function.update h.prototypeOf obj val := by
  obtain ⟨shape', H', htrans⟩ : ∃ shape' H',
      h.shapes.changePrototypeTransition x.map.shape val = (shape', H') := ⟨_, _, rfl⟩
  have hm := Shapes.changePrototypeTransition_spec wf.owned.wf (wf.valid hx) htrans
  rw [PropertyMap.setPrototype, htrans] at hset
  cases hset
  have hlt := (List.getElem?_eq_some_iff.mp hx).1
  funext other
  by_cases hother : obj = other
  · subst hother
    rw [Function.update_self, prototypeOf_eq (List.getElem?_set_self hlt)]
    exact hm.prototype_eq
  · rw [Function.update_of_ne (Ne.symm hother), prototypeOf, prototypeOf,
      List.getElem?_set_ne hother]
    cases hy : h.objects[other]? with
    | none => rfl
    | some y =>
        have hshape : ∀ {i : ℕ} {z : JsObject P}, h.objects[i]? = some z →
            (h.objects.map fun x => x.map.shape)[i]? = some z.map.shape := fun hz => by simp [hz]
        exact (wf.owned.other (hshape hx) (hshape hy) hother hm).2.2

/-- What a call of `ordinary_set_prototype_of` does: the prototype of the object is the new
one, or the call is rejected and nothing changes. -/
inductive SetsPrototype (h : ObjectHeap P) (obj : ℕ) (val : JsPrototype) :
    Bool × ObjectHeap P → Prop
  | accepted {h' : ObjectHeap P} (wf : h'.WF) (hforest : h'.Forest)
      (hlength : h'.objects.length = h.objects.length)
      (hproto : h'.prototypeOf = Function.update h.prototypeOf obj val) :
      SetsPrototype h obj val (true, h')
  | rejected : SetsPrototype h obj val (false, h)

/-- **One call**: it terminates, and the prototypes still form a forest. -/
theorem ordinarySetPrototypeOf_forest (wf : h.WF) (hf : h.Forest)
    (hobj : obj < h.objects.length) (hval : h.HasPrototype val) :
    ∃ result, h.ordinarySetPrototypeOf obj val = some result ∧
      SetsPrototype h obj val result := by
  obtain ⟨x, hx⟩ : ∃ x, h.objects[obj]? = some x := ⟨_, List.getElem?_eq_getElem hobj⟩
  by_cases hsame : val = h.shapes.prototype x.map.shape
  · refine ⟨(true, h), ?_, .accepted wf hf rfl ?_⟩
    · rw [ordinarySetPrototypeOf, hx, Option.bind_some, if_pos hsame]
    · rw [hsame, ← prototypeOf_eq hx, Function.update_eq_self]
  by_cases hext : x.extensible = false
  · refine ⟨(false, h), ?_, .rejected⟩
    simp [ordinarySetPrototypeOf, hx, hsame, hext]
  obtain ⟨met, hmet, hiff⟩ : ∃ met, h.inChain obj _ val = some met ∧ _ :=
    inChain_eq hf hval (above_eq_none_of_le (hf.above_length hval) (Nat.le_succ _))
  obtain ⟨map, shapes, hset⟩ : ∃ map shapes,
      x.map.setPrototype h.shapes val = (map, shapes) := ⟨_, _, rfl⟩
  have hcall : h.ordinarySetPrototypeOf obj val = some (if met then (false, h) else
      (true, { shapes, objects := h.objects.set obj { x with map } })) := by
    cases met <;> simp [ordinarySetPrototypeOf, hx, hsame, hext, hmet, hset]
  refine ⟨_, hcall, ?_⟩
  cases met with
  | true => exact .rejected
  | false =>
      have hmeets : ¬Meets h.prototypeOf obj val := fun hm => by simpa using hiff.mpr hm
      have hends : Ends h.prototypeOf val := ⟨_, hf.above_length hval⟩
      have hproto := prototypeOf_set wf hx hset
      refine .accepted (ordinarySetPrototypeOf_evolves wf hcall).wf
        ⟨fun other => ?_, fun other => ?_⟩ (List.length_set ..) hproto
      · -- the prototypes are those of before and the new one
        have hprotos : ∀ proto, Function.update h.prototypeOf obj val other = some proto →
            proto < h.objects.length := by
          by_cases hother : other = obj
          · rw [hother, Function.update_self]
            exact hval
          · rw [Function.update_of_ne hother]
            exact hf.closed other
        intro proto hp
        rw [hproto] at hp
        exact (hprotos proto hp).trans_eq (List.length_set ..).symm
      · rw [hproto]
        exact (hf.ends other).update hends hmeets

/-! ### New objects -/

/-- The heap without objects. -/
def initial : ObjectHeap P := { shapes := ⟨.initial, []⟩, objects := [] }

theorem wf_initial : (initial : ObjectHeap P).WF := by
  refine ⟨⟨⟨ShapeHeap.wf_initial, ?_⟩, ?_, ?_⟩, ⟨rfl, rfl⟩, ⟨?_, ?_⟩, ?_⟩
  · simp [initial]
  · simp [initial]
  · simp [initial]
  · intro i e he
    cases he
  · simp [initial]
  · simp [initial]

/-- Create an object with a unique shape. -/
def create (h : ObjectHeap P) (prototype : JsPrototype) : ObjectHeap P :=
  let (shape, shapes) := h.shapes.newUnique prototype .empty
  { shapes, objects := h.objects ++ [{ map := { shape, storage := [] }, extensible := true }] }

/-- What creating an object changes. -/
theorem create_moves (wf : h.WF) (prototype : JsPrototype) :
    h.shapes.Moves false (h.shapes.newUnique prototype .empty).2 (.shared ShapeHeap.rootShape)
      (h.shapes.newUnique prototype .empty).1 [] prototype :=
  Shapes.newUnique_moves wf.owned.wf .empty _ prototype

theorem create_wf (wf : h.WF) (prototype : JsPrototype) : (h.create prototype).WF :=
  (evolves_push wf (create_moves wf prototype) (fun _ hu => (nomatch hu))
    (wf.attributes.newUnique _ .empty) true).wf

/-- The prototype of a new object is the given one, those of the others stay. -/
theorem prototypeOf_create (wf : h.WF) (prototype : JsPrototype) :
    (h.create prototype).prototypeOf =
      Function.update h.prototypeOf h.objects.length prototype := by
  have hm := create_moves wf prototype
  funext other
  rcases Nat.lt_trichotomy other h.objects.length with hlt | rfl | hgt
  · have hy := List.getElem?_eq_getElem hlt
    have hcreated : (h.create prototype).objects[other]? = some (h.objects[other]) :=
      (List.getElem?_append_left hlt).trans hy
    rw [Function.update_of_ne hlt.ne, prototypeOf_eq hcreated, prototypeOf_eq hy]
    exact (hm.propertyList_eq wf.owned.wf (wf.valid hy) fun u _ => nofun).2.2
  · rw [Function.update_self]
    have hcreated : (h.create prototype).objects[h.objects.length]? =
        some { map := { shape := (h.shapes.newUnique prototype .empty).1, storage := [] }
               extensible := true } := List.getElem?_concat_length
    exact (prototypeOf_eq hcreated).trans hm.prototype_eq
  · have hnone : ∀ {k : ℕ}, h.objects.length ≤ k → h.prototypeOf k = none := fun hle => by
      rw [prototypeOf, List.getElem?_eq_none hle, Option.bind_none]
    have hcreated : (h.create prototype).objects[other]? = none :=
      List.getElem?_eq_none (by simpa [create] using Nat.succ_le_of_lt hgt)
    rw [Function.update_of_ne hgt.ne', hnone hgt.le, prototypeOf, hcreated, Option.bind_none]

/-- **A new object** leaves the forest a forest: no chain has come to it yet. -/
theorem create_forest (wf : h.WF) (hf : h.Forest) {prototype : JsPrototype}
    (hproto : h.HasPrototype prototype) : (h.create prototype).Forest := by
  have hlength : (h.create prototype).objects.length = h.objects.length + 1 := by simp [create]
  have hmeets : ¬Meets h.prototypeOf h.objects.length prototype := by
    rintro ⟨n, hn⟩
    exact Nat.lt_irrefl _ (mem_of_above (s := { k | k < h.objects.length })
      (fun obj _ => hf.closed obj) hproto hn)
  refine ⟨fun obj proto hp => ?_, fun obj => ?_⟩
  · rw [prototypeOf_create wf] at hp
    rw [hlength, Nat.lt_succ_iff]
    by_cases hobj : obj = h.objects.length
    · rw [hobj, Function.update_self] at hp
      exact (hproto proto hp).le
    · rw [Function.update_of_ne hobj] at hp
      exact (hf.closed obj proto hp).le
  · rw [prototypeOf_create wf]
    exact (hf.ends obj).update ⟨_, hf.above_length hproto⟩ hmeets

/-! ### Sequences of calls -/

/-- What happens to the prototypes of a heap. -/
inductive PrototypeLabel where
  | create (prototype : JsPrototype)
  | setPrototypeOf (obj : ℕ) (prototype : JsPrototype)

/-- Calls of `ordinary_set_prototype_of`, and creations of objects between them, from a heap
whose prototypes form a forest. -/
def prototypeCalls (P : Type) : TransitionSystem (ObjectHeap P) PrototypeLabel where
  init := fun h => h.WF ∧ h.Forest
  step := fun h l h' => match l with
    | .create prototype => h.HasPrototype prototype ∧ h' = h.create prototype
    | .setPrototypeOf obj prototype => obj < h.objects.length ∧ h.HasPrototype prototype ∧
        ∃ done, h.ordinarySetPrototypeOf obj prototype = some (done, h')

/-- The prototypes form a forest in every run. -/
theorem forest_of_calls (run : (prototypeCalls P).Reachable h) : h.WF ∧ h.Forest := by
  refine run.invariant (fun _ hinit => hinit) fun h l h' inv _ hstep => ?_
  cases l with
  | create prototype =>
      obtain ⟨hproto, rfl⟩ := hstep
      exact ⟨create_wf inv.1 prototype, create_forest inv.1 inv.2 hproto⟩
  | setPrototypeOf obj val =>
      obtain ⟨hobj, hval, done, hcall⟩ := hstep
      obtain ⟨result, hresult, hsets⟩ := ordinarySetPrototypeOf_forest inv.1 inv.2 hobj hval
      rw [hcall] at hresult
      cases hresult
      cases hsets with
      | accepted wf hforest => exact ⟨wf, hforest⟩
      | rejected => exact inv

/-- **Prototype chains end**: after any sequence of calls every chain comes to null, the walks
of `[[HasProperty]]`, `[[Get]]` and `[[Set]]` terminate, and so does the next call, which
changes no prototype if it is rejected. -/
theorem prototypes_end [DecidableEq P] (run : (prototypeCalls P).Reachable h)
    (hobj : obj < h.objects.length) :
    (∃ n, above h.prototypeOf n (some obj) = none) ∧
      (∀ key, (h.ordinaryHasProperty obj key).isSome = true ∧
        (h.ordinaryGet obj key).isSome = true ∧
        ∃ r, h.lookup obj key = some r ∧ ∀ value receiver,
          h.ordinarySet obj key value receiver = h.setWithOwnDescriptor key value receiver r) ∧
      ∀ val, h.HasPrototype val → ∃ done h', h.ordinarySetPrototypeOf obj val = some (done, h') ∧
        (done = false → ∀ other, h'.prototypeOf other = h.prototypeOf other) := by
  obtain ⟨wf, hf⟩ := forest_of_calls run
  refine ⟨hf.ends obj, fun key => ?_, fun val hval => ?_⟩
  · obtain ⟨r, hr⟩ := hf.exists_lookup wf hobj key
    refine ⟨?_, ?_, r, hr, fun value receiver => ?_⟩
    · rw [ordinaryHasProperty, hr, Option.map_some, Option.isSome_some]
    · rw [ordinaryGet, hr, Option.map_some, Option.isSome_some]
    · rw [ordinarySet, hr, Option.bind_some]
  · obtain ⟨⟨done, h'⟩, hcall, hsets⟩ := ordinarySetPrototypeOf_forest wf hf hobj hval
    refine ⟨done, h', hcall, fun hdone other => ?_⟩
    cases hsets with
    | accepted => cases hdone
    | rejected => rfl

/-- Two objects, the first one the prototype of the second. -/
def linkedHeap : ObjectHeap ℕ :=
  ((((initial.create none).create none).ordinarySetPrototypeOf 1 (some 0)).map Prod.snd).getD
    initial

/-- The first object cannot have the second one as its prototype, whose chain ends. -/
theorem prototypes_end_linkedHeap :
    ((linkedHeap.ordinarySetPrototypeOf 0 (some 1)).map Prod.fst = some false ∧
        linkedHeap.prototypeOf 1 = some 0) ∧
      (∃ n, above linkedHeap.prototypeOf n (some 1) = none) ∧
      (∀ key, (linkedHeap.ordinaryHasProperty 1 key).isSome = true ∧
        (linkedHeap.ordinaryGet 1 key).isSome = true ∧
        ∃ r, linkedHeap.lookup 1 key = some r ∧ ∀ value receiver,
          linkedHeap.ordinarySet 1 key value receiver =
            linkedHeap.setWithOwnDescriptor key value receiver r) ∧
      ∀ val, linkedHeap.HasPrototype val → ∃ done h',
        linkedHeap.ordinarySetPrototypeOf 1 val = some (done, h') ∧
          (done = false → ∀ other, h'.prototypeOf other = linkedHeap.prototypeOf other) := by
  have hnull : ∀ h : ObjectHeap ℕ, h.HasPrototype none := fun _ => nofun
  have hforest : (initial : ObjectHeap ℕ).Forest := ⟨fun _ => nofun, fun _ => ⟨1, rfl⟩⟩
  have hempty : (prototypeCalls ℕ).Reachable initial := .start ⟨wf_initial, hforest⟩
  have hcreate : ∀ {h : ObjectHeap ℕ}, (prototypeCalls ℕ).Reachable h →
      (prototypeCalls ℕ).Reachable (h.create none) := fun {h} run =>
    .next (l := PrototypeLabel.create none) run trivial
      (show h.HasPrototype none ∧ h.create none = h.create none from ⟨hnull h, rfl⟩)
  have hlinked : (prototypeCalls ℕ).Reachable linkedHeap := by
    refine .next (l := PrototypeLabel.setPrototypeOf 1 (some 0)) (hcreate (hcreate hempty))
      trivial (And.intro (by decide) (And.intro ?_ ⟨true, rfl⟩))
    rintro proto ⟨⟩
    decide
  exact ⟨by decide, prototypes_end hlinked (by decide)⟩

end ObjectHeap

end BoaLigero
