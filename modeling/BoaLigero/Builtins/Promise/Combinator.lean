import BoaLigero.Object.InternalMethods
import Mathlib.Algebra.Ring.Int.Defs
import Mathlib.Algebra.Ring.Nat
import Mathlib.Data.List.Basic

/-!
# Promise Combinators

One call of `Promise.all`, `Promise.allSettled` or `Promise.any`: a loop over the elements that
makes functions for each of them and passes them to a `then`, and the functions, which the code
of the program may call at any time once they exist, while the loop runs or later, and as often
as it likes. A count of what remains, which starts with one for the loop itself, decides who
passes the values on. The count is an `i32`, whose overflow is no result, as with overflow checks.

The loop may end with an exception anywhere, also where it reaches the limit of loop iterations.

## Main results

* `Combinator.results_performAll` — in every run the values are passed on once at most, namely as
  soon as the loop is done and each element was called, and they are what the elements were first
  called with, in the order of the loop.
-/

namespace BoaLigero

/-- What a combinator makes of the value an element is fulfilled or rejected with. Without a
function of its own an element is passed that of the capability. -/
structure CombinatorVariant (P : Type) where
  fulfilled : Option (JsValue P → JsValue P)
  rejected : Option (JsValue P → JsValue P)

/-- `Promise.all`. -/
def performPromiseAll (P : Type) : CombinatorVariant P := ⟨some id, none⟩

/-- `Promise.allSettled`, by the objects that hold a status and a value or a reason. -/
def performPromiseAllSettled {P : Type} (fulfilledObject rejectedObject : JsValue P → JsValue P) :
    CombinatorVariant P := ⟨some fulfilledObject, some rejectedObject⟩

/-- `Promise.any`, whose values are the errors. -/
def performPromiseAny (P : Type) : CombinatorVariant P := ⟨none, some id⟩

/-- What the loop waits for. -/
inductive CombinatorPhase
  /-- The next element. -/
  | stepping
  /-- The promise of an element. -/
  | resolving
  /-- The `then` of a promise. -/
  | invoking
  | done
  | failed
deriving DecidableEq

/-- The loop, with the functions it made: the index each of them stores, and whether it was
called. -/
structure Combinator (P : Type) where
  values : List (JsValue P)
  indices : List ℕ
  alreadyCalled : List Bool
  remainingElementsCount : Int32
  index : ℕ
  phase : CombinatorPhase

/-- A step of the loop or a call of the functions of an element. -/
inductive CombinatorAction (P : Type)
  /-- There is another element. -/
  | stepped
  /-- The element was resolved to a promise, and functions are made for it. -/
  | resolved
  /-- The `then` of the promise returned. -/
  | invoked
  /-- There are no more elements. -/
  | exhausted
  /-- The loop ends with an exception. -/
  | threw
  | callFulfilled (element : ℕ) (value : JsValue P)
  | callRejected (element : ℕ) (reason : JsValue P)

namespace Combinator

variable {P : Type}

/-- The loop before the first element. -/
def start : Combinator P := ⟨[], [], [], 1, 0, .stepping⟩

/-- Adds to a count; no result is an overflow. -/
def checkedAdd (count : Int32) (delta : ℤ) : Option Int32 :=
  if -2 ^ 31 ≤ count.toInt + delta ∧ count.toInt + delta < 2 ^ 31 then
    some (.ofInt (count.toInt + delta))
  else none

/-- One element or the loop itself remains less; the values are passed on if nothing remains. -/
def countDown (self : Combinator P) : Option (Combinator P × List (List (JsValue P))) := do
  let remainingElementsCount ← checkedAdd self.remainingElementsCount (-1)
  return ({ self with remainingElementsCount },
    if remainingElementsCount = 0 then [self.values] else [])

/-- A call of a function of an element; no result is an index out of bounds or an overflow. -/
def callElement (self : Combinator P) (element : ℕ) (value : JsValue P) :
    Option (Combinator P × List (List (JsValue P))) := do
  if ← self.alreadyCalled[element]? then return (self, [])
  else
    let alreadyCalled := self.alreadyCalled.set element true
    let index ← self.indices[element]?
    if index < self.values.length then
      countDown { self with alreadyCalled, values := self.values.set index value }
    else none

/-- Performs an action, with the values that are passed on. -/
def perform (variant : CombinatorVariant P) (self : Combinator P) :
    CombinatorAction P → Option (Combinator P × List (List (JsValue P)))
  | .stepped =>
      some ({ self with values := self.values ++ [.undefined], phase := .resolving }, [])
  | .resolved => do
      let remainingElementsCount ← checkedAdd self.remainingElementsCount 1
      return ({ self with
        indices := self.indices ++ [self.index]
        alreadyCalled := self.alreadyCalled ++ [false]
        remainingElementsCount
        phase := .invoking }, [])
  | .invoked => some ({ self with index := self.index + 1, phase := .stepping }, [])
  | .exhausted => { self with phase := .done }.countDown
  | .threw => some ({ self with phase := .failed }, [])
  | .callFulfilled element value => do self.callElement element ((← variant.fulfilled) value)
  | .callRejected element reason => do self.callElement element ((← variant.rejected) reason)

/-- What an action needs: the loop goes on where it waits, and only functions that exist are
called. -/
def Allows (variant : CombinatorVariant P) (self : Combinator P) : CombinatorAction P → Prop
  | .stepped | .exhausted => self.phase = .stepping
  | .resolved => self.phase = .resolving
  | .invoked => self.phase = .invoking
  | .threw => self.phase ≠ .done ∧ self.phase ≠ .failed
  | .callFulfilled element _ =>
      element < self.alreadyCalled.length ∧ variant.fulfilled.isSome
  | .callRejected element _ => element < self.alreadyCalled.length ∧ variant.rejected.isSome

/-- Performs actions one after the other. -/
def performAll (variant : CombinatorVariant P) (self : Combinator P) :
    List (CombinatorAction P) → Option (Combinator P × List (List (JsValue P)))
  | [] => some (self, [])
  | action :: actions => do
      let (self, results) ← self.perform variant action
      let (self, rest) ← self.performAll variant actions
      return (self, results ++ rest)

/-- What a sequence of actions needs. -/
def AllowsAll (variant : CombinatorVariant P) (self : Combinator P) :
    List (CombinatorAction P) → Prop
  | [] => True
  | action :: actions =>
      self.Allows variant action ∧
        ∀ self' results, self.perform variant action = some (self', results) →
          self'.AllowsAll variant actions

/-! ### Histories -/

/-- What an element is called with by an action. -/
def callOf (variant : CombinatorVariant P) (element : ℕ) :
    CombinatorAction P → Option (JsValue P)
  | .callFulfilled called value =>
      if called = element then variant.fulfilled.map fun f => f value else none
  | .callRejected called reason =>
      if called = element then variant.rejected.map fun f => f reason else none
  | _ => none

/-- What an element was first called with. -/
def firstCall (variant : CombinatorVariant P) (actions : List (CombinatorAction P))
    (element : ℕ) : Option (JsValue P) := actions.findSome? (callOf variant element)

/-- Whether functions are made for an element. -/
def isResolved : CombinatorAction P → Bool
  | .resolved => true
  | _ => false

/-- Whether the loop is done. -/
def isExhausted : CombinatorAction P → Bool
  | .exhausted => true
  | _ => false

/-- How many elements functions were made for. -/
def elements (actions : List (CombinatorAction P)) : ℕ := actions.countP isResolved

/-- What must be passed on after a run: once the loop is done and every element was called, what
they were first called with. -/
def expected (variant : CombinatorVariant P) (actions : List (CombinatorAction P)) :
    List (List (JsValue P)) :=
  if actions.any isExhausted ∧
      ∀ element < elements actions, (firstCall variant actions element).isSome then
    [(List.range (elements actions)).filterMap (firstCall variant actions)]
  else []

section Histories

variable {variant : CombinatorVariant P} {actions : List (CombinatorAction P)}
  {action : CombinatorAction P}

theorem firstCall_concat (element : ℕ) :
    firstCall variant (actions ++ [action]) element =
      (firstCall variant actions element).or (callOf variant element action) := by
  rw [firstCall, List.findSome?_append, List.findSome?_singleton]
  rfl

theorem elements_append (more : List (CombinatorAction P)) :
    elements (actions ++ more) = elements actions + elements more :=
  List.countP_append

theorem elements_concat :
    elements (actions ++ [action]) = elements actions + elements [action] :=
  elements_append [action]

end Histories

/-! ### The invariant -/

/-- Where the loop stands. -/
def Stands (self : Combinator P) (elements : ℕ) : Prop :=
  match self.phase with
  | .stepping => self.values.length = elements ∧ self.index = elements
  | .resolving => self.values.length = elements + 1 ∧ self.index = elements
  | .invoking => self.values.length = elements ∧ self.index + 1 = elements
  | .done => self.values.length = elements
  | .failed => elements ≤ self.values.length

/-- **The invariant**: the functions of an element store its number, the values are what the
elements were first called with, and the count is that of the elements that were not called, and
of the loop. -/
structure Invariant (variant : CombinatorVariant P) (actions : List (CombinatorAction P))
    (loop : Combinator P) : Prop where
  indices : loop.indices = List.range (elements actions)
  alreadyCalled : loop.alreadyCalled =
    (List.range (elements actions)).map fun e => (firstCall variant actions e).isSome
  values : loop.values = (List.range loop.values.length).map fun e =>
    (firstCall variant actions e).getD .undefined
  later : ∀ e, elements actions ≤ e → firstCall variant actions e = none
  stands : loop.Stands (elements actions)
  exhausted : actions.any isExhausted = decide (loop.phase = .done)
  remaining : loop.remainingElementsCount.toInt =
    loop.alreadyCalled.count false + if loop.phase = .done then 0 else 1

/-- What was passed on when nothing remains. -/
def passed (self : Combinator P) : List (List (JsValue P)) :=
  if self.remainingElementsCount = 0 then [self.values] else []

variable {variant : CombinatorVariant P} {actions : List (CombinatorAction P)}
  {self : Combinator P} {action : CombinatorAction P}

theorem invariant_start : (start : Combinator P).Invariant variant [] where
  indices := rfl
  alreadyCalled := rfl
  values := rfl
  later _ _ := rfl
  stands := ⟨rfl, rfl⟩
  exhausted := rfl
  remaining := rfl

theorem Invariant.length_le (inv : self.Invariant variant actions) :
    elements actions ≤ self.values.length := by
  have hstands := inv.stands
  rw [Stands] at hstands
  split at hstands <;> omega

/-- All elements were called exactly if no function is left that was not. -/
theorem Invariant.count_eq_zero_iff (inv : self.Invariant variant actions) :
    self.alreadyCalled.count false = 0 ↔
      ∀ e < elements actions, (firstCall variant actions e).isSome := by
  rw [List.count_eq_zero, inv.alreadyCalled]
  constructor
  · intro h e he
    by_contra hnot
    refine h (List.mem_map.mpr ⟨e, List.mem_range.mpr he, ?_⟩)
    simpa using hnot
  · intro h hmem
    obtain ⟨e, he, hnone⟩ := List.mem_map.mp hmem
    rw [h e (List.mem_range.mp he)] at hnone
    cases hnone

theorem passed_eq :
    self.passed = if self.remainingElementsCount.toInt = 0 then [self.values] else [] :=
  if_congr (by rw [← Int32.toInt_inj, Int32.toInt_zero]) rfl rfl

/-- **What is passed on** is what must be. -/
theorem Invariant.expected_eq (inv : self.Invariant variant actions) :
    expected variant actions = self.passed := by
  rw [expected, passed_eq, inv.exhausted, inv.remaining]
  by_cases hphase : self.phase = .done
  · have hlength : self.values.length = elements actions := by
      have hstands := inv.stands
      rw [Stands, hphase] at hstands
      exact hstands
    rw [if_pos hphase, Int.add_zero, decide_eq_true hphase]
    by_cases hall : self.alreadyCalled.count false = 0
    · have hcalled := inv.count_eq_zero_iff.mp hall
      rw [if_pos ⟨rfl, hcalled⟩, if_pos (by omega), inv.values, hlength, ← List.filterMap_eq_map]
      refine congrArg (fun values => [values]) (List.filterMap_congr fun e he => ?_)
      obtain ⟨value, hvalue⟩ := Option.isSome_iff_exists.mp (hcalled e (List.mem_range.mp he))
      simp [hvalue]
    · rw [if_neg fun h => hall (inv.count_eq_zero_iff.mpr h.2), if_neg (by omega)]
  · rw [if_neg hphase, decide_eq_false hphase, if_neg (fun h => Bool.false_ne_true h.1),
      if_neg (by omega)]

/-- What a step comes to: no index is out of bounds, the invariant is kept, and what is passed on
is passed on now. -/
def Keeps (variant : CombinatorVariant P) (actions : List (CombinatorAction P))
    (self : Combinator P) (outcome : Option (Combinator P × List (List (JsValue P)))) : Prop :=
  ∃ self' new, outcome = some (self', new) ∧ self'.Invariant variant actions ∧
    self'.passed = self.passed ++ new

/-- Nothing is passed on as long as something remains. -/
theorem passed_of_pos (h : 0 < self.remainingElementsCount.toInt) : self.passed = [] :=
  passed_eq.trans (if_neg (by omega))

/-- A count that stays in range. -/
theorem checkedAdd_eq {count : Int32} {delta : ℤ} (hlow : -2 ^ 31 ≤ count.toInt + delta)
    (hhigh : count.toInt + delta < 2 ^ 31) :
    ∃ count', checkedAdd count delta = some count' ∧ count'.toInt = count.toInt + delta :=
  ⟨_, if_pos ⟨hlow, hhigh⟩, Int32.toInt_ofInt_of_le hlow hhigh⟩

/-- **Counting down** as long as something remains. -/
theorem countDown_eq (h : 0 < self.remainingElementsCount.toInt) :
    ∃ count : Int32, count.toInt = self.remainingElementsCount.toInt - 1 ∧
      self.countDown = some ({ self with remainingElementsCount := count },
        { self with remainingElementsCount := count }.passed) := by
  have hlt := self.remainingElementsCount.toInt_lt
  obtain ⟨count, hadd, hcount⟩ :=
    @checkedAdd_eq self.remainingElementsCount (-1) (by omega) (by omega)
  refine ⟨count, hcount, ?_⟩
  rw [countDown, hadd]
  rfl

theorem Invariant.remaining_pos (inv : self.Invariant variant actions)
    (hphase : self.phase ≠ .done) : 0 < self.remainingElementsCount.toInt := by
  rw [inv.remaining, if_neg hphase]
  omega

/-- **A step of the loop** that makes no functions and does not end it. -/
theorem Invariant.loop (inv : self.Invariant variant actions)
    (hphase : self.phase ≠ .done) (hsilent : ∀ e, callOf variant e action = none)
    (helements : elements [action] = 0) (hexhausted : isExhausted action = false)
    {self' : Combinator P} (hindices : self'.indices = self.indices)
    (hcalled : self'.alreadyCalled = self.alreadyCalled)
    (hremaining : self'.remainingElementsCount = self.remainingElementsCount)
    (hvalues : self'.values = (List.range self'.values.length).map fun e =>
      (firstCall variant actions e).getD .undefined)
    (hphase' : self'.phase ≠ .done) (hstands : self'.Stands (elements actions)) :
    Keeps variant (actions ++ [action]) self (some (self', [])) := by
  have hfirst : firstCall variant (actions ++ [action]) = firstCall variant actions := by
    funext e
    rw [firstCall_concat, hsilent, Option.or_none]
  have hcount : elements (actions ++ [action]) = elements actions := by
    rw [elements_concat, helements, Nat.add_zero]
  refine ⟨self', [], rfl, ⟨?_, ?_, ?_, ?_, ?_, ?_, ?_⟩, ?_⟩
  · rw [hindices, hcount, inv.indices]
  · rw [hcalled, hcount, hfirst, inv.alreadyCalled]
  · rw [hfirst]
    exact hvalues
  · rw [hcount, hfirst]
    exact inv.later
  · rw [hcount]
    exact hstands
  · rw [List.any_append, inv.exhausted, List.any_cons, hexhausted, decide_eq_false hphase,
      decide_eq_false hphase']
    rfl
  · rw [hremaining, hcalled, inv.remaining, if_neg hphase, if_neg hphase']
  · have hpos := inv.remaining_pos hphase
    rw [passed_of_pos hpos, passed_of_pos (hremaining ▸ hpos), List.append_nil]

/-- **The loop makes functions** for the next element; the count has room for it. -/
theorem Invariant.resolved (inv : self.Invariant variant actions)
    (hphase : self.phase = .resolving) (hroom : elements actions + 1 < 2 ^ 31 - 1) :
    Keeps variant (actions ++ [.resolved]) self (self.perform variant .resolved) := by
  have hfirst : firstCall variant (actions ++ [.resolved]) = firstCall variant actions := by
    funext e
    rw [firstCall_concat]
    exact Option.or_none
  have hcount : elements (actions ++ [.resolved]) = elements actions + 1 := elements_concat
  have hstands : self.values.length = elements actions + 1 ∧ self.index = elements actions := by
    have hstands := inv.stands
    rw [Stands, hphase] at hstands
    exact hstands
  have hle : self.alreadyCalled.count false ≤ elements actions := by
    have hlength : self.alreadyCalled.length = elements actions := by
      rw [inv.alreadyCalled, List.length_map, List.length_range]
    exact hlength ▸ List.count_le_length
  have hremaining := inv.remaining
  rw [hphase, if_neg (by decide)] at hremaining
  obtain ⟨count, hadd, hcounted⟩ :=
    @checkedAdd_eq self.remainingElementsCount 1 (by omega) (by omega)
  rw [Combinator.perform, hadd]
  refine ⟨_, [], rfl, ⟨?_, ?_, ?_, ?_, ?_, ?_, ?_⟩, ?_⟩
  · rw [hcount, List.range_succ, inv.indices, hstands.2]
  · rw [hcount, hfirst, List.range_succ, List.map_append, inv.alreadyCalled, List.map_singleton,
      inv.later _ (Nat.le_refl _)]
    rfl
  · rw [hfirst]
    exact inv.values
  · rw [hcount, hfirst]
    exact fun e he => inv.later e (Nat.le_of_succ_le he)
  · rw [hcount]
    exact ⟨hstands.1, congrArg (· + 1) hstands.2⟩
  · rw [List.any_append, inv.exhausted, hphase]
    rfl
  · simp only [List.count_append, List.count_singleton, hcounted, hremaining]
    simp
  · have hpos := inv.remaining_pos (by rw [hphase]; decide)
    rw [passed_of_pos hpos, passed_of_pos (hcounted ▸ Int.add_pos hpos Int.one_pos),
      List.append_nil]

/-- **The loop is done**, and if nothing remains, it passes the values on. -/
theorem Invariant.exhausted_step (inv : self.Invariant variant actions)
    (hphase : self.phase = .stepping) :
    Keeps variant (actions ++ [.exhausted]) self (self.perform variant .exhausted) := by
  have hfirst : firstCall variant (actions ++ [.exhausted]) = firstCall variant actions := by
    funext e
    rw [firstCall_concat]
    exact Option.or_none
  have hcount : elements (actions ++ [.exhausted]) = elements actions := elements_concat
  have hpos := inv.remaining_pos (by rw [hphase]; decide)
  obtain ⟨count, hcounted, hdown⟩ := @countDown_eq P { self with phase := .done } hpos
  rw [Combinator.perform, hdown]
  refine ⟨_, _, rfl, ⟨?_, ?_, ?_, ?_, ?_, ?_, ?_⟩, ?_⟩
  · rw [hcount]
    exact inv.indices
  · rw [hcount, hfirst]
    exact inv.alreadyCalled
  · rw [hfirst]
    exact inv.values
  · rw [hcount, hfirst]
    exact inv.later
  · have hstands := inv.stands
    rw [Stands, hphase] at hstands
    rw [hcount]
    exact hstands.1
  · rw [List.any_append, List.any_cons]
    exact Bool.or_true _
  · simp only [hcounted, inv.remaining, hphase]
    simp
  · rw [passed_of_pos hpos, List.nil_append]

/-- One element of a list of values of numbers changes. -/
theorem set_map_range {α : Type} {f g : ℕ → α} {n i : ℕ} (h : ∀ e, e ≠ i → g e = f e) :
    ((List.range n).map f).set i (g i) = (List.range n).map g := by
  refine List.ext_getElem (by simp) fun e he _ => ?_
  rw [List.getElem_set]
  split
  · next heq => simp [heq]
  · next hne => simp [h e (Ne.symm hne)]

/-- **An element is called.** -/
theorem Invariant.call (inv : self.Invariant variant actions) {element : ℕ}
    {value : JsValue P} (helement : element < self.alreadyCalled.length)
    (hcall : ∀ e, callOf variant e action = if element = e then some value else none)
    (helements : elements [action] = 0) (hexhausted : isExhausted action = false) :
    Keeps variant (actions ++ [action]) self (self.callElement element value) := by
  have hcount : elements (actions ++ [action]) = elements actions := by
    rw [elements_concat, helements, Nat.add_zero]
  have hany : (actions ++ [action]).any isExhausted = decide (self.phase = .done) := by
    rw [List.any_append, inv.exhausted, List.any_cons, hexhausted]
    simp
  have hlt : element < elements actions := by
    rw [inv.alreadyCalled, List.length_map, List.length_range] at helement
    exact helement
  have hget : self.alreadyCalled[element]? =
      some (firstCall variant actions element).isSome := by
    rw [inv.alreadyCalled, List.getElem?_map, List.getElem?_range hlt]
    rfl
  have hother : ∀ e, e ≠ element →
      firstCall variant (actions ++ [action]) e = firstCall variant actions e := by
    intro e hne
    rw [firstCall_concat, hcall, if_neg (Ne.symm hne), Option.or_none]
  rw [callElement, hget]
  rcases hfirst : firstCall variant actions element with _ | first
  · have hnew : firstCall variant (actions ++ [action]) element = some value := by
      rw [firstCall_concat, hfirst, hcall, if_pos rfl]
      rfl
    have hindex : self.indices[element]? = some element := by
      rw [inv.indices, List.getElem?_range hlt]
    have hbound : element < self.values.length := Nat.lt_of_lt_of_le hlt inv.length_le
    have hcalls : self.alreadyCalled.set element true = (List.range (elements actions)).map
        fun e => (firstCall variant (actions ++ [action]) e).isSome := by
      have hset := @set_map_range _ (fun e => (firstCall variant actions e).isSome)
        (fun e => (firstCall variant (actions ++ [action]) e).isSome) (elements actions) element
        fun e hne => congrArg _ (hother e hne)
      simp only [hnew, Option.isSome_some] at hset
      rw [← hset, inv.alreadyCalled]
    have hvalues : self.values.set element value = (List.range self.values.length).map
        fun e => (firstCall variant (actions ++ [action]) e).getD .undefined := by
      have hset := @set_map_range _ (fun e => (firstCall variant actions e).getD .undefined)
        (fun e => (firstCall variant (actions ++ [action]) e).getD .undefined) self.values.length
        element fun e hne => congrArg (fun call => call.getD .undefined) (hother e hne)
      simp only [hnew, Option.getD_some] at hset
      rw [← hset, ← inv.values]
    have hfewer : (self.alreadyCalled.set element true).count false + 1 =
        self.alreadyCalled.count false := by
      have hfalse : self.alreadyCalled[element] = false := by
        rw [(List.getElem?_eq_some_iff.mp hget).2, hfirst]
        rfl
      have hpos : 0 < self.alreadyCalled.count false :=
        List.count_pos_iff.mpr (hfalse ▸ List.getElem_mem helement)
      rw [List.count_set helement, hfalse]
      simp
      omega
    have hremaining := inv.remaining
    have hpos : 0 < self.remainingElementsCount.toInt := by omega
    obtain ⟨count, hcounted, hdown⟩ := @countDown_eq P
      { self with
        alreadyCalled := self.alreadyCalled.set element true
        values := self.values.set element value } hpos
    simp only [Option.bind_eq_bind, Option.bind_some, Option.isSome_none, hindex]
    rw [if_neg Bool.false_ne_true, if_pos hbound, hdown]
    refine ⟨_, _, rfl, ⟨?_, ?_, ?_, ?_, ?_, hany, ?_⟩, ?_⟩
    · rw [hcount]
      exact inv.indices
    · rw [hcount]
      exact hcalls
    · refine hvalues.trans ?_
      simp only [List.length_set]
    · intro e he
      rw [hcount] at he
      rw [hother e (Nat.ne_of_gt (Nat.lt_of_lt_of_le hlt he))]
      exact inv.later e he
    · rw [hcount]
      have hstands := inv.stands
      rw [Stands] at hstands ⊢
      simp only [List.length_set]
      exact hstands
    · simp only at hcounted ⊢
      omega
    · rw [passed_of_pos hpos, List.nil_append]
  · -- The element was called before.
    have hsame : firstCall variant (actions ++ [action]) = firstCall variant actions := by
      funext e
      by_cases heq : e = element
      · rw [heq, firstCall_concat, hfirst]
        rfl
      · exact hother e heq
    refine ⟨self, [], rfl, ⟨?_, ?_, ?_, ?_, ?_, hany, inv.remaining⟩, (List.append_nil _).symm⟩
    · rw [hcount, inv.indices]
    · rw [hcount, hsame, inv.alreadyCalled]
    · rw [hsame]
      exact inv.values
    · rw [hcount, hsame]
      exact inv.later
    · rw [hcount]
      exact inv.stands

/-- **Every action keeps the invariant.** -/
theorem Invariant.perform (inv : self.Invariant variant actions)
    (hallows : self.Allows variant action)
    (hroom : elements (actions ++ [action]) < 2 ^ 31 - 1) :
    Keeps variant (actions ++ [action]) self (self.perform variant action) := by
  cases action with
  | stepped =>
      have hphase : self.phase = .stepping := hallows
      have hstands := inv.stands
      rw [Stands, hphase] at hstands
      refine inv.loop (by rw [hphase]; decide) (fun _ => rfl) rfl rfl rfl rfl rfl ?_
        (by rintro ⟨⟩) ?_
      · rw [List.length_append, List.length_singleton, List.range_succ, List.map_append,
          ← inv.values, List.map_singleton, inv.later _ (Nat.le_of_eq hstands.1.symm)]
        rfl
      · refine ⟨?_, hstands.2⟩
        rw [List.length_append, hstands.1]
        rfl
  | resolved =>
      rw [elements_concat] at hroom
      exact inv.resolved hallows hroom
  | invoked =>
      have hphase : self.phase = .invoking := hallows
      have hstands := inv.stands
      rw [Stands, hphase] at hstands
      exact inv.loop (by rw [hphase]; decide) (fun _ => rfl) rfl rfl rfl rfl rfl inv.values
        (by rintro ⟨⟩) hstands
  | exhausted => exact inv.exhausted_step hallows
  | threw =>
      exact inv.loop hallows.1 (fun _ => rfl) rfl rfl rfl rfl rfl inv.values
        (by rintro ⟨⟩) inv.length_le
  | callFulfilled element value =>
      obtain ⟨f, hf⟩ := Option.isSome_iff_exists.mp hallows.2
      have hcall : ∀ e, callOf variant e (.callFulfilled element value) =
          if element = e then some (f value) else none := fun e => by rw [callOf, hf]; rfl
      have hkeeps := inv.call hallows.1 hcall rfl rfl
      rw [Combinator.perform, hf]
      exact hkeeps
  | callRejected element reason =>
      obtain ⟨f, hf⟩ := Option.isSome_iff_exists.mp hallows.2
      have hcall : ∀ e, callOf variant e (.callRejected element reason) =
          if element = e then some (f reason) else none := fun e => by rw [callOf, hf]; rfl
      have hkeeps := inv.call hallows.1 hcall rfl rfl
      rw [Combinator.perform, hf]
      exact hkeeps

theorem Invariant.performAll (inv : self.Invariant variant actions)
    {more : List (CombinatorAction P)} (hallows : self.AllowsAll variant more)
    (hroom : elements (actions ++ more) < 2 ^ 31 - 1) :
    Keeps variant (actions ++ more) self (self.performAll variant more) := by
  induction more generalizing self actions with
  | nil => exact ⟨self, [], rfl, (List.append_nil actions).symm ▸ inv, (List.append_nil _).symm⟩
  | cons action more ih =>
      rw [List.append_cons] at hroom
      have hfirst : elements (actions ++ [action]) < 2 ^ 31 - 1 := by
        rw [elements_append] at hroom
        exact Nat.lt_of_le_of_lt (Nat.le_add_right _ _) hroom
      obtain ⟨mid, new, hperform, inv', hpassed⟩ := inv.perform hallows.1 hfirst
      obtain ⟨last, rest, hrest, inv'', hpassed'⟩ := ih inv' (hallows.2 mid new hperform) hroom
      refine ⟨last, new ++ rest, ?_, ?_, ?_⟩
      · simp only [Combinator.performAll, hperform, hrest, Option.bind_eq_bind, Option.bind_some]
        rfl
      · rw [List.append_assoc] at inv''
        exact inv''
      · rw [hpassed', hpassed, List.append_assoc]

/-- **In every run** over fewer elements than an `i32` counts no index is out of bounds and no count
overflows, and the values are passed on exactly when the loop is done and each of its elements was
called: once, with what the elements were first called with, in the order of the loop. A loop that
ends with an exception never passes anything on. -/
theorem results_performAll (variant : CombinatorVariant P) {actions : List (CombinatorAction P)}
    (hallows : start.AllowsAll variant actions) (hroom : elements actions < 2 ^ 31 - 1) :
    ∃ self results, start.performAll variant actions = some (self, results) ∧
      results = expected variant actions := by
  obtain ⟨self, results, hrun, inv, hpassed⟩ := invariant_start.performAll hallows hroom
  refine ⟨self, results, hrun, ?_⟩
  have hnone : (start : Combinator P).passed = [] := rfl
  rw [hnone, List.nil_append] at hpassed
  rw [← hpassed, ← inv.expected_eq]
  rfl

/-- Actions that follow a known step. -/
theorem AllowsAll.cons {results : List (List (JsValue P))} {self' : Combinator P}
    {more : List (CombinatorAction P)}
    (hperform : self.perform variant action = some (self', results))
    (hallows : self.Allows variant action) (hrest : self'.AllowsAll variant more) :
    self.AllowsAll variant (action :: more) := by
  refine ⟨hallows, fun mid new heq => ?_⟩
  obtain ⟨rfl, rfl⟩ := Prod.mk.inj (Option.some.inj (hperform.symm.trans heq))
  exact hrest

/-- Three elements, called out of their order, one of them while the loop still runs, and two of
them again. -/
def settledActions : List (CombinatorAction ℕ) :=
  [.stepped, .resolved, .invoked, .stepped, .resolved, .callRejected 1 (.primitive 7), .invoked,
    .stepped, .resolved, .invoked, .exhausted, .callFulfilled 2 (.primitive 8),
    .callFulfilled 1 (.primitive 9), .callFulfilled 0 (.primitive 5),
    .callRejected 2 (.primitive 4)]

/-- `Promise.allSettled` with numbers for the objects. -/
def settledVariant : CombinatorVariant ℕ :=
  performPromiseAllSettled id fun _ => .undefined

theorem results_performAll_settledActions :
    ∃ self results, start.performAll settledVariant settledActions = some (self, results) ∧
      results = [[.primitive 5, .undefined, .primitive 8]] := by
  have hallows : start.AllowsAll settledVariant settledActions := by
    refine .cons rfl rfl (.cons rfl rfl (.cons rfl rfl ?_))
    refine .cons rfl rfl (.cons rfl rfl (.cons rfl ⟨by decide, rfl⟩ (.cons rfl rfl ?_)))
    refine .cons rfl rfl (.cons rfl rfl (.cons rfl rfl (.cons rfl rfl ?_)))
    refine .cons rfl ⟨by decide, rfl⟩ (.cons rfl ⟨by decide, rfl⟩ ?_)
    exact .cons rfl ⟨by decide, rfl⟩ (.cons rfl ⟨by decide, rfl⟩ trivial)
  obtain ⟨self, results, hrun, hresults⟩ :=
    results_performAll settledVariant hallows (by decide)
  exact ⟨self, results, hrun, hresults.trans (by decide)⟩

end Combinator

end BoaLigero
