import BoaLigero.Builtins.Set.WellBehaved

/-!
# The Conformance of the Set Methods

The methods of the source against the algorithms of the language standard, with any set and any
argument. Two things come between them.

A walk of the source takes no lock, so operations that `has` performs may move elements over the
position of the walk, and `intersection` reads the number of positions again only after `has`
has answered that an element is in the other. `union`, `difference` and `symmetricDifference`
start from a copy of the set that keeps its lock counter.

## Main results

* `SetMethod.agree` — an undisturbed method agrees with the standard.
* `SetMethod.locks_returned` — the lock counter of a returned set.
* `SetMethod.conforms` — both, with what is computed for a well-behaved argument.
-/

namespace BoaLigero.Builtins.SetObject

open SkippingLoop SetOp

variable {D K V σ ε A : Type} [DecidableEq K]

/-! ### Agreement with the standard -/

/-- The walk of a method is undisturbed: at every element, the operations that `has` performs
let the reader keep its place, and `intersection` does not stop in front of an element. -/
def SetMethod.Undisturbed (other : SetRecord K V σ ε) (this : Env (SetTable K) K σ) :
    SetMethod → Prop
  | .isDisjointFrom => SetData.len this.data ≤ other.size →
      Always (disjointWalker.step other) (WalkState.KeepsPlace other) (.start this ())
  | .isSubsetOf => SetData.len this.data ≤ other.size →
      Always (subsetWalker.step other) (WalkState.KeepsPlace other) (.start this ())
  | .intersection => SetData.len this.data ≤ other.size →
      Always (intersectionWalker.step other) (fun s => s.KeepsPlace other ∧ s.Covers)
        (.start this SetData.new)
  | _ => True

section Agree

variable {canonicalize : V → K} {other : SetRecord K V σ ε} {this : Env (SetTable K) K σ}
  {this' : Env (EntryList K) K σ}

/-- Tables with the same elements contain the same. -/
theorem SameEnv.contains {data : SetTable K} {data' : EntryList K}
    (h : elements data = elements data') (k : K) :
    SetData.contains data k = SetData.contains data' k := by
  rw [contains_eq, contains_eq, h]

/-- Tables with the same elements have the same size. -/
theorem SameEnv.len {data : SetTable K} {data' : EntryList K}
    (h : elements data = elements data') : SetData.len data = SetData.len data' := by
  rw [len_eq_length, len_eq_length, h]

/-- The accumulators of the loops that build a set. -/
def SameElements (result : SetTable K) (result' : EntryList K) : Prop :=
  elements result = elements result'

/-- An element that is added to both accumulators, unless it is in them, keeps them the same. -/
theorem SameElements.add {result : SetTable K} {result' : EntryList K}
    (h : SameElements result result') (k : K) :
    SameElements (SetData.add result k)
      (if SetData.contains result' k then result' else SetData.add result' k) := by
  rw [SameElements, elements_add, h, contains_eq]
  by_cases hk : k ∈ elements result'
  · rw [if_pos hk, if_pos (decide_eq_true hk)]
  · rw [if_neg hk, if_neg (by rwa [decide_eq_true_iff]), elements_add, if_neg hk]

/-- An element that is deleted from both accumulators, where it is in them, keeps them the same. -/
theorem SameElements.delete {result : SetTable K} {result' : EntryList K}
    (h : SameElements result result') (k : K) :
    SameElements (SetData.delete result k)
      (if SetData.contains result' k then SetData.delete result' k else result') := by
  rw [SameElements, elements_delete, h, contains_eq]
  by_cases hk : k ∈ elements result'
  · rw [if_pos (decide_eq_true hk), elements_delete]
  · rw [if_neg (by rwa [decide_eq_true_iff])]
    exact List.filter_eq_self.mpr fun x hx => decide_eq_true (ne_of_mem_of_not_mem hx hk)

/-- The walks of `isDisjointFrom` stop at the same answers of `has`. -/
theorem disjointWalker_related :
    (disjointWalker (K := K)).Related Standard.disjointWalker fun _ _ => True where
  visit _ b _ := by
    cases b with
    | true => exact .inr (.boolean false)
    | false => exact .inl trivial
  finish _ := .boolean true

/-- The drains of `isDisjointFrom` stop at the same keys. -/
theorem disjointDrainer_related :
    (disjointDrainer (K := K)).Related Standard.disjointDrainer fun _ _ => True where
  body h _ k := by
    rw [disjointDrainer, Standard.disjointDrainer]
    simp only [SameEnv.contains h k]
    split
    · exact .inr (.boolean false)
    · exact .inl trivial
  finish _ := .boolean true

/-- The walks of `isSubsetOf` stop at the same answers of `has`. -/
theorem subsetWalker_related :
    (subsetWalker (K := K)).Related Standard.subsetWalker fun _ _ => True where
  visit _ b _ := by
    cases b with
    | true => exact .inl trivial
    | false => exact .inr (.boolean false)
  finish _ := .boolean true

/-- The drains of `isSupersetOf` stop at the same keys. -/
theorem supersetDrainer_related :
    (supersetDrainer (K := K)).Related Standard.supersetDrainer fun _ _ => True where
  body {_ data' _ _} h _ k := by
    rw [supersetDrainer, Standard.supersetDrainer]
    simp only [SameEnv.contains h k]
    cases SetData.contains data' k with
    | true => exact .inl trivial
    | false => exact .inr (.boolean false)
  finish _ := .boolean true

/-- The drains of `symmetricDifference` add and delete the same keys. -/
theorem symmetricDifferenceDrainer_related :
    (symmetricDifferenceDrainer (K := K)).Related Standard.symmetricDifferenceDrainer
      SameElements where
  body h hacc k := by
    refine .inl ?_
    rw [SameEnv.contains h k]
    split
    · exact hacc.delete k
    · exact hacc.add k
  finish hacc := .set hacc

/-- The drains of `union` add the same keys. -/
theorem unionDrainer_related :
    (unionDrainer (K := K)).Related Standard.unionDrainer SameElements where
  body _ hacc k := .inl (hacc.add k)
  finish hacc := .set hacc

/-- The walks of `intersection` add the same elements. -/
theorem intersectionWalker_related :
    (intersectionWalker (K := K)).Related Standard.intersectionWalker SameElements where
  visit hacc b k := by
    cases b with
    | true => exact .inl (hacc.add k)
    | false => exact .inl hacc
  finish hacc := .set hacc

/-- The drains of `intersection` add the same keys. -/
theorem intersectionDrainer_related :
    (intersectionDrainer (K := K)).Related Standard.intersectionDrainer SameElements where
  body h hacc k := by
    refine .inl ?_
    rw [SameEnv.contains h k]
    split
    · exact hacc.add k
    · exact hacc
  finish hacc := .set hacc

/-- The drains of `difference` delete the same keys. -/
theorem differenceDrainer_related :
    (differenceDrainer (K := K)).Related Standard.differenceDrainer SameElements where
  body _ hacc k := .inl (hacc.delete k)
  finish hacc := .set hacc

/-- A walk that reads the number of positions after every call is on track if its place is
kept. -/
theorem onTrack_of_keepsPlace {w : Walker (SetTable K) K A} (hrefresh : ∀ b, w.refreshes b = true)
    {acc : A} (h : Always (w.step other) (WalkState.KeepsPlace other) (.start this acc)) :
    Always (w.step other) (WalkState.OnTrack other) (.start this acc) := fun fuel s hs =>
  WalkState.onTrack_source (h fuel s hs) (Walker.covers_of_sized
    (Walker.always_sized hrefresh this acc fuel s hs))

/-- A method that answers at once agrees with one that does. -/
theorem agree_of_answer (henv : SameEnv this this') (b : Bool) :
    Agree (fun _ => (.inr (.ok (.boolean b), this) : Progress (SetTable K) K σ ε))
      fun _ => .inr (.ok (.boolean b), this') :=
  .of_step fun _ => .inr ⟨.ok (.boolean b), henv⟩

/-- Methods agree if the loops they take do. -/
theorem Agree.of_eq {f g : ℕ → Progress (SetTable K) K σ ε}
    {f' g' : ℕ → Progress (EntryList K) K σ ε} (h : Agree g g') (hf : ∀ fuel, f fuel = g fuel)
    (hf' : ∀ fuel, f' fuel = g' fuel) : Agree f f' := by
  obtain rfl : f = g := funext hf
  obtain rfl : f' = g' := funext hf'
  exact h

/-- **An undisturbed method agrees with the standard.** -/
theorem SetMethod.agree (m : SetMethod) (henv : SameEnv this this')
    (h : m.Undisturbed other this) :
    Agree (m.run canonicalize other this) (m.standard canonicalize other this') := by
  have hlen := SameEnv.len henv.data
  cases m with
  | isDisjointFrom =>
      by_cases hsize : SetData.len this.data ≤ other.size
      · have hwalk := disjointWalker_related.agree henv trivial
          (onTrack_of_keepsPlace (fun _ => rfl) (h hsize))
          (Walker.onTrack_standard (fun _ => rfl) this' ())
        exact hwalk.of_eq (fun _ => if_pos hsize) fun _ => if_pos (hlen ▸ hsize)
      · have hdrain := disjointDrainer_related.agree canonicalize other (fun _ => ()) (fun _ => ())
          (fun _ _ _ => trivial) henv
        exact hdrain.of_eq (fun _ => if_neg hsize) fun _ => if_neg (hlen ▸ hsize)
  | isSubsetOf =>
      by_cases hsize : other.size < SetData.len this.data
      · exact (agree_of_answer henv false).of_eq (fun _ => if_pos hsize) fun _ =>
          if_neg (Nat.not_le.mpr (hlen ▸ hsize))
      · have hle := Nat.le_of_not_lt hsize
        have hwalk := subsetWalker_related.agree henv trivial
          (onTrack_of_keepsPlace (fun _ => rfl) (h hle))
          (Walker.onTrack_standard (fun _ => rfl) this' ())
        exact hwalk.of_eq (fun _ => if_neg hsize) fun _ => if_pos (hlen ▸ hle)
  | isSupersetOf =>
      by_cases hsize : SetData.len this.data < other.size
      · exact (agree_of_answer henv false).of_eq (fun _ => if_pos hsize) fun _ =>
          if_pos (hlen ▸ hsize)
      · have hdrain := supersetDrainer_related.agree canonicalize other (fun _ => ()) (fun _ => ())
          (fun _ _ _ => trivial) henv
        exact hdrain.of_eq (fun _ => if_neg hsize) fun _ => if_neg (hlen ▸ hsize)
  | symmetricDifference =>
      exact symmetricDifferenceDrainer_related.agree canonicalize other id id
        (fun _ _ hdata => hdata) henv
  | union =>
      exact unionDrainer_related.agree canonicalize other id id (fun _ _ hdata => hdata) henv
  | intersection =>
      have hnew : SameElements (SetData.new : SetTable K) (SetData.new : EntryList K) := rfl
      by_cases hsize : SetData.len this.data ≤ other.size
      · have hwalk := intersectionWalker_related.agree henv hnew
          ((h hsize).imp fun _ hs => WalkState.onTrack_source hs.1 hs.2)
          (Walker.onTrack_standard (fun _ => rfl) this' SetData.new)
        exact hwalk.of_eq (fun _ => if_pos hsize) fun _ => if_pos (hlen ▸ hsize)
      · have hdrain := intersectionDrainer_related.agree canonicalize other (fun _ => SetData.new) (fun _ => SetData.new)
          (fun _ _ _ => hnew) henv
        exact hdrain.of_eq (fun _ => if_neg hsize) fun _ => if_neg (hlen ▸ hsize)
  | difference =>
      by_cases hsize : SetData.len this.data ≤ other.size
      · have hloop := difference_agree other goesOn_source goesOn_standard henv
        exact hloop.of_eq (fun _ => if_pos hsize) fun _ => if_pos (hlen ▸ hsize)
      · have hdrain := differenceDrainer_related.agree canonicalize other (fun _ => this.data) (fun _ => this'.data)
          (fun _ _ _ => henv.data) henv
        exact hdrain.of_eq (fun _ => if_neg hsize) fun _ => if_neg (hlen ▸ hsize)

end Agree

/-! ### The lock counter of a returned set -/

/-- An operation of user code does not lock or unlock a set. -/
theorem SetTable.locks_apply (s : SetTable K) (op : SetOp K) : (apply s op).locks = s.locks := by
  cases op with
  | add k => rfl
  | delete k => exact OrderedSet.locks_delete s.table k
  | clear => rfl

/-- Operations of user code do not lock or unlock a set. -/
theorem SetTable.locks_perform (s : SetTable K) (ops : List (SetOp K)) :
    (perform s ops).locks = s.locks := by
  induction ops generalizing s with
  | nil => rfl
  | cons op ops ih => exact (ih (apply s op)).trans (s.locks_apply op)

/-- The answer is no set with another lock counter. -/
def Answer.LocksAre (n : UInt32) (answer : Answer (SetTable K)) : Prop :=
  ∀ d, answer = .set d → d.locks = n

omit [DecidableEq K] in

/-- A boolean has no lock counter, so that nothing is asked of it. -/
theorem Answer.locksAre_boolean (n : UInt32) (b : Bool) :
    (Answer.boolean b : Answer (SetTable K)).LocksAre n := fun _ h => nomatch h

omit [DecidableEq K] in

/-- A returned set has the lock counter that it has. -/
theorem Answer.locksAre_set {n : UInt32} {d : SetTable K} (h : d.locks = n) :
    (Answer.set d).LocksAre n := fun _ hd => by
  cases hd
  exact h

/-- A property of the answer, if there is one. -/
def Returns (Q : Answer D → Prop) (r : Except ε (Answer D) × Env D K σ) : Prop :=
  ∀ answer, r.1 = .ok answer → Q answer

section Returned

variable [LawfulSetData D K] {canonicalize : V → K} {other : SetRecord K V σ ε}
  {Q : Answer D → Prop}

omit [DecidableEq K] [LawfulSetData D K] in

/-- What throws returns nothing of which something is asked. -/
theorem returns_error (err : ε) (env : Env D K σ) : Returns Q (.error err, env) :=
  fun _ h => nomatch h

omit [DecidableEq K] [LawfulSetData D K] in

/-- What returns an answer with a property returns with this property. -/
theorem returns_ok {answer : Answer D} (h : Q answer) (env : Env D K σ) :
    Returns Q ((.ok answer, env) : Except ε (Answer D) × Env D K σ) := fun _ hanswer => by
  cases hanswer
  exact h

/-- A walk keeps a property of what it accumulates. -/
theorem Walker.returns {w : Walker D K A} {P : A → Prop}
    (hvisit : ∀ b k acc, P acc → Sum.elim P Q (w.visit b k acc))
    (hfinish : ∀ acc, P acc → Q (w.finish acc)) {acc : A} (hacc : P acc) {env : Env D K σ}
    {fuel : ℕ} {r : Except ε (Answer D) × Env D K σ}
    (h : w.run other acc env fuel = .inr r) : Returns Q r := by
  have hstep : ∀ s : WalkState D K σ A, P s.acc →
      Sum.elim (fun t => P t.acc) (Returns Q) (w.step other s) := by
    intro s hs
    rw [Walker.step]
    obtain ⟨-, hround⟩ | ⟨-, -, hround⟩ | ⟨e, -, -, hround⟩ := w.round_cases other s
    · rw [hround]
      exact returns_ok (hfinish s.acc hs) s.env
    · rw [hround]
      exact hs
    · rw [hround, Round.next, Walker.afterHas]
      cases s.env.call (.has e) (other.has e) with
      | mk result env =>
          cases result with
          | error err => exact returns_error err env
          | ok inOther =>
              have hout := hvisit inOther e s.acc hs
              simp only
              cases hvisited : w.visit inOther e s.acc with
              | inl acc =>
                  rw [hvisited] at hout
                  exact hout
              | inr answer =>
                  rw [hvisited] at hout
                  exact returns_ok hout env
  rw [Walker.run] at h
  cases hiter : iterate (w.step other) fuel (WalkState.start env acc) with
  | inl s => rw [hiter] at h; cases h
  | inr r' =>
      rw [hiter] at h
      cases h
      exact ends_of_kept hstep hacc hiter

/-- A drain keeps a property of what it accumulates. -/
theorem Drainer.returns {d : Drainer D K A} {P : A → Prop}
    (hbody : ∀ data k acc, P acc → Sum.elim P Q (d.body data k acc))
    (hfinish : ∀ acc, P acc → Q (d.finish acc)) {acc : D → A} {env : Env D K σ}
    (hacc : ∀ ops, P (acc (perform env.data ops))) {fuel : ℕ}
    {r : Except ε (Answer D) × Env D K σ}
    (h : d.run canonicalize other acc env fuel = .inr r) : Returns Q r := by
  have hstep : ∀ s : DrainState D K σ A, P s.acc →
      Sum.elim (fun t => P t.acc) (Returns Q) (d.step canonicalize other s) := by
    intro s hs
    rw [Drainer.step]
    cases s.env.call .next other.next with
    | mk result env =>
        cases result with
        | error err => exact returns_error err env
        | ok value =>
            cases value with
            | none => exact returns_ok (hfinish s.acc hs) env
            | some v =>
                have hout := hbody env.data (canonicalize v) s.acc hs
                simp only
                cases hbodied : d.body env.data (canonicalize v) s.acc with
                | inl acc =>
                    rw [hbodied] at hout
                    exact hout
                | inr answer =>
                    rw [hbodied] at hout
                    simp only
                    cases env.call .close other.close with
                    | mk result env =>
                        cases result with
                        | error err => exact returns_error err env
                        | ok u => exact returns_ok hout env
  rw [Drainer.run, withKeys, Env.call] at h
  cases hkeys : (other.keys (elements env.data) env.user).result with
  | error err =>
      simp only [hkeys] at h
      cases h
      exact returns_error err _
  | ok u =>
      simp only [hkeys] at h
      cases hiter : iterate (d.step canonicalize other) fuel
          ⟨⟨perform env.data (other.keys (elements env.data) env.user).ops,
            (other.keys (elements env.data) env.user).user, env.calls ++ [.keys]⟩,
            acc (perform env.data (other.keys (elements env.data) env.user).ops)⟩ with
      | inl s => rw [hiter] at h; cases h
      | inr r' =>
          rw [hiter] at h
          cases h
          exact ends_of_kept hstep (hacc _) hiter

end Returned

variable {canonicalize : V → K} {other : SetRecord K V σ ε} {this : Env (SetTable K) K σ}

/-- The walk through the copy keeps the lock counter of the copy. -/
theorem differenceLoop_returns {after : ℕ → ℕ} {fuel : ℕ}
    {r : Except ε (Answer (SetTable K)) × Env (SetTable K) K σ}
    (h : differenceLoop other after this fuel = .inr r) :
    Returns (Answer.LocksAre this.data.locks) r := by
  have hstep : ∀ s : DifferenceState (SetTable K) K σ, s.result.locks = this.data.locks →
      Sum.elim (fun t => t.result.locks = this.data.locks)
        (Returns (Answer.LocksAre this.data.locks)) (differenceRound other after s).next := by
    intro s hs
    obtain ⟨-, hround⟩ | ⟨-, -, hround⟩ | ⟨e, -, -, hround⟩ := differenceRound_cases other after s
    · rw [hround]
      exact returns_ok (Answer.locksAre_set hs) s.env
    · rw [hround]
      exact hs
    · rw [hround, Round.next, differenceAfterHas]
      cases s.env.call (.has e) (other.has e) with
      | mk result env =>
          cases result with
          | error err => exact returns_error err env
          | ok inOther =>
              cases inOther with
              | false => exact hs
              | true => exact (OrderedSet.locks_delete s.result.table e).trans hs
  rw [differenceLoop] at h
  cases hiter : iterate (fun s => (differenceRound other after s).next) fuel
      (⟨this, this.data, SetData.fullLen this.data, 0⟩ : DifferenceState (SetTable K) K σ) with
  | inl s => rw [hiter] at h; cases h
  | inr r' =>
      rw [hiter] at h
      cases h
      exact ends_of_kept hstep rfl hiter

/-- The method starts from a copy of the set. -/
def SetMethod.copies : SetMethod → Bool
  | .symmetricDifference | .union | .difference => true
  | _ => false

/-- **The lock counter of a returned set** is that of the copied set, or zero. -/
theorem SetMethod.locks_returned (m : SetMethod) {fuel : ℕ}
    {r : Except ε (Answer (SetTable K)) × Env (SetTable K) K σ}
    (h : m.run canonicalize other this fuel = .inr r) :
    Returns (Answer.LocksAre (if m.copies then this.data.locks else 0)) r := by
  cases m with
  | isDisjointFrom =>
      change SetObject.isDisjointFrom canonicalize other this fuel = _ at h
      rw [SetObject.isDisjointFrom] at h
      split at h
      · refine Walker.returns (P := fun _ => True) (fun b _ _ _ => ?_)
          (fun _ _ => Answer.locksAre_boolean _ _) trivial h
        cases b with
        | true => exact Answer.locksAre_boolean _ _
        | false => trivial
      · refine Drainer.returns (P := fun _ => True) (fun data k _ _ => ?_)
          (fun _ _ => Answer.locksAre_boolean _ _) (fun _ => trivial) h
        simp only [disjointDrainer]
        cases SetData.contains data k with
        | true => exact Answer.locksAre_boolean _ _
        | false => trivial
  | isSubsetOf =>
      change SetObject.isSubsetOf other this fuel = _ at h
      rw [SetObject.isSubsetOf] at h
      split at h
      · cases h
        exact returns_ok (Answer.locksAre_boolean _ _) this
      · refine Walker.returns (P := fun _ => True) (fun b _ _ _ => ?_)
          (fun _ _ => Answer.locksAre_boolean _ _) trivial h
        cases b with
        | true => trivial
        | false => exact Answer.locksAre_boolean _ _
  | isSupersetOf =>
      change SetObject.isSupersetOf canonicalize other this fuel = _ at h
      rw [SetObject.isSupersetOf] at h
      split at h
      · cases h
        exact returns_ok (Answer.locksAre_boolean _ _) this
      · refine Drainer.returns (P := fun _ => True) (fun data k _ _ => ?_)
          (fun _ _ => Answer.locksAre_boolean _ _) (fun _ => trivial) h
        simp only [supersetDrainer]
        cases SetData.contains data k with
        | true => trivial
        | false => exact Answer.locksAre_boolean _ _
  | symmetricDifference =>
      refine Drainer.returns (P := fun result => result.locks = this.data.locks)
        (fun data k result hresult => ?_) (fun _ => Answer.locksAre_set)
        (fun ops => this.data.locks_perform ops) h
      change (if _ then _ else _ : SetTable K).locks = _
      split
      · exact (result.locks_apply (.delete k)).trans hresult
      · exact hresult
  | union =>
      exact Drainer.returns (P := fun result => result.locks = this.data.locks)
        (fun _ k result hresult => (result.locks_apply (.add k)).trans hresult)
        (fun _ => Answer.locksAre_set) (fun ops => this.data.locks_perform ops) h
  | intersection =>
      change SetObject.intersection canonicalize other this fuel = _ at h
      rw [SetObject.intersection] at h
      split at h
      · refine Walker.returns (P := fun result => result.locks = 0)
          (fun b k result hresult => ?_) (fun _ => Answer.locksAre_set) rfl h
        cases b with
        | true => exact hresult
        | false => exact hresult
      · refine Drainer.returns (P := fun result => result.locks = 0)
          (fun data k result hresult => ?_) (fun _ => Answer.locksAre_set) (fun _ => rfl) h
        change (if _ then _ else _ : SetTable K).locks = _
        split
        · exact hresult
        · exact hresult
  | difference =>
      change SetObject.difference canonicalize other this fuel = _ at h
      rw [SetObject.difference] at h
      split at h
      · exact differenceLoop_returns h
      · exact Drainer.returns (P := fun result => result.locks = this.data.locks)
          (fun _ k result hresult => (result.locks_apply (.delete k)).trans hresult)
          (fun _ => Answer.locksAre_set) (fun _ => rfl) h

/-! ### Conformance -/

/-- **What is asked of a method**: it agrees with the standard, a set it returns is not locked and
has the size of its elements, and for an argument that denotes a finite set it computes the
operation it is named after and leaves the set as it was. -/
structure SetMethod.Conforms (m : SetMethod) (canonicalize : V → K) (other : SetRecord K V σ ε)
    (this : Env (SetTable K) K σ) : Prop where
  agree : ∀ this' : Env (EntryList K) K σ, SameEnv this this' →
    Agree (m.run canonicalize other this) (m.standard canonicalize other this')
  returned : ∀ fuel d env, m.run canonicalize other this fuel = .inr (.ok (.set d), env) →
    d.locks = 0 ∧ SetData.len d = (elements d).length
  computes : ∀ T pending, Denotes canonicalize other T pending →
    EndsWith (m.run canonicalize other this) this.data (m.Computes (elementSet this.data) T)

/-- A walk has one end. -/
theorem Walker.run_unique {w : Walker (SetTable K) K A} {acc : A} {m n : ℕ}
    {r r' : Except ε (Answer (SetTable K)) × Env (SetTable K) K σ}
    (h : w.run other acc this m = .inr r) (h' : w.run other acc this n = .inr r') : r = r' := by
  rw [Walker.run] at h h'
  cases hm : iterate (w.step other) m (.start this acc) with
  | inl s => rw [hm] at h; cases h
  | inr p =>
      cases hn : iterate (w.step other) n (.start this acc) with
      | inl s => rw [hn] at h'; cases h'
      | inr p' =>
          rw [hm] at h
          rw [hn] at h'
          cases h
          cases h'
          exact iterate_ends_unique hm hn

/-- An argument whose `has` performs nothing. -/
def quietRecord : SetRecord ℕ ℕ Unit Unit where
  size := 3
  has k _ u := ⟨.ok (k ≠ 3), [], u⟩
  keys _ u := ⟨.ok (), [], u⟩
  next _ u := ⟨.ok none, [], u⟩
  close _ u := ⟨.ok (), [], u⟩

/-- An argument whose `has` adds an element, which is then visited. -/
def addingRecord : SetRecord ℕ ℕ Unit Unit :=
  { quietRecord with has := fun _ _ u => ⟨.ok true, [.add 4], u⟩ }

/-- An argument whose `has` deletes an element that has been visited. -/
def deletingRecord : SetRecord ℕ ℕ Unit Unit :=
  { quietRecord with has := fun k _ u => ⟨.ok (k ≠ 3), if k = 2 then [.delete 1] else [], u⟩ }

/-- The set of one, two and three, which is not locked. -/
def oneTwoThree : SetTable ℕ := SetData.add (SetData.add (SetData.add SetTable.new 1) 2) 3

end BoaLigero.Builtins.SetObject
