import BoaLigero.Builtins.Set.Agreement
import Mathlib.Data.Finset.Card
import Mathlib.Data.Finset.SymmDiff

/-!
# Well-Behaved Arguments

A set-like argument denotes a finite set when its size is that of the set, `has` tells its
elements, the iterator of its keys goes through them, and no call throws or touches the set of
the method. For such an argument every loop ends, and the methods compute what they are named
after.

A loop is followed by a property of the elements that are to come and of what has been
accumulated: it holds at the start, every element keeps it or leads to the right answer, and
with nothing to come it gives the right answer.

## Main results

* `Walker.exists_ends`, `Drainer.exists_ends` — the rules of the loops.
* `SetMethod.exists_computes` — the methods compute the operations on finite sets.
-/

namespace BoaLigero.Builtins.SetObject

open SkippingLoop SetOp

variable {D K V σ ε A : Type} [DecidableEq K]

/-- The elements as a finite set. -/
def elementSet [SetData D K] (d : D) : Finset K := (elements d).toFinset

/-- The argument denotes a finite set; `pending` are the values its iterator has to come. -/
structure Denotes (canonicalize : V → K) (other : SetRecord K V σ ε) (T : Finset K)
    (pending : σ → List V) : Prop where
  size : other.size = T.card
  has : ∀ k l u, (other.has k l u).result = .ok (decide (k ∈ T)) ∧ (other.has k l u).ops = []
  keys : ∀ l u, (other.keys l u).result = .ok () ∧ (other.keys l u).ops = [] ∧
    ((pending (other.keys l u).user).map canonicalize).toFinset = T
  next : ∀ l u, (other.next l u).result = .ok (pending u).head? ∧ (other.next l u).ops = [] ∧
    pending (other.next l u).user = (pending u).tail
  close : ∀ l u, (other.close l u).result = .ok () ∧ (other.close l u).ops = []

/-- A method ends with an answer and leaves the set as it was. -/
def EndsWith (f : ℕ → Progress D K σ ε) (data : D) (Q : Answer D → Prop) : Prop :=
  ∃ fuel answer env, f fuel = .inr (.ok answer, env) ∧ env.data = data ∧ Q answer

omit [DecidableEq K] in
/-- A call that performs nothing and does not throw. -/
theorem call_of_quiet [SetData D K] {α : Type} (env : Env D K σ) (c : Call K)
    {code : List K → σ → Reply K σ ε α} {a : α}
    (h : (code (elements env.data) env.user).result = .ok a)
    (hops : (code (elements env.data) env.user).ops = []) :
    ∃ env', env.call c code = (.ok a, env') ∧ env'.data = env.data ∧
      env'.user = (code (elements env.data) env.user).user := by
  refine ⟨⟨env.data, (code (elements env.data) env.user).user, env.calls ++ [c]⟩, ?_, rfl, rfl⟩
  rw [Env.call]
  simp only [h, hops]
  rfl

section Loops

variable [LawfulSetData D K] {canonicalize : V → K} {other : SetRecord K V σ ε} {T : Finset K}
  {pending : σ → List V}

/-- **The rule of walks.** -/
theorem Walker.exists_ends {w : Walker D K A} (hT : Denotes canonicalize other T pending)
    {I : List K → A → Prop} {Q : Answer D → Prop}
    (hvisit : ∀ k rest acc, I (k :: rest) acc →
      Sum.elim (I rest) Q (w.visit (decide (k ∈ T)) k acc))
    (hfinish : ∀ acc, I [] acc → Q (w.finish acc)) {env : Env D K σ} {acc : A}
    (hstart : I (elements env.data) acc) : EndsWith (w.run other acc env) env.data Q := by
  -- from every state on the way, by what is left of the table
  have hloop : ∀ (gap : ℕ) (s : WalkState D K σ A), s.thisSize - s.index = gap →
      s.thisSize = SetData.fullLen s.env.data → s.env.data = env.data →
      I (behind s.env.data s.index) s.acc → ∃ fuel answer e,
        iterate (w.step other) fuel s = .inr (.ok answer, e) ∧ e.data = env.data ∧ Q answer := by
    intro gap
    induction gap with
    | zero =>
        intro s hgap hsize hdata hI
        have hle : s.thisSize ≤ s.index := Nat.le_of_sub_eq_zero hgap
        rw [behind_of_fullLen_le (hsize ▸ hle)] at hI
        have hstep : w.step other s = .inr (.ok (w.finish s.acc), s.env) := by
          rw [Walker.step, Walker.round, if_neg (Nat.not_lt.mpr hle), Round.next]
        exact ⟨1, _, _, iterate_succ_of_inr hstep 0, hdata, hfinish s.acc hI⟩
    | succ gap ih =>
        intro s hgap hsize hdata hI
        have hlt : s.index < s.thisSize := Nat.lt_of_sub_eq_succ hgap
        have hnext : s.thisSize - (s.index + 1) = gap := by omega
        cases hget : SetData.getIndex s.env.data s.index with
        | none =>
            have hstep : w.step other s = .inl { s with index := s.index + 1 } := by
              rw [Walker.step, Walker.round, if_pos hlt, hget, Round.next]
            rw [behind_of_none hget] at hI
            obtain ⟨fuel, answer, e, hiter, hend⟩ :=
              ih { s with index := s.index + 1 } hnext hsize hdata hI
            exact ⟨fuel + 1, answer, e, (iterate_succ_of_inl hstep fuel).trans hiter, hend⟩
        | some k =>
            obtain ⟨hresult, hops⟩ := hT.has k (elements s.env.data) s.env.user
            have hstep : w.step other s = w.afterHas other s k := by
              rw [Walker.step, Walker.round, if_pos hlt, hget, Round.next]
            obtain ⟨env', hcall, hdata', -⟩ := call_of_quiet s.env (.has k) hresult hops
            rw [Walker.afterHas, hcall] at hstep
            rw [behind_of_some hget] at hI
            have hk := hvisit k _ s.acc hI
            simp only at hstep
            cases hout : w.visit (decide (k ∈ T)) k s.acc with
            | inr answer =>
                rw [hout] at hstep hk
                exact ⟨1, answer, env', iterate_succ_of_inr hstep 0, hdata'.trans hdata, hk⟩
            | inl acc =>
                rw [hout] at hstep hk
                simp only [hdata', ← hsize, ite_self] at hstep
                rw [← hdata'] at hsize hk
                obtain ⟨fuel, answer, e, hiter, hend⟩ :=
                  ih ⟨env', acc, s.thisSize, s.index + 1⟩ hnext hsize (hdata'.trans hdata) hk
                exact ⟨fuel + 1, answer, e, (iterate_succ_of_inl hstep fuel).trans hiter, hend⟩
  obtain ⟨fuel, answer, e, hiter, hend⟩ :=
    hloop _ (.start env acc) rfl rfl rfl (by rwa [WalkState.start, behind_zero])
  exact ⟨fuel, answer, e, by rw [Walker.run, hiter, Sum.map_inr, id], hend⟩

/-- **The rule of drains.** -/
theorem Drainer.exists_ends {d : Drainer D K A} (hT : Denotes canonicalize other T pending)
    {I : List K → A → Prop} {Q : Answer D → Prop} {env : Env D K σ}
    (hbody : ∀ k rest acc, I (k :: rest) acc → Sum.elim (I rest) Q (d.body env.data k acc))
    (hfinish : ∀ acc, I [] acc → Q (d.finish acc)) {acc : D → A}
    (hstart : ∀ l : List K, l.toFinset = T → I l (acc env.data)) :
    EndsWith (d.run canonicalize other acc env) env.data Q := by
  -- from every state on the way, by what the iterator has to come
  have hloop : ∀ (l : List V) (s : DrainState D K σ A), pending s.env.user = l →
      s.env.data = env.data → I (l.map canonicalize) s.acc → ∃ fuel answer e,
        iterate (d.step canonicalize other) fuel s = .inr (.ok answer, e) ∧ e.data = env.data ∧
          Q answer := by
    intro l
    induction l with
    | nil =>
        intro s hpending hdata hI
        obtain ⟨hresult, hops, -⟩ := hT.next (elements s.env.data) s.env.user
        rw [hpending, List.head?_nil] at hresult
        obtain ⟨env', hcall, hdata', -⟩ := call_of_quiet s.env .next hresult hops
        refine ⟨1, d.finish s.acc, env', iterate_succ_of_inr ?_ 0, hdata'.trans hdata,
          hfinish s.acc hI⟩
        rw [Drainer.step, hcall]
    | cons v l ih =>
        intro s hpending hdata hI
        obtain ⟨hresult, hops, htail⟩ := hT.next (elements s.env.data) s.env.user
        rw [hpending, List.head?_cons] at hresult
        rw [hpending, List.tail_cons] at htail
        obtain ⟨env', hcall, hdata', huser⟩ := call_of_quiet s.env .next hresult hops
        rw [← huser] at htail
        have hk := hbody (canonicalize v) _ s.acc hI
        rw [← hdata, ← hdata'] at hk
        cases hout : d.body env'.data (canonicalize v) s.acc with
        | inl acc =>
            rw [hout] at hk
            have hstep : d.step canonicalize other s = .inl ⟨env', acc⟩ := by
              rw [Drainer.step, hcall]
              simp only [hout]
            obtain ⟨fuel, answer, e, hiter, hend⟩ :=
              ih ⟨env', acc⟩ htail (hdata'.trans hdata) hk
            exact ⟨fuel + 1, answer, e, (iterate_succ_of_inl hstep fuel).trans hiter, hend⟩
        | inr answer =>
            rw [hout] at hk
            obtain ⟨hresult, hops⟩ := hT.close (elements env'.data) env'.user
            obtain ⟨env'', hclose, hdata'', -⟩ := call_of_quiet env' .close hresult hops
            refine ⟨1, answer, env'', iterate_succ_of_inr ?_ 0,
              hdata''.trans (hdata'.trans hdata), hk⟩
            rw [Drainer.step, hcall]
            simp only [hout, hclose]
  obtain ⟨hresult, hops, hvalues⟩ := hT.keys (elements env.data) env.user
  obtain ⟨env', hcall, hdata', huser⟩ := call_of_quiet env .keys hresult hops
  rw [← huser] at hvalues
  have hI := hstart _ hvalues
  rw [← hdata'] at hI
  obtain ⟨fuel, answer, e, hiter, hend⟩ := hloop _ ⟨env', acc env'.data⟩ rfl hdata' hI
  refine ⟨fuel, answer, e, ?_, hend⟩
  rw [Drainer.run, withKeys, hcall]
  simp only [hiter, Sum.map_inr, id]

/-- **The walk through the copy leaves the elements that are not in the other.** -/
theorem differenceLoop_ends (hT : Denotes canonicalize other T pending) {after : ℕ → ℕ}
    (hD : GoesOn D after) (hafter : ∀ i, i ≤ after i) (env : Env D K σ) :
    EndsWith (differenceLoop other after env) env.data fun answer =>
      ∃ d, answer = .set d ∧ elementSet d = elementSet env.data \ T := by
  -- what is kept is not in the other, unless it is to come; a deletion leaves less to come,
  -- any other round a smaller gap
  have hloop : ∀ (n : ℕ) (s : DifferenceState D K σ),
      (behind s.result s.index).length + (s.thisSize - s.index) = n →
      SetData.fullLen s.result ≤ s.thisSize → s.env.data = env.data →
      (∀ x, x ∈ elements s.result ↔
        x ∈ elements env.data ∧ (x ∉ T ∨ x ∈ behind s.result s.index)) → ∃ fuel answer e,
        iterate (fun s => (differenceRound other after s).next) fuel s = .inr (.ok answer, e) ∧
          e.data = env.data ∧
          ∃ d, answer = .set d ∧ elementSet d = elementSet env.data \ T := by
    intro n
    induction n using Nat.strongRecOn with
    | ind n ih =>
        intro s hn hsize hdata hI
        obtain ⟨hle, hround⟩ | ⟨hlt, hget, hround⟩ | ⟨k, hlt, hget, hround⟩ :=
          differenceRound_cases other after s
        · rw [behind_of_fullLen_le (Nat.le_trans hsize hle)] at hI
          refine ⟨1, .set s.result, s.env, iterate_succ_of_inr (by rw [hround, Round.next]) 0, hdata,
            s.result, rfl, ?_⟩
          ext x
          simpa [elementSet] using hI x
        · have hqueue := behind_of_none hget
          have hless : (behind s.result (s.index + 1)).length + (s.thisSize - (s.index + 1)) < n := by
            rw [← hqueue]
            omega
          rw [hqueue] at hI
          obtain ⟨fuel, answer, e, hiter, hend⟩ :=
            ih _ hless { s with index := s.index + 1 } rfl hsize hdata hI
          exact ⟨fuel + 1, answer, e,
            (iterate_succ_of_inl (by rw [hround, Round.next]) fuel).trans hiter, hend⟩
        · obtain ⟨hresult, hops⟩ := hT.has k (elements s.env.data) s.env.user
          obtain ⟨env', hcall, hdata', -⟩ := call_of_quiet s.env (.has k) hresult hops
          rw [differenceAfterHas, hcall] at hround
          have hqueue := behind_of_some hget
          rw [hqueue, List.length_cons] at hn
          rw [hqueue] at hI
          by_cases hk : k ∈ T
          · rw [decide_eq_true hk] at hround
            obtain ⟨hbehind, hlen⟩ := hD s.result s.index k hget
            have hless : (behind (SetData.delete s.result k) (after s.index)).length
                + (s.thisSize - after s.index) < n := by
              have hfilter := List.length_filter_le (· ≠ k) (behind s.result (s.index + 1))
              have := hafter s.index
              rw [hbehind]
              omega
            obtain ⟨fuel, answer, e, hiter, hend⟩ := ih _ hless
              ⟨env', SetData.delete s.result k, s.thisSize, after s.index⟩ rfl
              (Nat.le_trans hlen hsize) (hdata'.trans hdata) (fun x => by
                change x ∈ elements (SetData.delete s.result k) ↔
                  _ ∧ (_ ∨ x ∈ behind (SetData.delete s.result k) (after s.index))
                rw [elements_delete, hbehind, List.mem_filter, List.mem_filter, hI x,
                  List.mem_cons, decide_eq_true_iff]
                by_cases hx : x = k
                · subst hx
                  simp [hk]
                · simp [hx])
            exact ⟨fuel + 1, answer, e,
              (iterate_succ_of_inl (by rw [hround, Round.next]) fuel).trans hiter, hend⟩
          · rw [decide_eq_false hk] at hround
            have hless : (behind s.result (s.index + 1)).length
                + (s.thisSize - (s.index + 1)) < n := by omega
            obtain ⟨fuel, answer, e, hiter, hend⟩ := ih _ hless
              ⟨env', s.result, s.thisSize, s.index + 1⟩ rfl hsize (hdata'.trans hdata)
              (fun x => by
                change x ∈ elements s.result ↔ _ ∧ (_ ∨ x ∈ behind s.result (s.index + 1))
                rw [hI x, List.mem_cons]
                by_cases hx : x = k
                · subst hx
                  simp [hk]
                · simp [hx])
            exact ⟨fuel + 1, answer, e,
              (iterate_succ_of_inl (by rw [hround, Round.next]) fuel).trans hiter, hend⟩
  obtain ⟨fuel, answer, e, hiter, hend⟩ := hloop _ ⟨env, env.data, SetData.fullLen env.data, 0⟩
    rfl (Nat.le_refl _) rfl (fun x => by
      change x ∈ elements env.data ↔ _ ∧ (_ ∨ x ∈ behind env.data 0)
      rw [behind_zero]
      exact ⟨fun h => ⟨h, .inr h⟩, fun h => h.1⟩)
  exact ⟨fuel, answer, e, by rw [differenceLoop, hiter, Sum.map_inr, id], hend⟩

/-- A walk that stops at a bad element tells whether all elements are good. -/
theorem Walker.exists_all {w : Walker D K Unit} (hT : Denotes canonicalize other T pending)
    (good : Bool → Bool)
    (hvisit : ∀ b k, w.visit b k () = if good b then .inl () else .inr (.boolean false))
    (hfinish : w.finish () = .boolean true) (env : Env D K σ) :
    EndsWith (w.run other () env) env.data
      (· = .boolean (decide (∀ x ∈ elements env.data, good (decide (x ∈ T)) = true))) := by
  refine Walker.exists_ends hT
    (I := fun rest _ => (∀ x ∈ elements env.data, good (decide (x ∈ T)) = true) ↔
      ∀ x ∈ rest, good (decide (x ∈ T)) = true) (fun k rest acc hI => ?_) (fun acc hI => ?_) Iff.rfl
  · rw [hvisit]
    rw [List.forall_mem_cons] at hI
    split
    · next hgood => exact hI.trans (and_iff_right hgood)
    · next hbad => exact congrArg _ (decide_eq_false fun h => hbad (hI.mp h).1).symm
  · rw [hfinish]
    exact congrArg _ (decide_eq_true (hI.mpr fun x hx => nomatch hx)).symm

/-- A drain that stops at a bad value tells whether all elements of the other are good. -/
theorem Drainer.exists_all {d : Drainer D K Unit} (hT : Denotes canonicalize other T pending)
    (env : Env D K σ) (good : K → Bool)
    (hbody : ∀ k, d.body env.data k () = if good k then .inl () else .inr (.boolean false))
    (hfinish : d.finish () = .boolean true) :
    EndsWith (d.run canonicalize other (fun _ => ()) env) env.data
      (· = .boolean (decide (∀ x ∈ T, good x = true))) := by
  refine Drainer.exists_ends hT
    (I := fun rest _ => (∀ x ∈ T, good x = true) ↔ ∀ x ∈ rest, good x = true)
    (fun k rest acc hI => ?_) (fun acc hI => ?_) (fun l hl => ?_)
  · rw [hbody]
    rw [List.forall_mem_cons] at hI
    split
    · next hgood => exact hI.trans (and_iff_right hgood)
    · next hbad => exact congrArg _ (decide_eq_false fun h => hbad (hI.mp h).1).symm
  · rw [hfinish]
    exact congrArg _ (decide_eq_true (hI.mpr fun x hx => nomatch hx)).symm
  · simp only [← hl, List.mem_toFinset]

end Loops

omit [DecidableEq K] in
/-- The answer may be said in other words. -/
theorem EndsWith.imp {f : ℕ → Progress D K σ ε} {data : D} {Q Q' : Answer D → Prop}
    (h : EndsWith f data Q) (himp : ∀ answer, Q answer → Q' answer) : EndsWith f data Q' := by
  obtain ⟨fuel, answer, env, hrun, hdata, hQ⟩ := h
  exact ⟨fuel, answer, env, hrun, hdata, himp answer hQ⟩

omit [DecidableEq K] in
/-- An answer that is decided in other words. -/
theorem EndsWith.decide_congr {f : ℕ → Progress D K σ ε} {data : D} {p q : Prop} [Decidable p]
    [Decidable q] (h : EndsWith f data (· = .boolean (decide p))) (hpq : p ↔ q) :
    EndsWith f data (· = .boolean (decide q)) :=
  h.imp fun _ ha => ha.trans (congrArg _ (decide_eq_decide.mpr hpq))

omit [DecidableEq K] in
/-- A method that answers at once. -/
theorem endsWith_of_answer {this : Env D K σ} {answer : Answer D} {Q : Answer D → Prop}
    (h : Q answer) : EndsWith (fun _ => (.inr (.ok answer, this) : Progress D K σ ε)) this.data Q :=
  ⟨0, answer, this, rfl, rfl, h⟩

/-! ### What the methods compute -/

/-- What a method is to compute from two finite sets. -/
def SetMethod.Computes [SetData D K] (S T : Finset K) : SetMethod → Answer D → Prop
  | .isDisjointFrom, answer => answer = .boolean (decide (Disjoint S T))
  | .isSubsetOf, answer => answer = .boolean (decide (S ⊆ T))
  | .isSupersetOf, answer => answer = .boolean (decide (T ⊆ S))
  | .symmetricDifference, answer => ∃ d, answer = .set d ∧ elementSet d = symmDiff S T
  | .union, answer => ∃ d, answer = .set d ∧ elementSet d = S ∪ T
  | .intersection, answer => ∃ d, answer = .set d ∧ elementSet d = S ∩ T
  | .difference, answer => ∃ d, answer = .set d ∧ elementSet d = S \ T

section Source

variable {canonicalize : V → K} {other : SetRecord K V σ ε} {T : Finset K} {pending : σ → List V}
  (hT : Denotes canonicalize other T pending) (this : Env (SetTable K) K σ)

/-- The set of a table holds what the list of its elements holds; their order is forgotten. -/
theorem mem_elementSet [SetData D K] {d : D} {x : K} : x ∈ elementSet d ↔ x ∈ elements d :=
  List.mem_toFinset

/-- The number of elements is the size of the finite set. -/
theorem card_elementSet (s : SetTable K) : (elementSet s).card = SetData.len s := by
  rw [elementSet, List.toFinset_card_of_nodup s.nodup, len_eq_length]

include hT

/-- With a well-behaved set record the method answers whether the two sets have no element in
common. -/
theorem isDisjointFrom_ends : EndsWith (isDisjointFrom canonicalize other this) this.data
    (SetMethod.isDisjointFrom.Computes (elementSet this.data) T) := by
  by_cases hsize : SetData.len this.data ≤ other.size
  · have hwalk := Walker.exists_all (w := disjointWalker) hT (!·)
      (fun b k => by cases b <;> rfl) rfl this
    refine EndsWith.decide_congr ?_ (p := ∀ x ∈ elements this.data, (!decide (x ∈ T)) = true) ?_
    · rwa [show isDisjointFrom canonicalize other this = disjointWalker.run other () this from
        funext fun _ => if_pos hsize]
    · rw [Finset.disjoint_left]
      simp [mem_elementSet]
  · have hdrain := Drainer.exists_all (d := disjointDrainer) hT this
      (fun k => !SetData.contains this.data k)
      (fun k => by cases h : SetData.contains this.data k <;> simp [disjointDrainer, h]) rfl
    refine EndsWith.decide_congr ?_ (p := ∀ x ∈ T, (!SetData.contains this.data x) = true) ?_
    · rwa [show isDisjointFrom canonicalize other this
        = disjointDrainer.run canonicalize other (fun _ => ()) this from
        funext fun _ => if_neg hsize]
    · rw [Finset.disjoint_right]
      simp [mem_elementSet, contains_eq]

/-- With a well-behaved set record the method answers whether all elements are among those of the
other set. -/
theorem isSubsetOf_ends : EndsWith (isSubsetOf other this) this.data
    (SetMethod.isSubsetOf.Computes (elementSet this.data) T) := by
  by_cases hsize : other.size < SetData.len this.data
  · have hlarge : ¬ elementSet this.data ⊆ T := by
      intro hsub
      have hcard := Finset.card_le_card hsub
      rw [card_elementSet, ← hT.size] at hcard
      exact Nat.lt_irrefl _ (Nat.lt_of_lt_of_le hsize hcard)
    rw [show isSubsetOf other this = fun _ => .inr (.ok (.boolean false), this) from
      funext fun _ => if_pos hsize]
    exact endsWith_of_answer (congrArg _ (decide_eq_false hlarge).symm)
  · have hwalk := Walker.exists_all (w := subsetWalker) hT id
      (fun b k => by cases b <;> rfl) rfl this
    refine EndsWith.decide_congr ?_ (p := ∀ x ∈ elements this.data, id (decide (x ∈ T)) = true) ?_
    · rwa [show isSubsetOf other this = subsetWalker.run other () this from
        funext fun _ => if_neg hsize]
    · simp [Finset.subset_iff, mem_elementSet]

/-- With a well-behaved set record the method answers whether all elements of the other set are in
this one. -/
theorem isSupersetOf_ends : EndsWith (isSupersetOf canonicalize other this) this.data
    (SetMethod.isSupersetOf.Computes (elementSet this.data) T) := by
  by_cases hsize : SetData.len this.data < other.size
  · have hlarge : ¬ T ⊆ elementSet this.data := by
      intro hsub
      have hcard := Finset.card_le_card hsub
      rw [card_elementSet, ← hT.size] at hcard
      exact Nat.lt_irrefl _ (Nat.lt_of_lt_of_le hsize hcard)
    rw [show isSupersetOf canonicalize other this
      = fun _ => .inr (.ok (.boolean false), this) from funext fun _ => if_pos hsize]
    exact endsWith_of_answer (congrArg _ (decide_eq_false hlarge).symm)
  · have hdrain := Drainer.exists_all (d := supersetDrainer) hT this
      (fun k => SetData.contains this.data k)
      (fun k => by cases h : SetData.contains this.data k <;> simp [supersetDrainer, h]) rfl
    refine EndsWith.decide_congr ?_ (p := ∀ x ∈ T, SetData.contains this.data x = true) ?_
    · rwa [show isSupersetOf canonicalize other this
        = supersetDrainer.run canonicalize other (fun _ => ()) this from
        funext fun _ => if_neg hsize]
    · simp [Finset.subset_iff, mem_elementSet, contains_eq]

/-- With a well-behaved set record the returned set holds the elements of both sets. -/
theorem union_ends : EndsWith (union canonicalize other this) this.data
    (SetMethod.union.Computes (elementSet this.data) T) := by
  -- what the result has and what is to come make up the union
  refine Drainer.exists_ends hT (I := fun rest (result : SetTable K) => ∀ x,
    (x ∈ elements result ∨ x ∈ rest) ↔ x ∈ elements this.data ∨ x ∈ T) ?_ ?_ ?_
  · intro k rest result hI x
    rw [← hI x, elements_add, List.mem_cons]
    split
    · next hk =>
      constructor
      · exact Or.imp_right .inr
      · rintro (hx | rfl | hx)
        · exact .inl hx
        · exact .inl hk
        · exact .inr hx
    · rw [List.mem_append, List.mem_singleton, or_assoc]
  · intro result hI
    refine ⟨result, rfl, ?_⟩
    ext x
    simpa [mem_elementSet] using hI x
  · rintro l rfl x
    rw [List.mem_toFinset]
    rfl

/-- With a well-behaved set record the returned set holds the elements of exactly one of the sets.
-/
theorem symmetricDifference_ends :
    EndsWith (symmetricDifference canonicalize other this) this.data
      (SetMethod.symmetricDifference.Computes (elementSet this.data) T) := by
  -- an element of one set only is in the result, or to come; one of both is not in the result
  -- once it has come
  refine Drainer.exists_ends hT (I := fun rest (result : SetTable K) => ∀ x, (x ∈ rest → x ∈ T) ∧
    (x ∈ elements this.data → (x ∈ elements result → x ∉ T ∨ x ∈ rest) ∧
      (x ∉ T → x ∈ elements result)) ∧
    (x ∉ elements this.data → (x ∈ elements result → x ∈ T) ∧
      (x ∈ T → x ∈ elements result ∨ x ∈ rest))) ?_ ?_ ?_
  · intro k rest result hI
    simp only [symmetricDifferenceDrainer, Sum.elim_inl, contains_eq, decide_eq_true_iff]
    split
    · next hmem =>
      intro x
      have hx := hI x
      rw [mem_elements_delete]
      rw [List.mem_cons] at hx
      grind
    · next hmem =>
      intro x
      have hx := hI x
      rw [mem_elements_add]
      rw [List.mem_cons] at hx
      grind
  · intro result hI
    refine ⟨result, rfl, ?_⟩
    ext x
    have hx := hI x
    rw [mem_elementSet, Finset.mem_symmDiff, mem_elementSet]
    simp only [List.not_mem_nil, or_false] at hx
    grind
  · rintro l rfl x
    rw [List.mem_toFinset]
    change _ ∧ (_ → (x ∈ elements this.data → _) ∧ (_ → x ∈ elements this.data)) ∧
      (_ → (x ∈ elements this.data → _) ∧ _)
    grind

/-- With a well-behaved set record the returned set holds the common elements, whichever set is
walked. -/
theorem intersection_ends : EndsWith (intersection canonicalize other this) this.data
    (SetMethod.intersection.Computes (elementSet this.data) T) := by
  -- an element of both sets is in the result, or to come
  have hend : ∀ result : SetTable K, (∀ x, (x ∈ [] → x ∈ elements this.data) ∧
      (x ∈ elements result → x ∈ elements this.data ∧ x ∈ T) ∧
      (x ∈ elements this.data ∧ x ∈ T → x ∈ elements result ∨ x ∈ [])) →
      SetMethod.intersection.Computes (elementSet this.data) T (Answer.set result) := by
    intro result hI
    refine ⟨result, rfl, ?_⟩
    ext x
    have hx := hI x
    rw [mem_elementSet, Finset.mem_inter, mem_elementSet]
    simp only [List.not_mem_nil, or_false] at hx
    grind
  by_cases hsize : SetData.len this.data ≤ other.size
  · rw [show intersection canonicalize other this = intersectionWalker.run other SetData.new this
      from funext fun _ => if_pos hsize]
    refine Walker.exists_ends hT (I := fun rest (result : SetTable K) => ∀ x,
      (x ∈ rest → x ∈ elements this.data) ∧
      (x ∈ elements result → x ∈ elements this.data ∧ x ∈ T) ∧
      (x ∈ elements this.data ∧ x ∈ T → x ∈ elements result ∨ x ∈ rest)) ?_ hend ?_
    · intro k rest result hI
      simp only [intersectionWalker, Sum.elim_inl, decide_eq_true_iff]
      intro x
      have hx := hI x
      rw [List.mem_cons] at hx
      split
      · rw [mem_elements_add]
        grind
      · grind
    · intro x
      rw [elements_new]
      simp only [List.not_mem_nil]
      grind
  · rw [show intersection canonicalize other this
      = intersectionDrainer.run canonicalize other (fun _ => SetData.new) this
      from funext fun _ => if_neg hsize]
    refine Drainer.exists_ends hT (I := fun rest (result : SetTable K) => ∀ x,
      (x ∈ rest → x ∈ T) ∧ (x ∈ elements result → x ∈ elements this.data ∧ x ∈ T) ∧
      (x ∈ elements this.data ∧ x ∈ T → x ∈ elements result ∨ x ∈ rest)) ?_ ?_ ?_
    · intro k rest result hI
      simp only [intersectionDrainer, Sum.elim_inl, contains_eq, decide_eq_true_iff]
      intro x
      have hx := hI x
      rw [List.mem_cons] at hx
      split
      · rw [mem_elements_add]
        grind
      · grind
    · exact fun result hI => hend result fun x => ⟨fun h => (nomatch h), (hI x).2⟩
    · rintro l rfl x
      rw [elements_new, List.mem_toFinset]
      simp only [List.not_mem_nil]
      grind

/-- With a well-behaved set record the returned set holds the elements that the other set lacks. -/
theorem difference_ends : EndsWith (difference canonicalize other this) this.data
    (SetMethod.difference.Computes (elementSet this.data) T) := by
  by_cases hsize : SetData.len this.data ≤ other.size
  · rw [show difference canonicalize other this = differenceLoop other id this
      from funext fun _ => if_pos hsize]
    exact differenceLoop_ends hT goesOn_source (fun i => Nat.le_refl i) this
  · rw [show difference canonicalize other this
      = differenceDrainer.run canonicalize other (fun _ => this.data) this
      from funext fun _ => if_neg hsize]
    -- what the result has is not in the other, unless it is to come
    refine Drainer.exists_ends hT (I := fun rest (result : SetTable K) => ∀ x,
      (x ∈ rest → x ∈ T) ∧ (x ∈ elements result → x ∈ elements this.data ∧ (x ∉ T ∨ x ∈ rest)) ∧
      (x ∈ elements this.data → x ∉ T → x ∈ elements result)) ?_ ?_ ?_
    · intro k rest result hI
      simp only [differenceDrainer, Sum.elim_inl]
      intro x
      have hx := hI x
      rw [List.mem_cons] at hx
      rw [mem_elements_delete]
      grind
    · intro result hI
      refine ⟨result, rfl, ?_⟩
      ext x
      have hx := hI x
      rw [mem_elementSet, Finset.mem_sdiff, mem_elementSet]
      simp only [List.not_mem_nil, or_false] at hx
      grind
    · rintro l rfl x
      rw [List.mem_toFinset]
      grind

/-- **The methods compute the operations on finite sets**, whichever of their loops they take,
and leave the set as it was. -/
theorem SetMethod.exists_computes (m : SetMethod) :
    EndsWith (m.run canonicalize other this) this.data
      (m.Computes (elementSet this.data) T) := by
  cases m with
  | isDisjointFrom => exact isDisjointFrom_ends hT this
  | isSubsetOf => exact isSubsetOf_ends hT this
  | isSupersetOf => exact isSupersetOf_ends hT this
  | symmetricDifference => exact symmetricDifference_ends hT this
  | union => exact union_ends hT this
  | intersection => exact intersection_ends hT this
  | difference => exact difference_ends hT this

end Source

end BoaLigero.Builtins.SetObject
