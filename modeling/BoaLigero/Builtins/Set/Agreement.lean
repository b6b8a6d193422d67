import BoaLigero.Builtins.Set.Methods

/-!
# The Set Methods Against the Standard

Two runs are the same so far when the sets have the same elements in the same order, the user
code is in the same state and the same calls were made; at the end they have the same answer or
exception. Two methods agree when every number of rounds of the one is met by a number of rounds
of the other.

A drain of the source and a drain of the standard go in step. Walks skip different gaps, so they
do not: they stay together as long as both readers keep their place. The reader of the standard
does so whatever `has` performs; the reader of the source does so unless an operation moves
elements over its position, and it comes to the end only if it still looks there.

## Main results

* `Drainer.Related.agree` — drains of tables with the same elements agree.
* `Walker.Related.agree` — walks agree while both keep their place.
* `difference_agree` — the walks through the copies agree.
-/

namespace BoaLigero.Builtins.SetObject

open SkippingLoop SetOp

variable {D D' K V σ ε A A' : Type}

/-! ### Being the same so far -/

section Same

variable [SetData D K] [SetData D' K]

/-- The same elements, the same state of user code, and the same calls so far. -/
structure SameEnv (e : Env D K σ) (e' : Env D' K σ) : Prop where
  data : elements e.data = elements e'.data
  user : e.user = e'.user
  calls : e.calls = e'.calls

/-- The same boolean, or sets with the same elements. -/
inductive SameAnswer : Answer D → Answer D' → Prop
  | boolean (b : Bool) : SameAnswer (.boolean b) (.boolean b)
  | set {d : D} {d' : D'} (h : elements d = elements d') : SameAnswer (.set d) (.set d')

/-- The same exception, or the same answer. -/
inductive SameResult : Except ε (Answer D) → Except ε (Answer D') → Prop
  | error (err : ε) : SameResult (.error err) (.error err)
  | ok {a : Answer D} {a' : Answer D'} (h : SameAnswer a a') : SameResult (.ok a) (.ok a')

/-- The same end: the same answer or exception, and the same effects. -/
def SameEnd (r : Except ε (Answer D) × Env D K σ) (r' : Except ε (Answer D') × Env D' K σ) :
    Prop :=
  SameResult r.1 r'.1 ∧ SameEnv r.2 r'.2

/-- Both still run and are the same so far, or both have come to the same end. -/
def SameProgress : Progress D K σ ε → Progress D' K σ ε → Prop := Sum.LiftRel SameEnv SameEnd

/-- Two methods agree: they go through the same calls, and come to the same end if they do. -/
def Agree (f : ℕ → Progress D K σ ε) (f' : ℕ → Progress D' K σ ε) : Prop :=
  (∀ n, ∃ m, SameProgress (f n) (f' m)) ∧ ∀ m, ∃ n, SameProgress (f n) (f' m)

/-- Being the same so far is symmetric. -/
theorem SameEnv.symm {e : Env D K σ} {e' : Env D' K σ} (h : SameEnv e e') : SameEnv e' e :=
  ⟨h.data.symm, h.user.symm, h.calls.symm⟩

/-- Having the same answer is symmetric. -/
theorem SameAnswer.symm {a : Answer D} {a' : Answer D'} (h : SameAnswer a a') :
    SameAnswer a' a := by
  cases h with
  | boolean b => exact .boolean b
  | set h => exact .set h.symm

/-- Coming to the same end is symmetric. -/
theorem SameEnd.symm {r : Except ε (Answer D) × Env D K σ}
    {r' : Except ε (Answer D') × Env D' K σ} (h : SameEnd r r') : SameEnd r' r := by
  obtain ⟨r, e⟩ := r
  obtain ⟨r', e'⟩ := r'
  obtain ⟨hresult, henv⟩ := h
  cases hresult with
  | error err => exact ⟨.error err, henv.symm⟩
  | ok h => exact ⟨.ok h.symm, henv.symm⟩

/-- Being the same in each case is symmetric. -/
theorem SameProgress.symm {p : Progress D K σ ε} {p' : Progress D' K σ ε}
    (h : SameProgress p p') : SameProgress p' p := by
  cases h with
  | inl h => exact .inl h.symm
  | inr h => exact .inr h.symm

/-- Methods that go in step agree. -/
theorem Agree.of_step {f : ℕ → Progress D K σ ε} {f' : ℕ → Progress D' K σ ε}
    (h : ∀ n, SameProgress (f n) (f' n)) : Agree f f' :=
  ⟨fun n => ⟨n, h n⟩, fun n => ⟨n, h n⟩⟩

end Same

section Laws

variable [DecidableEq K] [LawfulSetData D K] [LawfulSetData D' K]

/-- The same call of user code has the same result and the same effects. -/
theorem SameEnv.call {α : Type} {e : Env D K σ} {e' : Env D' K σ} (h : SameEnv e e') (c : Call K)
    (code : List K → σ → Reply K σ ε α) :
    ∃ r env env', e.call c code = (r, env) ∧ e'.call c code = (r, env') ∧ SameEnv env env' := by
  obtain ⟨d, u, cs⟩ := e
  obtain ⟨d', u', cs'⟩ := e'
  obtain ⟨hd, rfl, rfl⟩ := h
  change elements d = elements d' at hd
  have hcall : (⟨d, u, cs⟩ : Env D K σ).call c code = ((code (elements d') u).result,
      ⟨perform d (code (elements d') u).ops, (code (elements d') u).user, cs ++ [c]⟩) := by
    rw [← hd]
    rfl
  refine ⟨_, _, _, hcall, rfl, ?_, rfl, rfl⟩
  change elements (perform d _) = elements (perform d' _)
  rw [elements_perform, elements_perform, hd]

/-! ### Drains -/

/-- Bodies of drains that do the same to related accumulators. -/
structure Drainer.Related (d : Drainer D K A) (d' : Drainer D' K A') (Acc : A → A' → Prop) :
    Prop where
  body : ∀ {data data' acc acc'}, elements data = elements data' → Acc acc acc' → ∀ k,
    Sum.LiftRel Acc SameAnswer (d.body data k acc) (d'.body data' k acc')
  finish : ∀ {acc acc'}, Acc acc acc' → SameAnswer (d.finish acc) (d'.finish acc')

namespace Drainer.Related

variable {d : Drainer D K A} {d' : Drainer D' K A'} {Acc : A → A' → Prop}

/-- A round of two related drains keeps them the same, or ends both in the same way. -/
theorem step (h : d.Related d' Acc) (canonicalize : V → K) (other : SetRecord K V σ ε)
    {s : DrainState D K σ A} {s' : DrainState D' K σ A'} (henv : SameEnv s.env s'.env)
    (hacc : Acc s.acc s'.acc) :
    Sum.LiftRel (fun s s' => SameEnv s.env s'.env ∧ Acc s.acc s'.acc) SameEnd
      (d.step canonicalize other s) (d'.step canonicalize other s') := by
  obtain ⟨r, e, e', hcall, hcall', henv⟩ := henv.call .next other.next
  rw [Drainer.step, Drainer.step, hcall, hcall']
  cases r with
  | error err => exact .inr ⟨.error err, henv⟩
  | ok value =>
      cases value with
      | none => exact .inr ⟨.ok (h.finish hacc), henv⟩
      | some v =>
          have hbody := h.body henv.data hacc (canonicalize v)
          simp only
          revert hbody
          generalize d.body e.data (canonicalize v) s.acc = out
          generalize d'.body e'.data (canonicalize v) s'.acc = out'
          intro hbody
          cases hbody with
          | inl hacc => exact .inl ⟨henv, hacc⟩
          | inr hanswer =>
              obtain ⟨r, e, e', hcall, hcall', henv⟩ := henv.call .close other.close
              simp only [hcall, hcall']
              cases r with
              | error err => exact .inr ⟨.error err, henv⟩
              | ok u => exact .inr ⟨.ok hanswer, henv⟩

/-- The loops of drains go in step. -/
theorem iterate_related (h : d.Related d' Acc) (canonicalize : V → K) (other : SetRecord K V σ ε)
    (fuel : ℕ) (s : DrainState D K σ A) (s' : DrainState D' K σ A')
    (hs : SameEnv s.env s'.env ∧ Acc s.acc s'.acc) :
    Sum.LiftRel (fun s s' => SameEnv s.env s'.env ∧ Acc s.acc s'.acc) SameEnd
      (iterate (d.step canonicalize other) fuel s)
      (iterate (d'.step canonicalize other) fuel s') :=
  liftRel_iterate (fun _ _ hs => h.step canonicalize other hs.1 hs.2) fuel hs

/-- Drains of tables with the same elements go in step. -/
theorem run (h : d.Related d' Acc) (canonicalize : V → K) (other : SetRecord K V σ ε)
    (acc : D → A) (acc' : D' → A')
    (hacc : ∀ data data', elements data = elements data' → Acc (acc data) (acc' data'))
    {env : Env D K σ} {env' : Env D' K σ} (henv : SameEnv env env') (fuel : ℕ) :
    SameProgress (d.run canonicalize other acc env fuel)
      (d'.run canonicalize other acc' env' fuel) := by
  obtain ⟨r, e, e', hcall, hcall', henv⟩ := henv.call .keys other.keys
  rw [Drainer.run, Drainer.run, withKeys, withKeys, hcall, hcall']
  cases r with
  | error err => exact .inr ⟨.error err, henv⟩
  | ok u =>
      have hstart : SameEnv e e' ∧ Acc (acc e.data) (acc' e'.data) :=
        ⟨henv, hacc _ _ henv.data⟩
      have hloop := h.iterate_related canonicalize other fuel
        (⟨e, acc e.data⟩ : DrainState D K σ A) (⟨e', acc' e'.data⟩ : DrainState D' K σ A') hstart
      simp only
      revert hloop
      generalize iterate (d.step canonicalize other) fuel ⟨e, acc e.data⟩ = out
      generalize iterate (d'.step canonicalize other) fuel ⟨e', acc' e'.data⟩ = out'
      intro hloop
      cases hloop with
      | inl hs => exact .inl hs.1
      | inr hend => exact .inr hend

/-- **Drains of tables with the same elements agree.** -/
theorem agree (h : d.Related d' Acc) (canonicalize : V → K) (other : SetRecord K V σ ε)
    (acc : D → A) (acc' : D' → A')
    (hacc : ∀ data data', elements data = elements data' → Acc (acc data) (acc' data'))
    {env : Env D K σ} {env' : Env D' K σ} (henv : SameEnv env env') :
    Agree (d.run canonicalize other acc env) (d'.run canonicalize other acc' env') :=
  .of_step (h.run canonicalize other acc acc' hacc henv)

end Drainer.Related

/-! ### Walks -/

/-- A reader at its bound has nothing behind it, and one at an element keeps its place through
the call of `has`. -/
structure WalkState.OnTrack (other : SetRecord K V σ ε) (s : WalkState D K σ A) : Prop where
  covers : s.thisSize ≤ s.index → behind s.env.data s.index = []
  keeps : ∀ e, s.index < s.thisSize → SetData.getIndex s.env.data s.index = some e →
    behind (s.env.call (.has e) (other.has e)).2.data (s.index + 1) =
      queueAfter (elements s.env.data) (behind s.env.data (s.index + 1))
        (other.has e (elements s.env.data) s.env.user).ops

/-- Bodies of walks that do the same to related accumulators. -/
structure Walker.Related (w : Walker D K A) (w' : Walker D' K A') (Acc : A → A' → Prop) :
    Prop where
  visit : ∀ {acc acc'}, Acc acc acc' → ∀ b k,
    Sum.LiftRel Acc SameAnswer (w.visit b k acc) (w'.visit b k acc')
  finish : ∀ {acc acc'}, Acc acc acc' → SameAnswer (w.finish acc) (w'.finish acc')

namespace Walker

variable {w : Walker D K A} {w' : Walker D' K A'} {Acc : A → A' → Prop}
  {other : SetRecord K V σ ε}

/-- What a round of a walk is. -/
theorem round_cases (w : Walker D K A) (other : SetRecord K V σ ε) (s : WalkState D K σ A) :
    (s.thisSize ≤ s.index ∧ w.round other s = .finish (.ok (w.finish s.acc), s.env)) ∨
    (s.index < s.thisSize ∧ SetData.getIndex s.env.data s.index = none ∧
      w.round other s = .skip { s with index := s.index + 1 }) ∨
    ∃ e, s.index < s.thisSize ∧ SetData.getIndex s.env.data s.index = some e ∧
      w.round other s = .visit (w.afterHas other s e) := by
  rw [Walker.round]
  by_cases hlt : s.index < s.thisSize
  · rw [if_pos hlt]
    cases hget : SetData.getIndex s.env.data s.index with
    | none => exact .inr (.inl ⟨hlt, rfl, rfl⟩)
    | some e => exact .inr (.inr ⟨e, hlt, rfl, rfl⟩)
  · rw [if_neg hlt]
    exact .inl ⟨Nat.le_of_not_lt hlt, rfl⟩

/-- Two walks are together: the same has happened, the same elements are to come, and both
readers are on track for good. -/
structure Together (w : Walker D K A) (w' : Walker D' K A') (Acc : A → A' → Prop)
    (other : SetRecord K V σ ε) (s : WalkState D K σ A) (s' : WalkState D' K σ A') : Prop where
  env : SameEnv s.env s'.env
  acc : Acc s.acc s'.acc
  queue : behind s.env.data s.index = behind s'.env.data s'.index
  left : Always (w.step other) (WalkState.OnTrack other) s
  right : Always (w'.step other) (WalkState.OnTrack other) s'

/-- Two walks that are together are so either way round. -/
theorem Together.symm {s : WalkState D K σ A} {s' : WalkState D' K σ A'}
    (h : Together w w' Acc other s s') : Together w' w (fun a' a => Acc a a') other s' s :=
  ⟨h.env.symm, h.acc, h.queue.symm, h.right, h.left⟩

/-- A gap does not take walks apart. -/
theorem Together.skip {s t : WalkState D K σ A} {s' : WalkState D' K σ A'}
    (h : Together w w' Acc other s s') (hround : w.round other s = .skip t) :
    Together w w' Acc other t s' := by
  have hstep : w.step other s = .inl t := by rw [Walker.step, hround, Round.next]
  obtain ⟨-, hfinish⟩ | ⟨-, hget, hskip⟩ | ⟨e, -, -, hvisit⟩ := w.round_cases other s
  · rw [hfinish] at hround
    cases hround
  · rw [hskip] at hround
    cases hround
    exact ⟨h.env, h.acc, (behind_of_none hget).symm.trans h.queue, h.left.next hstep, h.right⟩
  · rw [hvisit] at hround
    cases hround

/-- Walks that are together do the same for the next element. -/
theorem Together.visit (hw : w.Related w' Acc) {s : WalkState D K σ A} {s' : WalkState D' K σ A'}
    (h : Together w w' Acc other s s') {e : K} (hlt : s.index < s.thisSize)
    (hget : SetData.getIndex s.env.data s.index = some e)
    (hround : w.round other s = .visit (w.afterHas other s e)) (hlt' : s'.index < s'.thisSize)
    (hget' : SetData.getIndex s'.env.data s'.index = some e)
    (hround' : w'.round other s' = .visit (w'.afterHas other s' e)) :
    Sum.LiftRel (Together w w' Acc other) SameEnd (w.afterHas other s e)
      (w'.afterHas other s' e) := by
  have hqueue := h.queue
  rw [behind_of_some hget, behind_of_some hget'] at hqueue
  have hnext : behind s.env.data (s.index + 1) = behind s'.env.data (s'.index + 1) :=
    (List.cons.inj hqueue).2
  have hkeeps := h.left.here.keeps e hlt hget
  have hkeeps' := h.right.here.keeps e hlt' hget'
  rw [← hnext, ← h.env.data, ← h.env.user, ← hkeeps] at hkeeps'
  have hstep : w.step other s = w.afterHas other s e := by rw [Walker.step, hround, Round.next]
  have hstep' : w'.step other s' = w'.afterHas other s' e := by
    rw [Walker.step, hround', Round.next]
  obtain ⟨r, env, env', hcall, hcall', henv⟩ := h.env.call (.has e) (other.has e)
  rw [hcall, hcall'] at hkeeps'
  rw [Walker.afterHas, hcall] at hstep ⊢
  rw [Walker.afterHas, hcall'] at hstep' ⊢
  cases r with
  | error err => exact .inr ⟨.error err, henv⟩
  | ok inOther =>
      have hvisit := hw.visit h.acc inOther e
      simp only at hstep hstep' ⊢
      revert hvisit hstep hstep'
      generalize w.visit inOther e s.acc = out
      generalize w'.visit inOther e s'.acc = out'
      intro hstep hstep' hvisit
      cases hvisit with
      | inl hacc => exact .inl ⟨henv, hacc, hkeeps'.symm, h.left.next hstep, h.right.next hstep'⟩
      | inr hanswer => exact .inr ⟨.ok hanswer, henv⟩

/-- **Walks that are on track stay together.** -/
theorem Related.simulation (hw : w.Related w' Acc) :
    Simulation (w.round other) (w'.round other) (Together w w' Acc other) SameEnd
      fun s' => s'.thisSize - s'.index where
  skip_left h hround := h.skip hround
  skip_right h hround := (h.symm.skip hround).symm
  gap_skip {s' t'} hround := by
    obtain ⟨-, hfinish⟩ | ⟨hlt, -, hskip⟩ | ⟨e, -, -, hvisit⟩ := w'.round_cases other s'
    · rw [hfinish] at hround
      cases hround
    · rw [hskip] at hround
      cases hround
      exact Nat.sub_succ_lt_self _ _ hlt
    · rw [hvisit] at hround
      cases hround
  meets {s s'} h hskip hskip' := by
    have hqueue := h.queue
    obtain ⟨hle, hround⟩ | ⟨-, -, hround⟩ | ⟨e, hlt, hget, hround⟩ := w.round_cases other s
    · obtain ⟨-, hround'⟩ | ⟨-, -, hround'⟩ | ⟨e', -, hget', -⟩ := w'.round_cases other s'
      · rw [hround, hround']
        exact .finish ⟨.ok (hw.finish h.acc), h.env⟩
      · rw [hround'] at hskip'
        exact absurd trivial hskip'
      · -- the one is at its end, the other at an element
        rw [h.left.here.covers hle, behind_of_some hget'] at hqueue
        cases hqueue
    · rw [hround] at hskip
      exact absurd trivial hskip
    · obtain ⟨hle', -⟩ | ⟨-, -, hround'⟩ | ⟨e', hlt', hget', hround'⟩ := w'.round_cases other s'
      · rw [h.right.here.covers hle', behind_of_some hget] at hqueue
        cases hqueue
      · rw [hround'] at hskip'
        exact absurd trivial hskip'
      · rw [behind_of_some hget, behind_of_some hget'] at hqueue
        obtain rfl : e = e' := (List.cons.inj hqueue).1
        rw [hround, hround']
        exact .visit (h.visit hw hlt hget hround hlt' hget' hround')

/-- Two walks that are related are so either way round. -/
theorem Related.symm (hw : w.Related w' Acc) : w'.Related w fun a' a => Acc a a' where
  visit hacc b k := by
    have hvisit := hw.visit hacc b k
    revert hvisit
    generalize w.visit b k _ = out
    generalize w'.visit b k _ = out'
    intro hvisit
    cases hvisit with
    | inl h => exact .inl h
    | inr h => exact .inr h.symm
  finish hacc := (hw.finish hacc).symm

/-- One direction of the agreement of walks. -/
theorem Related.exists_same (hw : w.Related w' Acc) {env : Env D K σ} {env' : Env D' K σ}
    (henv : SameEnv env env') {acc : A} {acc' : A'} (hacc : Acc acc acc')
    (hleft : Always (w.step other) (WalkState.OnTrack other) (.start env acc))
    (hright : Always (w'.step other) (WalkState.OnTrack other) (.start env' acc')) (n : ℕ) :
    ∃ m, SameProgress (w.run other acc env n) (w'.run other acc' env' m) := by
  have hqueue : behind env.data 0 = behind env'.data 0 := by
    rw [behind_zero, behind_zero, henv.data]
  obtain ⟨m, hm⟩ := hw.simulation.iterate n
    (⟨henv, hacc, hqueue, hleft, hright⟩ : Together w w' Acc other (.start env acc) (.start env' acc'))
  refine ⟨m, ?_⟩
  change Sum.LiftRel _ _ (iterate (w.step other) n _) (iterate (w'.step other) m _) at hm
  rw [Walker.run, Walker.run]
  revert hm
  generalize iterate (w.step other) n _ = out
  generalize iterate (w'.step other) m _ = out'
  intro hm
  cases hm with
  | inl h => exact .inl h.env
  | inr h => exact .inr h

/-- **Walks agree while both readers keep their place.** -/
theorem Related.agree (hw : w.Related w' Acc) {env : Env D K σ} {env' : Env D' K σ}
    (henv : SameEnv env env') {acc : A} {acc' : A'} (hacc : Acc acc acc')
    (hleft : Always (w.step other) (WalkState.OnTrack other) (.start env acc))
    (hright : Always (w'.step other) (WalkState.OnTrack other) (.start env' acc')) :
    Agree (w.run other acc env) (w'.run other acc' env') := by
  refine ⟨hw.exists_same henv hacc hleft hright, fun m => ?_⟩
  obtain ⟨n, hn⟩ := hw.symm.exists_same henv.symm hacc hright hleft m
  exact ⟨n, hn.symm⟩

/-- A step of a walk passes a gap or an element. -/
theorem step_inl {s t : WalkState D K σ A} (h : w.step other s = .inl t) :
    (SetData.getIndex s.env.data s.index = none ∧ t = { s with index := s.index + 1 }) ∨
    ∃ e inOther, SetData.getIndex s.env.data s.index = some e ∧ s.index < s.thisSize ∧
      s.env.call (.has e) (other.has e) = (.ok inOther, t.env) ∧ t.index = s.index + 1 ∧
      t.thisSize = if w.refreshes inOther then SetData.fullLen t.env.data else s.thisSize := by
  rw [Walker.step] at h
  obtain ⟨-, hround⟩ | ⟨-, hget, hround⟩ | ⟨e, hlt, hget, hround⟩ := w.round_cases other s
  · rw [hround] at h
    cases h
  · rw [hround] at h
    cases h
    exact .inl ⟨hget, rfl⟩
  · rw [hround, Round.next, Walker.afterHas] at h
    cases hcall : s.env.call (.has e) (other.has e) with
    | mk r env =>
        rw [hcall] at h
        cases r with
        | error err => cases h
        | ok inOther =>
            simp only at h
            cases hvisit : w.visit inOther e s.acc with
            | inr answer =>
                rw [hvisit] at h
                cases h
            | inl acc =>
                rw [hvisit] at h
                cases h
                exact .inr ⟨e, inOther, hget, hlt, hcall, rfl, rfl⟩

/-- A walk that reads the number of positions after every call knows it. -/
theorem always_sized (hrefresh : ∀ b, w.refreshes b = true) (env : Env D K σ) (acc : A) :
    Always (w.step other) (fun s => s.thisSize = SetData.fullLen s.env.data) (.start env acc) := by
  refine .of_preserved (fun s t hs ht => ?_) rfl
  obtain ⟨-, rfl⟩ | ⟨e, inOther, -, -, -, -, hsize⟩ := step_inl ht
  · exact hs
  · rw [hsize, hrefresh, if_pos rfl]

/-- A walk that knows the number of positions has nothing behind it at the end. -/
theorem covers_of_sized {s : WalkState D K σ A} (h : s.thisSize = SetData.fullLen s.env.data)
    (hle : s.thisSize ≤ s.index) : behind s.env.data s.index = [] :=
  behind_of_fullLen_le (h ▸ hle)

/-- **A walk of the standard is on track**, whatever user code performs. -/
theorem onTrack_standard {w : Walker (EntryList K) K A} (hrefresh : ∀ b, w.refreshes b = true)
    (env : Env (EntryList K) K σ) (acc : A) :
    Always (w.step other) (WalkState.OnTrack other) (.start env acc) :=
  (always_sized hrefresh env acc).imp fun _ hs =>
    { covers := covers_of_sized hs
      keeps := fun _ _ hget => EntryList.behind_perform (lt_fullLen_of_some hget) _ }

end Walker

/-- The operations that `has` performs let the reader of the source keep its place. -/
def WalkState.KeepsPlace (other : SetRecord K V σ ε) (s : WalkState (SetTable K) K σ A) : Prop :=
  ∀ e, s.index < s.thisSize → SetData.getIndex s.env.data s.index = some e →
    SetTable.KeepsPlaceAll (s.index + 1) s.env.data
      (other.has e (elements s.env.data) s.env.user).ops

/-- At its bound a reader has nothing behind it. -/
def WalkState.Covers (s : WalkState D K σ A) : Prop :=
  s.thisSize ≤ s.index → behind s.env.data s.index = []

/-- A walk of the source is on track while it keeps its place and looks at all that is behind it. -/
theorem WalkState.onTrack_source {other : SetRecord K V σ ε}
    {s : WalkState (SetTable K) K σ A} (hkeeps : s.KeepsPlace other) (hcovers : s.Covers) :
    s.OnTrack other where
  covers := hcovers
  keeps e hlt hget := SetTable.behind_perform (hkeeps e hlt hget)

/-! ### Walks through copies -/

/-- Where a walk through a copy goes on after a deletion, the elements behind the deleted one
are to come. -/
def GoesOn (D : Type) {K : Type} [DecidableEq K] [SetData D K] (afterDeletion : ℕ → ℕ) : Prop :=
  ∀ (d : D) (i : ℕ) (k : K), SetData.getIndex d i = some k →
    behind (SetData.delete d k) (afterDeletion i) = (behind d (i + 1)).filter (· ≠ k) ∧
      SetData.fullLen (SetData.delete d k) ≤ SetData.fullLen d

/-- The list of the standard goes on at the next position, as a deletion leaves an empty entry. -/
theorem goesOn_standard : GoesOn (EntryList K) (· + 1) := fun d i k _ =>
  ⟨EntryList.behind_delete d k (i + 1), Nat.le_of_eq (List.length_map _)⟩

/-- The table of the source goes on at the same position, as a deletion closes the gap. -/
theorem goesOn_source : GoesOn (SetTable K) id := by
  intro s i k hget
  have hfront : ∀ j < i, SetData.getIndex s j ≠ some k := by
    intro j hj hsame
    rw [LawfulSetData.getIndex_eq, Option.join_eq_some_iff] at hget hsame
    exact Nat.ne_of_lt hj (SetTable.slot_unique hsame hget)
  constructor
  · rw [id, SetTable.behind_delete_of_behind hfront, behind_of_some hget,
      List.filter_cons_of_neg (by simp)]
  · rw [LawfulSetData.fullLen_eq, LawfulSetData.fullLen_eq]
    change (s.delete k).slots.length ≤ s.slots.length
    by_cases hlock : s.locks = 0
    · rw [SetTable.slots_delete_of_unlocked hlock]
      exact List.length_filter_le _ _
    · exact Nat.le_of_eq (by rw [SetTable.slots_delete_of_locked hlock, List.length_map])

section Difference

variable {other : SetRecord K V σ ε} {after after' : ℕ → ℕ}

/-- What a round of `difference` is. -/
theorem differenceRound_cases (other : SetRecord K V σ ε) (after : ℕ → ℕ)
    (s : DifferenceState D K σ) :
    (s.thisSize ≤ s.index ∧ differenceRound other after s = .finish (.ok (.set s.result), s.env)) ∨
    (s.index < s.thisSize ∧ SetData.getIndex s.result s.index = none ∧
      differenceRound other after s = .skip { s with index := s.index + 1 }) ∨
    ∃ e, s.index < s.thisSize ∧ SetData.getIndex s.result s.index = some e ∧
      differenceRound other after s = .visit (differenceAfterHas other after s e) := by
  rw [differenceRound]
  by_cases hlt : s.index < s.thisSize
  · rw [if_pos hlt]
    cases hget : SetData.getIndex s.result s.index with
    | none => exact .inr (.inl ⟨hlt, rfl, rfl⟩)
    | some e => exact .inr (.inr ⟨e, hlt, rfl, rfl⟩)
  · rw [if_neg hlt]
    exact .inl ⟨Nat.le_of_not_lt hlt, rfl⟩

/-- Two walks through copies are together: the copies have the same elements and the same to
come, and neither is longer than its bound. -/
structure CopiesTogether (s : DifferenceState D K σ) (s' : DifferenceState D' K σ) : Prop where
  env : SameEnv s.env s'.env
  result : elements s.result = elements s'.result
  queue : behind s.result s.index = behind s'.result s'.index
  left : SetData.fullLen s.result ≤ s.thisSize
  right : SetData.fullLen s'.result ≤ s'.thisSize

/-- Two walks through copies that are together are so either way round. -/
theorem CopiesTogether.symm {s : DifferenceState D K σ} {s' : DifferenceState D' K σ}
    (h : CopiesTogether s s') : CopiesTogether s' s :=
  ⟨h.env.symm, h.result.symm, h.queue.symm, h.right, h.left⟩

/-- Skipping a gap in one of the copies keeps the walks together. -/
theorem CopiesTogether.skip {s t : DifferenceState D K σ} {s' : DifferenceState D' K σ}
    (h : CopiesTogether s s') (hround : differenceRound other after s = .skip t) :
    CopiesTogether t s' := by
  obtain ⟨-, hfinish⟩ | ⟨-, hget, hskip⟩ | ⟨e, -, -, hvisit⟩ := differenceRound_cases other after s
  · rw [hfinish] at hround
    cases hround
  · rw [hskip] at hround
    cases hround
    exact ⟨h.env, h.result, (behind_of_none hget).symm.trans h.queue, h.left, h.right⟩
  · rw [hvisit] at hround
    cases hround

/-- Visiting the same element in both copies keeps the walks together, or ends both in the same way.
-/
theorem CopiesTogether.visit (hD : GoesOn D after) (hD' : GoesOn D' after')
    {s : DifferenceState D K σ} {s' : DifferenceState D' K σ} (h : CopiesTogether s s') {e : K}
    (hget : SetData.getIndex s.result s.index = some e)
    (hget' : SetData.getIndex s'.result s'.index = some e) :
    Sum.LiftRel CopiesTogether SameEnd (differenceAfterHas other after s e)
      (differenceAfterHas other after' s' e) := by
  have hqueue := h.queue
  rw [behind_of_some hget, behind_of_some hget'] at hqueue
  have hnext : behind s.result (s.index + 1) = behind s'.result (s'.index + 1) :=
    (List.cons.inj hqueue).2
  obtain ⟨r, env, env', hcall, hcall', henv⟩ := h.env.call (.has e) (other.has e)
  rw [differenceAfterHas, differenceAfterHas, hcall, hcall']
  cases r with
  | error err => exact .inr ⟨.error err, henv⟩
  | ok inOther =>
      cases inOther with
      | false => exact .inl ⟨henv, h.result, hnext, h.left, h.right⟩
      | true =>
          obtain ⟨hbehind, hlen⟩ := hD s.result s.index e hget
          obtain ⟨hbehind', hlen'⟩ := hD' s'.result s'.index e hget'
          refine .inl ⟨henv, ?_, ?_, Nat.le_trans hlen h.left, Nat.le_trans hlen' h.right⟩
          · change elements (SetData.delete s.result e) = elements (SetData.delete s'.result e)
            rw [elements_delete, elements_delete, h.result]
          · exact hbehind.trans ((congrArg _ hnext).trans hbehind'.symm)

/-- The walk through one copy simulates the other: gaps of the other are skipped, which makes it
shorter each time. -/
theorem CopiesTogether.simulation (other : SetRecord K V σ ε) (hD : GoesOn D after)
    (hD' : GoesOn D' after') :
    Simulation (differenceRound other after) (differenceRound other after')
      (fun (s : DifferenceState D K σ) (s' : DifferenceState D' K σ) => CopiesTogether s s')
      SameEnd fun s' => s'.thisSize - s'.index where
  skip_left h hround := h.skip hround
  skip_right h hround := (h.symm.skip hround).symm
  gap_skip {s' t'} hround := by
    obtain ⟨-, hfinish⟩ | ⟨hlt, -, hskip⟩ | ⟨e, -, -, hvisit⟩ :=
      differenceRound_cases other after' s'
    · rw [hfinish] at hround
      cases hround
    · rw [hskip] at hround
      cases hround
      exact Nat.sub_succ_lt_self _ _ hlt
    · rw [hvisit] at hround
      cases hround
  meets {s s'} h hskip hskip' := by
    have hqueue := h.queue
    obtain ⟨hle, hround⟩ | ⟨-, -, hround⟩ | ⟨e, -, hget, hround⟩ :=
      differenceRound_cases other after s
    · obtain ⟨-, hround'⟩ | ⟨-, -, hround'⟩ | ⟨e', -, hget', -⟩ :=
        differenceRound_cases other after' s'
      · rw [hround, hround']
        exact .finish ⟨.ok (.set h.result), h.env⟩
      · rw [hround'] at hskip'
        exact absurd trivial hskip'
      · rw [behind_of_fullLen_le (Nat.le_trans h.left hle), behind_of_some hget'] at hqueue
        cases hqueue
    · rw [hround] at hskip
      exact absurd trivial hskip
    · obtain ⟨hle', -⟩ | ⟨-, -, hround'⟩ | ⟨e', -, hget', hround'⟩ :=
        differenceRound_cases other after' s'
      · rw [behind_of_fullLen_le (Nat.le_trans h.right hle'), behind_of_some hget] at hqueue
        cases hqueue
      · rw [hround'] at hskip'
        exact absurd trivial hskip'
      · rw [behind_of_some hget, behind_of_some hget'] at hqueue
        obtain rfl : e = e' := (List.cons.inj hqueue).1
        rw [hround, hround']
        exact .visit (h.visit hD hD' hget hget')

/-- One direction of the agreement of walks through copies. -/
theorem difference_exists_same (other : SetRecord K V σ ε) (hD : GoesOn D after) (hD' : GoesOn D' after') {env : Env D K σ}
    {env' : Env D' K σ} (henv : SameEnv env env') (n : ℕ) :
    ∃ m, SameProgress (differenceLoop other after env n) (differenceLoop other after' env' m) := by
  have hqueue : behind env.data 0 = behind env'.data 0 := by
    rw [behind_zero, behind_zero, henv.data]
  have hstart : CopiesTogether (⟨env, env.data, SetData.fullLen env.data, 0⟩ : DifferenceState D K σ)
      (⟨env', env'.data, SetData.fullLen env'.data, 0⟩ : DifferenceState D' K σ) :=
    ⟨henv, henv.data, hqueue, Nat.le_refl _, Nat.le_refl _⟩
  obtain ⟨m, hm⟩ := (CopiesTogether.simulation other hD hD').iterate n hstart
  refine ⟨m, ?_⟩
  rw [differenceLoop, differenceLoop]
  revert hm
  generalize iterate _ n _ = out
  generalize iterate _ m _ = out'
  intro hm
  cases hm with
  | inl h => exact .inl h.env
  | inr h => exact .inr h

/-- **The walks through the copies agree**, whatever user code performs on the set itself. -/
theorem difference_agree (other : SetRecord K V σ ε) (hD : GoesOn D after) (hD' : GoesOn D' after') {env : Env D K σ}
    {env' : Env D' K σ} (henv : SameEnv env env') :
    Agree (differenceLoop other after env) (differenceLoop other after' env') := by
  refine ⟨difference_exists_same other hD hD' henv, fun m => ?_⟩
  obtain ⟨n, hn⟩ := difference_exists_same other hD' hD henv.symm m
  exact ⟨n, hn.symm⟩

end Difference

end Laws

end BoaLigero.Builtins.SetObject
