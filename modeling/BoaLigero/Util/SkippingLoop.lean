import Mathlib.Data.List.Basic
import Mathlib.Data.Sum.Basic

/-!
# Loops That Skip

A loop takes steps from state to state until one of them ends it with a result; with a bounded
number of steps it is left in a state or has a result. Two loops are related when a number of
steps of the one is met by some number of steps of the other.

A round of a loop over positions skips a gap, visits an entry or finishes. Loops that read the
same entries but skip different gaps are related although they do not go in step: each visit and
the finish of the one is met by the other once it has skipped what lies in front.

## Main results

* `iterate_ends_unique` — a loop has one result, whatever the number of steps.
* `liftRel_iterate` — loops that go in step are related.
* `Simulation.iterate` — loops that skip different gaps are related.
-/

namespace SkippingLoop

variable {S R S' R' : Type*}

/-- Take up to `fuel` steps. -/
def iterate (step : S → S ⊕ R) : ℕ → S → S ⊕ R
  | 0, s => .inl s
  | fuel + 1, s =>
      match step s with
      | .inl next => iterate step fuel next
      | .inr r => .inr r

section Iterate

variable {step : S → S ⊕ R}

theorem iterate_succ_of_inl {s next : S} (h : step s = .inl next) (fuel : ℕ) :
    iterate step (fuel + 1) s = iterate step fuel next := by
  rw [iterate, h]

theorem iterate_succ_of_inr {s : S} {r : R} (h : step s = .inr r) (fuel : ℕ) :
    iterate step (fuel + 1) s = .inr r := by
  rw [iterate, h]

/-- Steps that lead to a state are followed by the steps from it. -/
theorem iterate_add {m : ℕ} {s t : S} (h : iterate step m s = .inl t) (n : ℕ) :
    iterate step (m + n) s = iterate step n t := by
  induction m generalizing s with
  | zero =>
      cases h
      rw [Nat.zero_add]
  | succ m ih =>
      rw [Nat.succ_add]
      cases hstep : step s with
      | inl next =>
          rw [iterate_succ_of_inl hstep] at h ⊢
          exact ih h
      | inr r =>
          rw [iterate_succ_of_inr hstep] at h
          cases h

/-- A result stays with more steps. -/
theorem iterate_add_of_ends {m : ℕ} {s : S} {r : R} (h : iterate step m s = .inr r) (n : ℕ) :
    iterate step (m + n) s = .inr r := by
  induction m generalizing s with
  | zero => cases h
  | succ m ih =>
      rw [Nat.succ_add]
      cases hstep : step s with
      | inl next =>
          rw [iterate_succ_of_inl hstep] at h ⊢
          exact ih h
      | inr r' =>
          rw [iterate_succ_of_inr hstep] at h ⊢
          exact h

/-- **A loop has one result.** -/
theorem iterate_ends_unique {m n : ℕ} {s : S} {r r' : R} (h : iterate step m s = .inr r)
    (h' : iterate step n s = .inr r') : r = r' := by
  have hm := iterate_add_of_ends h n
  have hn := iterate_add_of_ends h' m
  rw [Nat.add_comm, hn] at hm
  exact (Sum.inr.inj hm).symm

/-- What every step keeps or ends with holds of the result. -/
theorem ends_of_kept {P : S → Prop} {Q : R → Prop} (hstep : ∀ s, P s → Sum.elim P Q (step s))
    {fuel : ℕ} {s : S} {r : R} (hs : P s) (h : iterate step fuel s = .inr r) : Q r := by
  induction fuel generalizing s with
  | zero => cases h
  | succ fuel ih =>
      have hnext := hstep s hs
      cases hout : step s with
      | inl next =>
          rw [hout] at hnext
          rw [iterate_succ_of_inl hout] at h
          exact ih hnext h
      | inr r' =>
          rw [hout] at hnext
          rw [iterate_succ_of_inr hout] at h
          cases h
          exact hnext

/-- A property of every state the loop comes to. -/
def Always (step : S → S ⊕ R) (P : S → Prop) (s : S) : Prop :=
  ∀ fuel t, iterate step fuel s = .inl t → P t

theorem Always.here {P : S → Prop} {s : S} (h : Always step P s) : P s := h 0 s rfl

theorem Always.next {P : S → Prop} {s t : S} (h : Always step P s) (hstep : step s = .inl t) :
    Always step P t := fun fuel u hu =>
  h (fuel + 1) u (by rw [iterate_succ_of_inl hstep, hu])

/-- What every step preserves holds always. -/
theorem Always.of_preserved {P : S → Prop} (hstep : ∀ s t, P s → step s = .inl t → P t) {s : S}
    (hs : P s) : Always step P s := by
  intro fuel
  induction fuel generalizing s with
  | zero =>
      intro t ht
      cases ht
      exact hs
  | succ fuel ih =>
      intro t ht
      cases hnext : step s with
      | inl next =>
          rw [iterate_succ_of_inl hnext] at ht
          exact ih (hstep s next hs hnext) t ht
      | inr r =>
          rw [iterate_succ_of_inr hnext] at ht
          cases ht

theorem Always.imp {P Q : S → Prop} {s : S} (h : Always step P s) (himp : ∀ t, P t → Q t) :
    Always step Q s := fun fuel t ht => himp t (h fuel t ht)

end Iterate

/-! ### Loops in step -/

/-- **Loops that go in step are related.** -/
theorem liftRel_iterate {step : S → S ⊕ R} {step' : S' → S' ⊕ R'} {Rel : S → S' → Prop}
    {Out : R → R' → Prop}
    (h : ∀ s s', Rel s s' → Sum.LiftRel Rel Out (step s) (step' s')) (fuel : ℕ) {s : S} {s' : S'}
    (hrel : Rel s s') : Sum.LiftRel Rel Out (iterate step fuel s) (iterate step' fuel s') := by
  induction fuel generalizing s s' with
  | zero => exact .inl hrel
  | succ fuel ih =>
      have hstep := h s s' hrel
      rw [iterate, iterate]
      cases hs : step s with
      | inl t =>
          cases hs' : step' s' with
          | inl t' =>
              rw [hs, hs'] at hstep
              cases hstep with
              | inl ht => exact ih ht
          | inr r' => rw [hs, hs'] at hstep; cases hstep
      | inr r =>
          cases hs' : step' s' with
          | inl t' => rw [hs, hs'] at hstep; cases hstep
          | inr r' => rw [hs, hs'] at hstep; exact hstep

/-! ### Loops that skip -/

/-- A round of a loop over positions. -/
inductive Round (S R : Type*)
  | skip (next : S)
  | visit (next : S ⊕ R)
  | finish (r : R)

namespace Round

/-- What a round leads to. -/
def next : Round S R → S ⊕ R
  | .skip s => .inl s
  | .visit n => n
  | .finish r => .inr r

/-- The round passes over a gap. -/
def IsSkip : Round S R → Prop
  | .skip _ => True
  | _ => False

end Round

/-- Rounds that do the same, and no gap is skipped. -/
inductive Meets (Rel : S → S' → Prop) (Out : R → R' → Prop) : Round S R → Round S' R' → Prop
  | visit {n : S ⊕ R} {n' : S' ⊕ R'} (h : Sum.LiftRel Rel Out n n') :
      Meets Rel Out (.visit n) (.visit n')
  | finish {r : R} {r' : R'} (h : Out r r') : Meets Rel Out (.finish r) (.finish r')

/-- Two loops keep a relation between their states: gaps do not touch it, and what is not a gap
does the same in both. The second loop leaves every gap at some time. -/
structure Simulation (round : S → Round S R) (round' : S' → Round S' R') (Rel : S → S' → Prop)
    (Out : R → R' → Prop) (gap : S' → ℕ) : Prop where
  skip_left : ∀ {s s' t}, Rel s s' → round s = .skip t → Rel t s'
  skip_right : ∀ {s s' t'}, Rel s s' → round' s' = .skip t' → Rel s t'
  gap_skip : ∀ {s' t'}, round' s' = .skip t' → gap t' < gap s'
  meets : ∀ {s s'}, Rel s s' → ¬ (round s).IsSkip → ¬ (round' s').IsSkip →
    Meets Rel Out (round s) (round' s')

namespace Simulation

variable {round : S → Round S R} {round' : S' → Round S' R'} {Rel : S → S' → Prop}
  {Out : R → R' → Prop} {gap : S' → ℕ}

/-- The second loop comes out of the gaps with the relation kept. -/
theorem exists_skipped (h : Simulation round round' Rel Out gap) {s : S} {s' : S'}
    (hrel : Rel s s') : ∃ m t', iterate (fun u => (round' u).next) m s' = .inl t' ∧ Rel s t' ∧
      ¬ (round' t').IsSkip := by
  induction hgap : gap s' using Nat.strongRecOn generalizing s' with
  | ind g ih =>
      cases hround : round' s' with
      | skip u' =>
          have hlt := h.gap_skip hround
          rw [hgap] at hlt
          obtain ⟨m, t', hiter, ht⟩ := ih (gap u') hlt (h.skip_right hrel hround) rfl
          refine ⟨m + 1, t', ?_, ht⟩
          rw [iterate_succ_of_inl (by rw [hround, Round.next]), hiter]
      | visit n => exact ⟨0, s', rfl, hrel, by rw [hround]; exact id⟩
      | finish r => exact ⟨0, s', rfl, hrel, by rw [hround]; exact id⟩

/-- **Loops that skip different gaps are related.** -/
theorem iterate (h : Simulation round round' Rel Out gap) (n : ℕ) {s : S} {s' : S'}
    (hrel : Rel s s') :
    ∃ m, Sum.LiftRel Rel Out (SkippingLoop.iterate (fun u => (round u).next) n s)
      (SkippingLoop.iterate (fun u => (round' u).next) m s') := by
  induction n generalizing s s' with
  | zero => exact ⟨0, .inl hrel⟩
  | succ n ih =>
      -- a round that is met by the round `t'` of the other loop, after what that one skips
      have hmeets : ¬ (round s).IsSkip → ∃ m t',
          SkippingLoop.iterate (fun u => (round' u).next) m s' = .inl t' ∧
            Meets Rel Out (round s) (round' t') := by
        intro hskip
        obtain ⟨m, t', hiter, hrel', hskip'⟩ := h.exists_skipped hrel
        exact ⟨m, t', hiter, h.meets hrel' hskip hskip'⟩
      cases hround : round s with
      | skip t =>
          obtain ⟨m, hm⟩ := ih (h.skip_left hrel hround)
          exact ⟨m, by rwa [iterate_succ_of_inl (by rw [hround, Round.next])]⟩
      | visit next =>
          rw [hround] at hmeets
          obtain ⟨m, t', hiter, hmeet⟩ := hmeets id
          cases hround' : round' t' with
          | skip u' => rw [hround'] at hmeet; cases hmeet
          | finish r' => rw [hround'] at hmeet; cases hmeet
          | visit next' =>
              rw [hround'] at hmeet
              cases hmeet with
              | visit hnext =>
                  cases hnext with
                  | inl ht =>
                      obtain ⟨k, hk⟩ := ih ht
                      refine ⟨m + (k + 1), ?_⟩
                      rwa [iterate_add hiter, iterate_succ_of_inl (by rw [hround, Round.next]),
                        iterate_succ_of_inl (by rw [hround', Round.next])]
                  | inr hr =>
                      refine ⟨m + 1, ?_⟩
                      rw [iterate_add hiter, iterate_succ_of_inr (by rw [hround, Round.next]),
                        iterate_succ_of_inr (by rw [hround', Round.next])]
                      exact .inr hr
      | finish r =>
          rw [hround] at hmeets
          obtain ⟨m, t', hiter, hmeet⟩ := hmeets id
          cases hround' : round' t' with
          | skip u' => rw [hround'] at hmeet; cases hmeet
          | visit next' => rw [hround'] at hmeet; cases hmeet
          | finish r' =>
              rw [hround'] at hmeet
              cases hmeet with
              | finish hr =>
                  refine ⟨m + 1, ?_⟩
                  rw [iterate_add hiter, iterate_succ_of_inr (by rw [hround, Round.next]),
                    iterate_succ_of_inr (by rw [hround', Round.next])]
                  exact .inr hr

end Simulation

end SkippingLoop
