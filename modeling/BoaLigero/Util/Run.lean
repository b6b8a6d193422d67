import Mathlib.Init

/-!
# Runs of a Labelled Transition System

A system is a set of initial states and a step relation whose labels say what was done. A
run may be restricted to steps that meet a condition on the state before the step and the
label; the unrestricted runs are those whose condition holds everywhere.

## Main results

* `Run.invariant` — a property of the initial states that every admitted step preserves
  holds in every state reached.
* `Run.mono` — a run under a condition is a run under every weaker one.
* `Run.performAll` — performing executable steps is a run.
-/

/-- A labelled transition system. -/
structure TransitionSystem (S L : Type*) where
  /-- The states a run may start in. -/
  init : S → Prop
  /-- What a step with a given label may do. -/
  step : S → L → S → Prop

namespace TransitionSystem

variable {S L : Type*} {sys : TransitionSystem S L}

/-- The states reached by runs all of whose steps meet `ok`. -/
inductive Run (sys : TransitionSystem S L) (ok : S → L → Prop) : S → Prop
  | start {s : S} (hinit : sys.init s) : Run sys ok s
  | next {s s' : S} {l : L} (run : Run sys ok s) (hok : ok s l) (hstep : sys.step s l s') :
      Run sys ok s'

/-- The states reached by runs. -/
def Reachable (sys : TransitionSystem S L) (s : S) : Prop := sys.Run (fun _ _ => True) s

/-- **The invariant rule**: what holds initially and is preserved by every admitted step
holds in every state reached. -/
theorem Run.invariant {ok : S → L → Prop} {I : S → Prop} (hinit : ∀ s, sys.init s → I s)
    (hstep : ∀ s l s', I s → ok s l → sys.step s l s' → I s') {s : S} (run : sys.Run ok s) :
    I s := by
  induction run with
  | start h => exact hinit _ h
  | next _ hok hs ih => exact hstep _ _ _ ih hok hs

/-- A run under a condition is a run under a weaker one. -/
theorem Run.mono {ok ok' : S → L → Prop} (himp : ∀ s l, ok s l → ok' s l) {s : S}
    (run : sys.Run ok s) : sys.Run ok' s := by
  induction run with
  | start h => exact .start h
  | next _ hok hs ih => exact .next ih (himp _ _ hok) hs

/-- Every restricted run is a run. -/
theorem Run.reachable {ok : S → L → Prop} {s : S} (run : sys.Run ok s) : sys.Reachable s :=
  run.mono fun _ _ _ => trivial

/-- The runs that go on from a state. -/
def startingAt (sys : TransitionSystem S L) (s : S) : TransitionSystem S L where
  init := fun s₀ => s₀ = s
  step := sys.step

/-! ### Executable steps -/

/-- Perform steps one after the other, as long as they are possible and pass a check. -/
def performAll (exec : S → L → Option S) (check : S → L → Bool) : S → List L → Option S
  | s, [] => some s
  | s, l :: ls => if check s l then (exec s l).bind fun s => performAll exec check s ls else none

/-- Performing steps is a run under the check. -/
theorem Run.performAll {exec : S → L → Option S}
    (hexec : ∀ s l s', exec s l = some s' → sys.step s l s') {check : S → L → Bool} {s s' : S}
    (run : sys.Run (fun s l => check s l) s) {ls : List L}
    (heq : TransitionSystem.performAll exec check s ls = some s') :
    sys.Run (fun s l => check s l) s' := by
  induction ls generalizing s with
  | nil => exact Option.some.inj heq ▸ run
  | cons l ls ih =>
      rw [TransitionSystem.performAll] at heq
      split at heq
      · next hok =>
          obtain ⟨s₁, hstep, hrest⟩ := Option.bind_eq_some_iff.mp heq
          exact ih (run.next hok (hexec s l s₁ hstep)) hrest
      · cases heq

end TransitionSystem
