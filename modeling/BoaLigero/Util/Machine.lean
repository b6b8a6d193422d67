import Mathlib.Init

/-!
# Machines over Instruction Lists

Code is a list of instructions addressed by position. The meaning of an instruction maps the
address behind it and a state to the address to go on at, or to an error; the state is kept
in both cases. The module gives the functional executor, the relation used to reason about
parts of a run, and a proof rule for running code in step with a program over another type
of states.

## Main results

* `run_unique` — the executor has one outcome, whatever the fuel.
* `Delivers.run_ok`, `Delivers.run_error` — a run put together from parts is the executor's
  run.
* `Tracks.bind` — code that tracks a computation, followed by code that tracks every
  continuation of it, tracks the two in sequence.
-/

namespace Machine

variable {ι : Type*} {ε τ σ α β : Type}

/-- The meaning of instructions: from the address behind the instruction to the address to
go on at. -/
abbrev Semantics (ι : Type*) (ε τ : Type) := ι → Nat → EStateM ε τ Nat

/-- Run code from an address until control leaves it or an instruction fails. -/
def run (exec : Semantics ι ε τ) (code : List ι) : Nat → Nat → τ →
    Option (EStateM.Result ε τ Nat)
  | 0, _, _ => none
  | fuel + 1, pc, t =>
      match code[pc]? with
      | none => some (.ok pc t)
      | some i =>
          match (exec i (pc + 1)).run t with
          | .ok pc' t' => run exec code fuel pc' t'
          | .error e t' => some (.error e t')

variable {exec : Semantics ι ε τ} {code : List ι}

/-- **The executor has one outcome**: two amounts of fuel that both suffice agree. -/
theorem run_unique {fuel fuel' pc : Nat} {t : τ} {r r' : EStateM.Result ε τ Nat}
    (h : run exec code fuel pc t = some r) (h' : run exec code fuel' pc t = some r') :
    r = r' := by
  induction fuel generalizing fuel' pc t with
  | zero => cases h
  | succ fuel ih =>
      cases fuel' with
      | zero => cases h'
      | succ fuel' =>
          rw [run] at h h'
          cases hi : code[pc]? with
          | none =>
              simp only [hi] at h h'
              exact Option.some.inj (h.symm.trans h')
          | some i =>
              simp only [hi] at h h'
              cases he : (exec i (pc + 1)).run t with
              | ok pc' t' =>
                  simp only [he] at h h'
                  exact ih h h'
              | error e t' =>
                  simp only [he] at h h'
                  exact Option.some.inj (h.symm.trans h')

/-- Part of a run: from an address and a state to a later address, or to an error. -/
inductive Delivers (exec : Semantics ι ε τ) (code : List ι) :
    Nat → τ → EStateM.Result ε τ Nat → Prop
  | here {pc : Nat} {t : τ} : Delivers exec code pc t (.ok pc t)
  | step {pc pc' : Nat} {t t' : τ} {i : ι} {r : EStateM.Result ε τ Nat}
      (fetch : code[pc]? = some i) (heq : (exec i (pc + 1)).run t = .ok pc' t')
      (rest : Delivers exec code pc' t' r) : Delivers exec code pc t r
  | fail {pc : Nat} {t t' : τ} {i : ι} {e : ε}
      (fetch : code[pc]? = some i) (heq : (exec i (pc + 1)).run t = .error e t') :
      Delivers exec code pc t (.error e t')

/-- Parts of a run compose. -/
theorem Delivers.trans {pc pc' : Nat} {t t' : τ} {r : EStateM.Result ε τ Nat}
    (h : Delivers exec code pc t (.ok pc' t')) (h' : Delivers exec code pc' t' r) :
    Delivers exec code pc t r := by
  generalize hr : EStateM.Result.ok pc' t' = r' at h
  induction h with
  | here =>
      cases hr
      exact h'
  | step fetch heq _ ih => exact .step fetch heq (ih hr)
  | fail => cases hr

/-- A part that leaves the code is the executor's run. -/
theorem Delivers.run_ok {pc pc' : Nat} {t t' : τ}
    (h : Delivers exec code pc t (.ok pc' t')) (hout : code.length ≤ pc') :
    ∃ fuel, run exec code fuel pc t = some (.ok pc' t') := by
  generalize hr : EStateM.Result.ok pc' t' = r at h
  induction h with
  | here =>
      cases hr
      exact ⟨1, by rw [run, List.getElem?_eq_none hout]⟩
  | step fetch heq _ ih =>
      obtain ⟨fuel, hrun⟩ := ih hr
      refine ⟨fuel + 1, ?_⟩
      rw [run, fetch]
      simp only [heq]
      rw [hrun]
  | fail => cases hr

/-- A part that fails is the executor's run. -/
theorem Delivers.run_error {pc : Nat} {t t' : τ} {e : ε}
    (h : Delivers exec code pc t (.error e t')) :
    ∃ fuel, run exec code fuel pc t = some (.error e t') := by
  generalize hr : EStateM.Result.error e t' = r at h
  induction h with
  | here => cases hr
  | step fetch heq _ ih =>
      obtain ⟨fuel, hrun⟩ := ih hr
      refine ⟨fuel + 1, ?_⟩
      rw [run, fetch]
      simp only [heq]
      rw [hrun]
  | fail fetch heq =>
      cases hr
      refine ⟨1, ?_⟩
      rw [run, fetch]
      simp only [heq]

/-! ### Fragments -/

/-- `frag` stands in the code at `pos`. -/
def FragmentAt (code : List ι) (pos : Nat) (frag : List ι) : Prop :=
  ∀ j < frag.length, code[pos + j]? = frag[j]?

theorem FragmentAt.append {pos : Nat} {f g : List ι} (h : FragmentAt code pos (f ++ g)) :
    FragmentAt code pos f ∧ FragmentAt code (pos + f.length) g := by
  constructor
  · intro j hj
    rw [h j (by simp; omega), List.getElem?_append_left hj]
  · intro j hj
    rw [Nat.add_assoc, h (f.length + j) (by simp; omega),
      List.getElem?_append_right (by omega), Nat.add_sub_cancel_left]

theorem FragmentAt.fetch {pos : Nat} {i : ι} {f : List ι} (h : FragmentAt code pos (i :: f)) :
    code[pos]? = some i := by
  simpa using h 0 (by simp)

/-- A fragment stands where it was appended. -/
theorem fragmentAt_append_right (pre frag : List ι) :
    FragmentAt (pre ++ frag) pre.length frag := by
  intro j hj
  rw [List.getElem?_append_right (by omega), Nat.add_sub_cancel_left]

/-- Changing an instruction of what was appended leaves the rest alone. -/
theorem modify_append_right (pre frag : List ι) (k : Nat) (g : ι → ι) :
    (pre ++ frag).modify (pre.length + k) g = pre ++ frag.modify k g := by
  induction pre with
  | nil => simp
  | cons i pre ih =>
      rw [List.cons_append, List.length_cons, Nat.add_right_comm, List.modify_succ_cons, ih,
        List.cons_append]

/-- Changing an instruction of the front leaves what is behind it alone. -/
theorem modify_append_left {frag : List ι} {k : Nat} (hk : k < frag.length) (rest : List ι)
    (g : ι → ι) : (frag ++ rest).modify k g = frag.modify k g ++ rest := by
  induction frag generalizing k with
  | nil => simp at hk
  | cons i frag ih =>
      cases k with
      | zero => rfl
      | succ k =>
          rw [List.cons_append, List.modify_succ_cons, ih (by simpa using hk),
            List.modify_succ_cons, List.cons_append]

/-! ### Running in step with another program -/

/-- From `pc` the code does what the computation with outcome `x` does: it fails with the
same error, or it arrives somewhere with a result as `Q` wants it. `R` relates the states. -/
def Tracks (exec : Semantics ι ε τ) (code : List ι) (R : σ → τ → Prop) (pc : Nat) (t : τ)
    (x : EStateM.Result ε σ α) (Q : α → σ → Nat → τ → Prop) : Prop :=
  match x with
  | .ok a s' => ∃ pc' t', Delivers exec code pc t (.ok pc' t') ∧ R s' t' ∧ Q a s' pc' t'
  | .error e s' => ∃ t', Delivers exec code pc t (.error e t') ∧ R s' t'

variable {R : σ → τ → Prop} {pc : Nat} {t : τ} {Q : α → σ → Nat → τ → Prop}

theorem Tracks.pure {a : α} {s : σ} (hR : R s t) (hQ : Q a s pc t) :
    Tracks exec code R pc t (.ok a s) Q :=
  ⟨pc, t, .here, hR, hQ⟩

/-- Before tracking anything the code may run ahead. -/
theorem Tracks.after {pc' : Nat} {t' : τ} {x : EStateM.Result ε σ α}
    (hrun : Delivers exec code pc t (.ok pc' t')) (h : Tracks exec code R pc' t' x Q) :
    Tracks exec code R pc t x Q := by
  cases x with
  | ok a s' =>
      obtain ⟨pc'', t'', hrest, hR, hQ⟩ := h
      exact ⟨pc'', t'', hrun.trans hrest, hR, hQ⟩
  | error e s' =>
      obtain ⟨t'', hrest, hR⟩ := h
      exact ⟨t'', hrun.trans hrest, hR⟩

theorem Tracks.step {pc' : Nat} {t' : τ} {i : ι} {x : EStateM.Result ε σ α}
    (fetch : code[pc]? = some i) (heq : (exec i (pc + 1)).run t = .ok pc' t')
    (h : Tracks exec code R pc' t' x Q) : Tracks exec code R pc t x Q :=
  h.after (.step fetch heq .here)

/-- What is wanted at arrival may be weakened, and may use that the computation got there. -/
theorem Tracks.imp {x : EStateM.Result ε σ α} {Q' : α → σ → Nat → τ → Prop}
    (h : Tracks exec code R pc t x Q)
    (himp : ∀ a s' pc' t', x = .ok a s' → R s' t' → Q a s' pc' t' → Q' a s' pc' t') :
    Tracks exec code R pc t x Q' := by
  cases x with
  | ok a s' =>
      obtain ⟨pc', t', hrun, hR, hQ⟩ := h
      exact ⟨pc', t', hrun, hR, himp a s' pc' t' rfl hR hQ⟩
  | error e s' => exact h

/-- At arrival the code may run on. -/
theorem Tracks.before {x : EStateM.Result ε σ α} {Q' : α → σ → Nat → τ → Prop}
    (h : Tracks exec code R pc t x Q)
    (hrest : ∀ a s' pc' t', x = .ok a s' → R s' t' → Q a s' pc' t' →
      Tracks exec code R pc' t' (.ok a s' : EStateM.Result ε σ α) Q') :
    Tracks exec code R pc t x Q' := by
  cases x with
  | ok a s' =>
      obtain ⟨pc', t', hrun, hR, hQ⟩ := h
      exact (hrest a s' pc' t' rfl hR hQ).after hrun
  | error e s' => exact h

/-- **The sequence rule**: code that tracks a computation, followed by code that tracks every
continuation of it, tracks the two in sequence. -/
theorem Tracks.bind {x : EStateM ε σ α} {k : α → EStateM ε σ β} {s : σ}
    {Q' : β → σ → Nat → τ → Prop} (h : Tracks exec code R pc t (x.run s) Q)
    (hk : ∀ a s' pc' t', x.run s = .ok a s' → R s' t' → Q a s' pc' t' →
      Tracks exec code R pc' t' ((k a).run s') Q') :
    Tracks exec code R pc t ((x >>= k).run s) Q' := by
  rw [EStateM.run_bind]
  cases hx : x.run s with
  | ok a s' =>
      rw [hx] at h
      obtain ⟨pc', t', hrun, hR, hQ⟩ := h
      exact (hk a s' pc' t' hx hR hQ).after hrun
  | error e s' =>
      rw [hx] at h
      exact h

end Machine
