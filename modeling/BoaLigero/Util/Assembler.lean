import BoaLigero.Util.Machine

/-!
# Emitting Instructions and Patching Labels

A compiler appends instructions to its output. A jump emitted before its target is known is
a label: the address of the instruction, whose operand is filled in later. What the emitted
code does is stated of every code it stands in, from the address it starts at to the address
behind it.

## Main results

* `Emits.trans` — emitting one piece after another.
* `Opens.append`, `Emits.opens` — a label stays open while code is emitted behind it or was
  emitted before it.
* `Opens.opens` — a label is patched while a later one is open.
* `Opens.patch` — patching the last open label gives a piece of code.
-/

namespace Machine

variable {ι : Type*}

/-- The output grew by code that does `P` between its two ends. -/
def Emits (out out' : List ι) (P : List ι → Nat → Nat → Prop) : Prop :=
  ∃ frag, out' = out ++ frag ∧
    ∀ code, FragmentAt code out.length frag → P code out.length out'.length

/-- The output grew by code with an open label: for every target of the label it does `P`. -/
def Opens (setAddress : Nat → ι → ι) (out out' : List ι) (label : Nat)
    (P : List ι → Nat → Nat → Nat → Prop) : Prop :=
  ∃ frag k, out' = out ++ frag ∧ label = out.length + k ∧ k < frag.length ∧
    ∀ code target, FragmentAt code out.length (frag.modify k (setAddress target)) →
      P code target out.length out'.length

variable {setAddress : Nat → ι → ι} {out out₁ out₂ : List ι}
  {P : List ι → Nat → Nat → Prop} {Q : List ι → Nat → Nat → Prop}

/-- Code that emits nothing ends where it begins. -/
theorem Emits.nil (out : List ι) : Emits out out fun _ a b => a = b :=
  ⟨[], (List.append_nil out).symm, fun _ _ => rfl⟩

/-- One instruction is found where it was emitted, and the code goes on behind it. -/
theorem Emits.singleton (out : List ι) (i : ι) :
    Emits out (out ++ [i]) fun code a b => code[a]? = some i ∧ b = a + 1 :=
  ⟨[i], rfl, fun _ h => ⟨h.fetch, by simp⟩⟩

/-- What is known of emitted code may be weakened. -/
theorem Emits.imp (h : Emits out out₁ P) (himp : ∀ code a b, P code a b → Q code a b) :
    Emits out out₁ Q := by
  obtain ⟨frag, rfl, hP⟩ := h
  exact ⟨frag, rfl, fun code hc => himp _ _ _ (hP code hc)⟩

/-- **Emitting one piece after another.** -/
theorem Emits.trans (h : Emits out out₁ P) (h' : Emits out₁ out₂ Q) :
    Emits out out₂ fun code a d => ∃ b, P code a b ∧ Q code b d := by
  obtain ⟨f, rfl, hP⟩ := h
  obtain ⟨g, rfl, hQ⟩ := h'
  refine ⟨f ++ g, List.append_assoc out f g, fun code hc => ?_⟩
  obtain ⟨hf, hg⟩ := hc.append
  rw [← List.length_append] at hg
  exact ⟨(out ++ f).length, hP code hf, hQ code hg⟩

/-- A piece of code starts and ends where it was emitted. -/
theorem Emits.located (h : Emits out out₁ P) :
    Emits out out₁ fun code a b => P code a b ∧ a = out.length ∧ b = out₁.length := by
  obtain ⟨frag, rfl, hP⟩ := h
  exact ⟨frag, rfl, fun code hc => ⟨hP code hc, rfl, rfl⟩⟩

/-- What was emitted last is code that does what it should. -/
theorem Emits.holds (h : Emits out out₁ P) : P out₁ out.length out₁.length := by
  obtain ⟨frag, rfl, hP⟩ := h
  exact hP _ (fragmentAt_append_right out frag)

/-- A jump that is emitted stays open: its address is what the label is patched with later. -/
theorem Opens.singleton (setAddress : Nat → ι → ι) (out : List ι) (i : ι) :
    Opens setAddress out (out ++ [i]) out.length fun code target a b =>
      code[a]? = some (setAddress target i) ∧ b = a + 1 :=
  ⟨[i], 0, rfl, rfl, by simp, fun _ _ h => ⟨h.fetch, by simp⟩⟩

variable {label label' : Nat} {P' Q' : List ι → Nat → Nat → Nat → Prop}

/-- What is known of open code may be weakened. -/
theorem Opens.imp (h : Opens setAddress out out₁ label P')
    (himp : ∀ code target a b, P' code target a b → Q' code target a b) :
    Opens setAddress out out₁ label Q' := by
  obtain ⟨frag, k, hout, hk, hlt, hP⟩ := h
  exact ⟨frag, k, hout, hk, hlt, fun code target hc => himp _ _ _ _ (hP code target hc)⟩

/-- A piece of code with an open label starts and ends where it was emitted. -/
theorem Opens.located (h : Opens setAddress out out₁ label P') :
    Opens setAddress out out₁ label fun code target a b =>
      P' code target a b ∧ a = out.length ∧ b = out₁.length := by
  obtain ⟨frag, k, rfl, hk, hlt, hP⟩ := h
  exact ⟨frag, k, rfl, hk, hlt, fun code target hc => ⟨hP code target hc, rfl, rfl⟩⟩

/-- **A label stays open** while code is emitted behind it. -/
theorem Opens.append (h : Opens setAddress out out₁ label P') (h' : Emits out₁ out₂ Q) :
    Opens setAddress out out₂ label fun code target a d =>
      ∃ b, P' code target a b ∧ Q code b d := by
  obtain ⟨f, k, rfl, rfl, hk, hP⟩ := h
  obtain ⟨g, rfl, hQ⟩ := h'
  refine ⟨f ++ g, k, List.append_assoc out f g, rfl, by simp; omega, fun code target hc => ?_⟩
  rw [modify_append_left hk] at hc
  obtain ⟨hf, hg⟩ := hc.append
  rw [List.length_modify, ← List.length_append] at hg
  exact ⟨(out ++ f).length, hP code target hf, hQ code hg⟩

/-- Code emitted before a label is opened. -/
theorem Emits.opens (h : Emits out out₁ P) (h' : Opens setAddress out₁ out₂ label Q') :
    Opens setAddress out out₂ label fun code target a d =>
      ∃ b, P code a b ∧ Q' code target b d := by
  obtain ⟨f, rfl, hP⟩ := h
  obtain ⟨g, k, rfl, rfl, hk, hQ⟩ := h'
  refine ⟨f ++ g, f.length + k, List.append_assoc out f g, by simp; omega, by simp; omega,
    fun code target hc => ?_⟩
  rw [modify_append_right] at hc
  obtain ⟨hf, hg⟩ := hc.append
  rw [← List.length_append] at hg
  exact ⟨(out ++ f).length, hP code hf, hQ code target hg⟩

/-- **Patching a label to the end of the output** closes it. -/
theorem Opens.patch (h : Opens setAddress out out₁ label P') :
    Emits out (out₁.modify label (setAddress out₁.length)) fun code a b => P' code b a b := by
  obtain ⟨f, k, rfl, rfl, hk, hP⟩ := h
  refine ⟨f.modify k (setAddress (out ++ f).length), modify_append_right .., fun code hc => ?_⟩
  rw [List.length_modify]
  exact hP code _ hc

/-- Whatever the last open label is patched to, the code does what it should. -/
theorem Opens.holds (h : Opens setAddress out out₁ label P') (target : Nat) :
    P' (out₁.modify label (setAddress target)) target out.length out₁.length := by
  obtain ⟨f, k, rfl, rfl, hk, hP⟩ := h
  rw [modify_append_right]
  exact hP _ target (fragmentAt_append_right out _)

/-- **A label is patched while a later one is open.** -/
theorem Opens.opens (h : Opens setAddress out out₁ label P')
    (h' : Opens setAddress out₁ out₂ label' Q') :
    Opens setAddress out (out₂.modify label (setAddress out₂.length)) label'
      fun code target a d => ∃ b, P' code d a b ∧ Q' code target b d := by
  obtain ⟨f, k, rfl, rfl, hk, hP⟩ := h
  obtain ⟨g, j, rfl, rfl, hj, hQ⟩ := h'
  refine ⟨f.modify k (setAddress (out ++ f ++ g).length) ++ g, f.length + j, ?_, ?_, ?_,
    fun code target hc => ?_⟩
  · rw [List.append_assoc out f g, modify_append_right, modify_append_left hk]
  · simp; omega
  · simp; omega
  · rw [← List.length_modify (setAddress (out ++ f ++ g).length) f k, modify_append_right] at hc
    obtain ⟨hf, hg⟩ := hc.append
    rw [List.length_modify, ← List.length_append] at hg
    rw [List.length_modify]
    exact ⟨(out ++ f).length, hP code _ hf, hQ code target hg⟩

end Machine
