import BoaLigero.Bytecompiler.Emission
import BoaLigero.Bytecompiler.Evaluation

/-!
# The Emitted Code Evaluates from Left to Right
-/

namespace BoaLigero

open Machine ByteCompiler

variable {B V W : Type} [DecidableEq B] {ops : Operators V W} {scope : LocalScope B}

/-! ### States in step -/

/-- The registers hold the values of the bindings. -/
structure Reflects (scope : LocalScope B) (s : Store B V W) (f : Frame V W) : Prop where
  locals : ∀ name, f.registers (scope.localRegister name) = s.locals name
  world : f.world = s.world

/-- A register that stores no binding. -/
def IsTemporary (scope : LocalScope B) (r : Register) : Prop :=
  ∀ name, scope.localRegister name ≠ r

/-- The temporaries in use keep their values, except one that is written. -/
def KeepsBut (scope : LocalScope B) (flags : Register → RegisterFlags) (dst : Register)
    (f f' : Frame V W) : Prop :=
  ∀ r, flags r ≠ .free → IsTemporary scope r → r ≠ dst → f'.registers r = f.registers r

/-- The temporaries in use keep their values. -/
def Keeps (scope : LocalScope B) (flags : Register → RegisterFlags) (f f' : Frame V W) : Prop :=
  ∀ r, flags r ≠ .free → IsTemporary scope r → f'.registers r = f.registers r

/-- The registers of the bindings are in use. -/
def LocalsAllocated (scope : LocalScope B) (flags : Register → RegisterFlags) : Prop :=
  ∀ name, flags (scope.localRegister name) ≠ .free

/-- A temporary in use. -/
structure IsTarget (scope : LocalScope B) (flags : Register → RegisterFlags) (dst : Register) :
    Prop where
  used : flags dst ≠ .free
  temporary : IsTemporary scope dst

omit [DecidableEq B] in

/-- A temporary is no register of a binding, so that the frame still reflects the store once it is
written. -/
theorem Reflects.setTemporary {s : Store B V W} {f : Frame V W} {r : Register}
    (h : Reflects scope s f) (hr : IsTemporary scope r) (value : V) :
    Reflects scope s (f.setRegister r value) :=
  ⟨fun name => (Frame.setRegister_of_ne (hr name) value).trans (h.locals name), h.world⟩

/-- Writing a binding's own register is what an assignment does to the store. -/
theorem Reflects.setLocal {s : Store B V W} {f : Frame V W} (h : Reflects scope s f) (name : B)
    (value : V) :
    Reflects scope (s.setLocal name value) (f.setRegister (scope.localRegister name) value) := by
  refine ⟨fun other => ?_, h.world⟩
  by_cases hname : other = name
  · subst hname
    simp [Store.setLocal]
  · rw [Frame.setRegister_of_ne fun heq => hname (scope.localRegister_injective heq), h.locals]
    simp [Store.setLocal, hname]

section Keeps

variable {flags : Register → RegisterFlags} {dst : Register} {f f' f'' : Frame V W}

omit [DecidableEq B]

/-- Code that does nothing keeps every register. -/
theorem Keeps.refl (f : Frame V W) : Keeps scope flags f f := fun _ _ _ => rfl

/-- What two pieces of code keep one after the other is kept by both together. -/
theorem Keeps.trans (h : Keeps scope flags f f') (h' : Keeps scope flags f' f'') :
    Keeps scope flags f f'' :=
  fun r hr ht => (h' r hr ht).trans (h r hr ht)

/-- Code that keeps everything in particular keeps all registers but its target. -/
theorem Keeps.but (h : Keeps scope flags f f') : KeepsBut scope flags dst f f' :=
  fun r hr ht _ => h r hr ht

/-- Two pieces of code with one target keep the other registers together. -/
theorem KeepsBut.trans (h : KeepsBut scope flags dst f f') (h' : KeepsBut scope flags dst f' f'') :
    KeepsBut scope flags dst f f'' :=
  fun r hr ht hne => (h' r hr ht hne).trans (h r hr ht hne)

/-- Writing the target changes no other register. -/
theorem keepsBut_setRegister (f : Frame V W) (value : V) :
    KeepsBut scope flags dst f (f.setRegister dst value) :=
  fun _ _ _ hne => Frame.setRegister_of_ne hne value

/-- Writing the register of a binding is an effect that the store accounts for, and all temporaries
are kept. -/
theorem keeps_setLocal (f : Frame V W) (name : B) (value : V) :
    Keeps scope flags f (f.setRegister (scope.localRegister name) value) :=
  fun _ _ ht => Frame.setRegister_of_ne (ht name).symm value

/-- What only a free register loses, no temporary in use does. -/
theorem KeepsBut.keeps (h : KeepsBut scope flags dst f f') (hfree : flags dst = .free) :
    Keeps scope flags f f' :=
  fun r hr ht => h r hr ht fun heq => hr (heq ▸ hfree)

/-- Fewer registers in use have to be kept than were. -/
theorem KeepsBut.mono {flags' : Register → RegisterFlags} (h : KeepsBut scope flags' dst f f')
    (hle : ∀ r, flags r ≠ .free → flags' r ≠ .free) : KeepsBut scope flags dst f f' :=
  fun r hr ht hne => h r (hle r hr) ht hne

/-- Fewer temporaries in use have to be kept than were, whatever becomes of the bindings. -/
theorem Keeps.mono {flags' : Register → RegisterFlags} (h : Keeps scope flags' f f')
    (hle : ∀ r, flags r ≠ .free → flags' r ≠ .free) : Keeps scope flags f f' :=
  fun r hr ht => h r (hle r hr) ht

/-- A target stays one when more registers are in use. -/
theorem IsTarget.mono {flags' : Register → RegisterFlags} (h : IsTarget scope flags dst)
    (hle : ∀ r, flags r ≠ .free → flags' r ≠ .free) : IsTarget scope flags' dst :=
  ⟨hle dst h.used, h.temporary⟩

/-- The registers of bindings stay in use when more registers are. -/
theorem LocalsAllocated.mono {flags' : Register → RegisterFlags} (h : LocalsAllocated scope flags)
    (hle : ∀ r, flags r ≠ .free → flags' r ≠ .free) : LocalsAllocated scope flags' :=
  fun name => hle _ (h name)

/-- A newly allocated register stores no binding. -/
theorem isTarget_temporary {c : ByteCompiler (Instruction V)} (h : LocalsAllocated scope c.flags) :
    IsTarget scope c.allocated.flags c.temporary :=
  ⟨c.flags_allocated_temporary, fun name => (temporary_ne (h name)).symm⟩

end Keeps

/-! ### What emitted code does -/

/-- The code puts the value of the expression into a register. -/
def EvaluatesTo (ops : Operators V W) (scope : LocalScope B) (e : Expression B V)
    (flags : Register → RegisterFlags) (dst : Register) (code : List (Instruction V))
    (a b : Nat) : Prop :=
  ∀ used s f, Reflects scope s f → Undisturbed ops scope e used s →
    Tracks (Instruction.operation ops) code (Reflects scope) a f ((eval ops scope e).run s)
      fun v _ pc f' =>
        pc = b ∧ (used = true → f'.registers dst = v) ∧ KeepsBut scope flags dst f f'

/-- The emitter's code puts the value of the expression into any temporary in use. -/
def Evaluates (ops : Operators V W) (scope : LocalScope B) (e : Expression B V)
    (emitter : Emitter V) : Prop :=
  ∀ c dst, LocalsAllocated scope c.flags → IsTarget scope c.flags dst →
    Compiles c (emitter dst c) (EvaluatesTo ops scope e c.flags dst)

/-- How an operand is handed out: code is emitted that leaves its value in the register `op`,
then the consumer's code, then a temporary is given back. -/
structure HandsOut (ops : Operators V W) (scope : LocalScope B) (e : Expression B V)
    (operand : OperandEmitter V) (c : ByteCompiler (Instruction V)) (op : Register) (c₁ : ByteCompiler (Instruction V))
    (close : ByteCompiler (Instruction V) → ByteCompiler (Instruction V)) : Prop where
  eq : ∀ inner, operand inner c = close (inner op c₁)
  close_bytecode : ∀ c', (close c').bytecode = c'.bytecode
  close_flags : ∀ c', c'.flags = c₁.flags → (close c').flags = c.flags
  grows : ∀ r, c.flags r ≠ .free → c₁.flags r ≠ .free
  /-- The register of a binding, or a temporary that was not in use. -/
  source : (∃ name, e = .identifier name ∧ op = scope.localRegister name) ∨
    IsTarget scope c₁.flags op
  emits : Emits c.bytecode c₁.bytecode fun code a b =>
    ∀ used s f, Reflects scope s f → Undisturbed ops scope e used s →
      Tracks (Instruction.operation ops) code (Reflects scope) a f ((eval ops scope e).run s)
        fun v _ pc f' => pc = b ∧ (used = true → f'.registers op = v) ∧ Keeps scope c.flags f f'

omit [DecidableEq B] in

/-- An operand that is no identifier gets a temporary, which is given back as soon as it was
consumed. -/
theorem compileExprOperand_of_not_identifier {e : Expression B V}
    (hne : ∀ name, e ≠ .identifier name) (emitter : Emitter V) (inner : Emitter V)
    (c : ByteCompiler (Instruction V)) :
    compileExprOperand scope e emitter inner c
      = (inner c.temporary (emitter c.temporary c.allocated)).dealloc c.temporary := by
  cases e with
  | identifier name => exact absurd rfl (hne name)
  | _ => rfl

/-- **An operand is handed out with its value in a register.** -/
theorem Evaluates.handsOut {e : Expression B V} {emitter : Emitter V}
    (h : Evaluates ops scope e emitter) {c : ByteCompiler (Instruction V)}
    (hc : LocalsAllocated scope c.flags) :
    ∃ op c₁ close,
      HandsOut ops scope e (compileExprOperand scope e emitter) c op c₁ close := by
  by_cases hid : ∃ name, e = .identifier name
  · obtain ⟨name, rfl⟩ := hid
    refine ⟨scope.localRegister name, c, id, fun _ => rfl, fun _ => rfl, fun _ h => h,
      fun _ h => h, .inl ⟨name, rfl, rfl⟩, (Emits.nil _).imp ?_⟩
    rintro code a b rfl used s f hR -
    exact .pure hR ⟨rfl, fun _ => hR.locals name, .refl f⟩
  · have hcomp := h c.allocated c.temporary (hc.mono fun _ => flags_allocated_ne)
      (isTarget_temporary hc)
    refine ⟨c.temporary, emitter c.temporary c.allocated, fun c' => c'.dealloc c.temporary,
      fun inner => compileExprOperand_of_not_identifier (fun name heq => hid ⟨name, heq⟩)
        emitter inner c,
      fun _ => rfl, fun c' h' => flags_dealloc (h'.trans hcomp.flags),
      fun r hr => hcomp.flags ▸ flags_allocated_ne hr,
      .inr (hcomp.flags ▸ isTarget_temporary hc), hcomp.emits.imp fun code a b hev => ?_⟩
    intro used s f hR hund
    refine (hev used s f hR hund).imp fun v s' pc f' _ _ ⟨hpc, hv, hk⟩ => ⟨hpc, hv, ?_⟩
    exact (hk.mono fun _ => flags_allocated_ne).keeps c.flags_temporary

/-- Both operands are in registers when the consumer's code starts. -/
def HandsOutBoth (ops : Operators V W) (scope : LocalScope B) (l r : Expression B V)
    (flags : Register → RegisterFlags) (opl opr : Register) (code : List (Instruction V))
    (a b : Nat) : Prop :=
  ∀ (β : Type) (k : V → V → EStateM V (Store B V W) β) (Q : β → Store B V W → Nat →
      Frame V W → Prop) (s : Store B V W) (f : Frame V W), Reflects scope s f →
    Undisturbed ops scope l true s →
    (Ensures ((eval ops scope l).run s) fun x s => Undisturbed ops scope r true s ∧
      ∀ name, l = .identifier name →
        Ensures ((eval ops scope r).run s) fun _ s => s.locals name = x) →
    (∀ x y s' f', Reflects scope s' f' → f'.registers opl = x → f'.registers opr = y →
      Keeps scope flags f f' →
      Tracks (Instruction.operation ops) code (Reflects scope) b f' ((k x y).run s') Q) →
    Tracks (Instruction.operation ops) code (Reflects scope) a f
      ((eval ops scope l >>= fun x => eval ops scope r >>= fun y => k x y).run s) Q

/-- **Two operands handed out one inside the other**: the left one is still in its register
when the right one has been evaluated, as long as no binding is disturbed. -/
theorem Evaluates.handsOutBoth {l r : Expression B V} {el er : Emitter V}
    (hl : Evaluates ops scope l el) (hr : Evaluates ops scope r er) {c : ByteCompiler (Instruction V)}
    (hc : LocalsAllocated scope c.flags) :
    ∃ (opl opr : Register) (c₂ : ByteCompiler (Instruction V)) (close : ByteCompiler (Instruction V) → ByteCompiler (Instruction V)),
      (∀ inner : Register → Emitter V, compileExprOperand scope l el
        (fun x => compileExprOperand scope r er fun y => inner x y) c = close (inner opl opr c₂)) ∧
      (∀ c', (close c').bytecode = c'.bytecode) ∧
      (∀ c', c'.flags = c₂.flags → (close c').flags = c.flags) ∧
      Emits c.bytecode c₂.bytecode (HandsOutBoth ops scope l r c.flags opl opr) := by
  obtain ⟨opl, c₁, close₁, h₁⟩ := hl.handsOut hc
  obtain ⟨opr, c₂, close₂, h₂⟩ := hr.handsOut (hc.mono h₁.grows)
  refine ⟨opl, opr, c₂, fun c' => close₁ (close₂ c'), fun inner => ?_, fun c' => ?_,
    fun c' hflags => ?_, (h₁.emits.trans h₂.emits).imp ?_⟩
  · rw [h₁.eq, h₂.eq]
  · rw [h₁.close_bytecode, h₂.close_bytecode]
  · exact h₁.close_flags _ (h₂.close_flags _ hflags)
  · rintro code a d ⟨b, hfst, hsnd⟩ β k Q s f hR hundl hundr hk
    refine (hfst true s f hR hundl).bind fun x s₁ pc f₁ hx hR₁ ⟨hpc, hopl, hk₁⟩ => ?_
    subst hpc
    obtain ⟨hund₁, hname⟩ := hundr x s₁ hx
    refine (hsnd true s₁ f₁ hR₁ hund₁).bind fun y s₂ pc f₂ hy hR₂ ⟨hpc, hopr, hk₂⟩ => ?_
    subst hpc
    refine hk x y s₂ f₂ hR₂ ?_ (hopr rfl) (hk₁.trans (hk₂.mono h₁.grows))
    -- The left operand survives in a temporary, or as the value of an undisturbed binding.
    rcases h₁.source with ⟨name, rfl, rfl⟩ | htarget
    · rw [hR₂.locals, hname name rfl y s₂ hy]
    · rw [hk₂ opl htarget.used htarget.temporary, hopl rfl]

/-! ### Single instructions -/

section Instructions

variable {code : List (Instruction V)} {pc : Nat} {s : Store B V W} {f : Frame V W}

omit [DecidableEq B] in
/-- An instruction that runs an operator and stores what it makes of the result. -/
theorem tracks_operator {α : Type} {m : EStateM V W α} {g : α → V} {i : Instruction V}
    {dst : Register} (fetch : code[pc]? = some i)
    (heq : (i.operation ops (pc + 1)).run f
      = (Frame.onWorld m >>= fun a => Instruction.finish dst (g a) (pc + 1)).run f)
    (hR : Reflects scope s f) (hdst : IsTemporary scope dst) :
    Tracks (Instruction.operation ops) code (Reflects scope) pc f ((Store.onWorld m).run s)
      fun a _ pc' f' => pc' = pc + 1 ∧ f'.registers = (f.setRegister dst (g a)).registers := by
  rw [EStateM.run_bind] at heq
  simp only [Frame.onWorld, EStateM.run, hR.world] at heq
  simp only [Store.onWorld, EStateM.run]
  cases hm : m s.world with
  | ok a w =>
      simp only [hm] at heq
      have hR' : Reflects scope { s with world := w } { f with world := w } := ⟨hR.locals, rfl⟩
      exact ⟨pc + 1, _, .step fetch heq .here, hR'.setTemporary hdst (g a), rfl, rfl⟩
  | error e w =>
      simp only [hm] at heq
      exact ⟨_, .fail fetch heq, hR.locals, rfl⟩

end Instructions

/-! ### Binary operators -/

section Binary

variable {l r : Expression B V} {el er : Emitter V}

/-- **An operator applied to two operands**, `i` being its instruction, `m` what it does and
`g` the value it makes of that. -/
theorem evaluates_operator {e : Expression B V} {α : Type} {m : V → V → EStateM V W α}
    {g : α → V} {i : Register → Register → Register → Instruction V}
    (hl : Evaluates ops scope l el) (hr : Evaluates ops scope r er)
    (hi : ∀ dst x y next (f : Frame V W), ((i dst x y).operation ops next).run f
      = (Frame.onWorld (m (f.registers x) (f.registers y)) >>= fun a =>
          Instruction.finish dst (g a) next).run f)
    (heval : eval ops scope e = eval ops scope l >>= fun x => eval ops scope r >>= fun y =>
      Store.onWorld (m x y) >>= fun a => pure (g a))
    (hund : ∀ used s, Undisturbed ops scope e used s → Undisturbed ops scope l true s ∧
      Ensures ((eval ops scope l).run s) fun x s => Undisturbed ops scope r true s ∧
        ∀ name, l = .identifier name →
          Ensures ((eval ops scope r).run s) fun _ s => s.locals name = x) :
    Evaluates ops scope e fun dst c => compileExprOperand scope l el
      (fun x => compileExprOperand scope r er fun y c => c.emit (i dst x y)) c := by
  intro c dst hc hdst
  obtain ⟨opl, opr, c₂, close, heq, hbytecode, hflags, hemits⟩ := hl.handsOutBoth hr hc
  have hcode := heq fun x y c => c.emit (i dst x y)
  simp only [hcode]
  refine ⟨?_, hflags _ rfl⟩
  rw [hbytecode]
  refine (hemits.trans (Emits.singleton _ _)).imp ?_
  rintro code a d ⟨b, hboth, fetch, rfl⟩ used s f hR hundisturbed
  obtain ⟨hundl, hundr⟩ := hund used s hundisturbed
  rw [heval]
  refine hboth V _ _ s f hR hundl hundr fun x y s' f' hR' hx hy hk => ?_
  have hi' := hi dst opl opr (b + 1) f'
  rw [hx, hy] at hi'
  refine (tracks_operator fetch hi' hR' hdst.temporary).bind
    fun v s'' pc f'' _ hR'' ⟨hpc, hregs⟩ => ?_
  refine .pure hR'' ⟨hpc, fun _ => ?_, fun q hq ht hne => ?_⟩
  · rw [hregs, Frame.setRegister_self]
  · rw [hregs, Frame.setRegister_of_ne hne, hk q hq ht]

/-- An arithmetic operation is evaluated as its operands are, from left to right, if none is
disturbed. -/
theorem evaluates_arithmetic (op : ArithmeticOp) (hl : Evaluates ops scope l el)
    (hr : Evaluates ops scope r er) :
    Evaluates ops scope (.binary (.arithmetic op) l r)
      (compileBinary (.arithmetic op) (compileExprOperand scope l el)
        (compileExprOperand scope r er) el er) := by
  refine evaluates_operator (i := .arithmetic op) (m := ops.arithmetic op) (g := id) hl hr
    (fun _ _ _ _ _ => rfl) ?_ fun _ _ h => h
  simp only [eval, evalBinary, id, bind_pure]

/-- A bitwise operation is evaluated as its operands are, from left to right, if none is disturbed.
-/
theorem evaluates_bitwise (op : BitwiseOp) (hl : Evaluates ops scope l el)
    (hr : Evaluates ops scope r er) :
    Evaluates ops scope (.binary (.bitwise op) l r)
      (compileBinary (.bitwise op) (compileExprOperand scope l el)
        (compileExprOperand scope r er) el er) := by
  refine evaluates_operator (i := .bitwise op) (m := ops.bitwise op) (g := id) hl hr
    (fun _ _ _ _ _ => rfl) ?_ fun _ _ h => h
  simp only [eval, evalBinary, id, bind_pure]

/-- A comparison is evaluated as its operands are, from left to right, if none is disturbed. -/
theorem evaluates_relational (op : RelationalOp) (hl : Evaluates ops scope l el)
    (hr : Evaluates ops scope r er) :
    Evaluates ops scope (.binary (.relational op) l r)
      (compileBinary (.relational op) (compileExprOperand scope l el)
        (compileExprOperand scope r er) el er) :=
  evaluates_operator (i := .relational op) (m := ops.relational op) (g := ops.ofBool) hl hr
    (fun _ _ _ _ _ => rfl) rfl fun _ _ h => h

/-- A logical operator leaves the left value in the target, or overwrites it. -/
theorem evaluates_logical (op : LogicalOp) {ol or' : OperandEmitter V}
    (hl : Evaluates ops scope l el) (hr : Evaluates ops scope r er) :
    Evaluates ops scope (.binary (.logical op) l r) (compileBinary (.logical op) ol or' el er) := by
  intro c dst hc hdst
  have h₁ := hl c dst hc hdst
  have hopen := compilesOpen_emitLabel (el dst c) (.logical op dummyAddress dst)
  have h₂ := hr ((el dst c).emit (.logical op dummyAddress dst)) dst (h₁.flags ▸ hc)
    (h₁.flags ▸ hdst)
  refine ((h₁.opens hopen).append h₂).patch.imp ?_
  rintro code a d ⟨b', ⟨b, hev₁, fetch, rfl⟩, hev₂⟩ used s f hR ⟨hund₁, hund₂⟩
  refine (hev₁ true s f hR hund₁).bind fun x s₁ pc f₁ hx hR₁ ⟨hpc, hval, hk₁⟩ => ?_
  subst hpc
  refine .step fetch (Instruction.run_logical ops f₁ _ op d dst) ?_
  rw [hval rfl]
  by_cases hshort : ops.shortCircuits op x = true
  · simp only [if_pos hshort]
    exact .pure hR₁ ⟨rfl, fun _ => hval rfl, hk₁⟩
  · simp only [if_neg hshort]
    refine (hev₂ used s₁ f₁ hR₁ (hund₂ x s₁ hx hshort)).imp
      fun y s₂ pc f₂ _ _ ⟨hpc, hval₂, hk₂⟩ => ⟨hpc, hval₂, hk₁.trans ?_⟩
    exact hk₂.mono fun q hq => h₁.flags.symm ▸ hq

/-- The left operand of a comma is evaluated for its effects. -/
theorem evaluates_comma {or' : OperandEmitter V} (hl : Evaluates ops scope l el)
    (hr : Evaluates ops scope r er) :
    Evaluates ops scope (.binary .comma l r)
      (compileBinary .comma (compileExprOperand scope l el) or' el er) := by
  intro c dst hc hdst
  obtain ⟨op, c₁, close, h₁⟩ := hl.handsOut hc
  have hflags : (close c₁).flags = c.flags := h₁.close_flags c₁ rfl
  have h₂ := hr (close c₁) dst (hflags ▸ hc) (hflags ▸ hdst)
  show Compiles c (er dst (compileExprOperand scope l el (fun _ c => c) c)) _
  rw [h₁.eq]
  have hemits := h₁.emits
  rw [← h₁.close_bytecode c₁] at hemits
  refine (Compiles.trans ⟨hemits, hflags⟩ h₂).imp ?_
  rintro code a d ⟨b, hev₁, hev₂⟩ used s f hR ⟨hund₁, hund₂⟩
  refine (hev₁ false s f hR hund₁).bind fun x s₁ pc f₁ hx hR₁ ⟨hpc, _, hk₁⟩ => ?_
  subst hpc
  refine (hev₂ used s₁ f₁ hR₁ (hund₂ x s₁ hx)).imp
    fun y s₂ pc f₂ _ _ ⟨hpc, hval, hk₂⟩ => ⟨hpc, hval, hk₁.but.trans ?_⟩
  exact hk₂.mono fun q hq => hflags.symm ▸ hq

end Binary

/-! ### Reading and writing a binding -/

section Bindings

variable {c : ByteCompiler (Instruction V)} {name : B}

/-- The code assigns a temporary to the binding. -/
def PutsValue (ops : Operators V W) (scope : LocalScope B) (name : B) (value : Register)
    (code : List (Instruction V)) (a b : Nat) : Prop :=
  ∀ (s : Store B V W) f, Reflects scope s f →
    Tracks (Instruction.operation ops) code (Reflects scope) a f
      ((putValue ops scope name (f.registers value)).run s)
      fun _ _ pc f' => pc = b ∧ ∀ flags, Keeps scope flags f f'

/-- **A store to a binding** writes its register, throws, or emits nothing. -/
theorem compiles_putValue (ops : Operators V W) (scope : LocalScope B) (name : B)
    (value : Register) (c : ByteCompiler (Instruction V)) :
    Compiles c (emitPutValue scope name value c) (PutsValue ops scope name value) := by
  have hset : Compiles c (emitSetName scope name value c) fun code a b => ∀ (s : Store B V W) f,
      Reflects scope s f → Tracks (Instruction.operation ops) code (Reflects scope) a f
        (.ok () (s.setLocal name (f.registers value)))
        fun _ _ pc f' => pc = b ∧ ∀ flags, Keeps scope flags f f' := by
    refine (compiles_emit c _).imp ?_
    rintro code a b ⟨fetch, rfl⟩ s f hR
    exact .step fetch (Instruction.run_move ops f _ _ _)
      (.pure (hR.setLocal name _) ⟨rfl, fun _ => keeps_setLocal f name _⟩)
  cases hflags : scope.flags name with
  | var =>
      simp only [emitPutValue, hflags, BindingFlags.isLexical]
      refine hset.imp fun code a b h s f hR => ?_
      simpa only [putValue, EStateM.run, hflags] using h s f hR
  | lexical =>
      simp only [emitPutValue, hflags, BindingFlags.isLexical, BindingFlags.setMutableBinding]
      refine hset.imp fun code a b h s f hR => ?_
      simpa only [putValue, EStateM.run, hflags] using h s f hR
  | immutable strict =>
      cases strict with
      | true =>
          simp only [emitPutValue, hflags, BindingFlags.isLexical, BindingFlags.setMutableBinding]
          refine (compiles_emit c .throwMutateImmutable).imp ?_
          rintro code a b ⟨fetch, rfl⟩ s f hR
          simp only [putValue, EStateM.run, hflags]
          exact ⟨f, .fail fetch (Instruction.run_throwMutateImmutable ops f _), hR⟩
      | false =>
          simp only [emitPutValue, hflags, BindingFlags.isLexical, BindingFlags.setMutableBinding]
          refine (compiles_nil c).imp ?_
          rintro code a b rfl s f hR
          simp only [putValue, EStateM.run, hflags]
          exact .pure hR ⟨rfl, fun _ => .refl f⟩

omit [DecidableEq B] in
/-- Reading a binding moves its value into a temporary. -/
theorem compiles_getName (ops : Operators V W) (scope : LocalScope B) (name : B)
    (dst : Register) (c : ByteCompiler (Instruction V)) :
    Compiles c (emitGetName scope name dst c) fun code a b => ∀ (s : Store B V W) f,
      Reflects scope s f → Delivers (Instruction.operation ops) code a f
        (.ok b (f.setRegister dst (s.locals name))) := by
  refine (compiles_emit c _).imp ?_
  rintro code a b ⟨fetch, rfl⟩ s f hR
  rw [← hR.locals name]
  exact .step fetch (Instruction.run_move ops f _ _ _) .here

end Bindings

/-! ### Assignments -/

section Assign

variable {name : B} {rhs : Expression B V} {emitter : Emitter V}

/-- A plain assignment evaluates its right side into the target and writes the binding from there.
-/
theorem evaluates_assign_assign (hrhs : Evaluates ops scope rhs emitter) :
    Evaluates ops scope (.assign .assign name rhs)
      (compileAssign scope .assign name emitter) := by
  intro c dst hc hdst
  have h₀ : Compiles c (withRegister (fun _ c => c) c) fun _ a b => a = b :=
    compiles_withRegister (compiles_nil _)
  have h₁ := hrhs _ dst (h₀.flags ▸ hc) (h₀.flags ▸ hdst)
  refine ((h₀.trans h₁).trans (compiles_putValue ops scope name dst _)).imp ?_
  rintro code a d ⟨b, ⟨_, rfl, hev⟩, hput⟩ used s f hR hund
  refine (hev true s f hR (hund nofun)).bind fun v s₁ pc f₁ _ hR₁ ⟨hpc, hval, hk₁⟩ => ?_
  subst hpc
  have hput' := hput s₁ f₁ hR₁
  rw [hval rfl] at hput'
  refine hput'.bind fun _ s₂ pc f₂ _ hR₂ ⟨hpc, hk₂⟩ => .pure hR₂ ⟨hpc, fun _ => ?_, ?_⟩
  · rw [hk₂ c.flags dst hdst.used hdst.temporary, hval rfl]
  · exact (h₀.flags ▸ hk₁).trans (hk₂ c.flags).but

/-- The operator of a compound assignment is what its instruction runs. -/
theorem AssignOp.instruction_of_apply {op : AssignOp} {m : V → V → EStateM V W V}
    (h : op.apply ops = some m) : ∃ i : Register → Register → Register → Instruction V,
      (∀ dst x y, op.instruction dst x y = some (i dst x y)) ∧
      ∀ dst x y next (f : Frame V W), ((i dst x y).operation ops next).run f
        = (Frame.onWorld (m (f.registers x) (f.registers y)) >>= fun a =>
            Instruction.finish dst a next).run f := by
  cases op <;> cases h <;> exact ⟨_, fun _ _ _ => rfl, fun _ _ _ _ _ => rfl⟩

/-- A compound assignment keeps the old value in the target while the right-hand side is
evaluated. -/
theorem evaluates_assign_compound {op : AssignOp} {m : V → V → EStateM V W V}
    (hop : op.apply ops = some m) (hlogical : op.logical = none)
    (hrhs : Evaluates ops scope rhs emitter) :
    Evaluates ops scope (.assign op name rhs) (compileAssign scope op name emitter) := by
  intro c dst hc hdst
  have hassign : op ≠ .assign := by
    rintro rfl
    cases hop
  obtain ⟨i, hi, hrun⟩ := AssignOp.instruction_of_apply hop
  have h₁ := compiles_getName ops scope name dst c
  have htemp : IsTarget scope (emitGetName scope name dst c).allocated.flags
      (emitGetName scope name dst c).temporary := isTarget_temporary hc
  have h₂ := hrhs (emitGetName scope name dst c).allocated _
    (hc.mono fun _ => flags_allocated_ne) htemp
  have h₃ : Compiles (emitGetName scope name dst c) (withRegister (fun reg c =>
      (emitter reg c).emit (i dst dst reg)) (emitGetName scope name dst c)) _ :=
    compiles_withRegister (h₂.trans (compiles_emit _ _))
  have h₄ := compiles_putValue ops scope name dst
    (withRegister (fun reg c => (emitter reg c).emit (i dst dst reg)) (emitGetName scope name dst c))
  simp only [compileAssign, hlogical, if_neg hassign, hi]
  refine ((h₁.trans h₃).trans h₄).imp ?_
  rintro code a e ⟨d, ⟨b, hget, b', hev, fetch, rfl⟩, hput⟩ used s f hR hund
  have heval : eval ops scope (.assign op name rhs) = getValue name >>= fun old =>
      eval ops scope rhs >>= fun value => Store.onWorld (m old value) >>= fun value =>
        putValue ops scope name value >>= fun _ => pure value := by
    rw [eval, evalAssign, hlogical, hop]
  rw [heval]
  refine .after (hget s f hR) ?_
  have hR₁ := hR.setTemporary hdst.temporary (s.locals name)
  refine (hev true s _ hR₁ (hund fun _ h => by rw [hlogical] at h; cases h)).bind
    fun v s₂ pc f₂ _ hR₂ ⟨hpc, hval, hk⟩ => ?_
  subst hpc
  have hold : f₂.registers dst = s.locals name := by
    rw [hk dst (flags_allocated_ne hdst.used) hdst.temporary (temporary_ne hdst.used).symm,
      Frame.setRegister_self]
  have hrun' := hrun dst dst (emitGetName scope name dst c).temporary (pc + 1) f₂
  rw [hold, hval rfl] at hrun'
  refine (tracks_operator fetch hrun' hR₂ hdst.temporary).bind
    fun v s₃ pc f₃ _ hR₃ ⟨hpc, hregs⟩ => ?_
  subst hpc
  have hput' := hput s₃ f₃ hR₃
  rw [hregs, Frame.setRegister_self] at hput'
  refine hput'.bind fun _ s₄ pc f₄ _ hR₄ ⟨hpc, hk₄⟩ =>
    .pure hR₄ ⟨hpc, fun _ => ?_, fun r hr ht hne => ?_⟩
  · rw [hk₄ c.flags dst hdst.used hdst.temporary, hregs, Frame.setRegister_self]
  · rw [hk₄ c.flags r hr ht, hregs, Frame.setRegister_of_ne hne,
      hk r (flags_allocated_ne hr) ht (temporary_ne hr).symm, Frame.setRegister_of_ne hne]

/-- A logical assignment that short-circuits jumps over the store. -/
theorem evaluates_assign_logical {op : AssignOp} {logical : LogicalOp}
    (hlogical : op.logical = some logical) (hrhs : Evaluates ops scope rhs emitter) :
    Evaluates ops scope (.assign op name rhs) (compileAssign scope op name emitter) := by
  intro c dst hc hdst
  have h₁ := compiles_getName ops scope name dst c
  have h₂ := compilesOpen_emitLabel (emitGetName scope name dst c)
    (.logical logical dummyAddress dst)
  have h₃ := hrhs ((emitGetName scope name dst c).emit (.logical logical dummyAddress dst)) dst
    hc hdst
  have h₄ := compiles_putValue ops scope name dst
    (emitter dst ((emitGetName scope name dst c).emit (.logical logical dummyAddress dst)))
  have h₅ := compilesOpen_emitLabel (emitPutValue scope name dst
    (emitter dst ((emitGetName scope name dst c).emit (.logical logical dummyAddress dst))))
    (.jump dummyAddress)
  simp only [compileAssign, hlogical]
  refine ((((h₁.opens h₂).append h₃).append h₄).opens_patch h₅).patch.imp ?_
  rintro code a e ⟨d, ⟨d', ⟨b', ⟨b, hget, fetch, rfl⟩, hev⟩, hput⟩, fetch', rfl⟩ used s f hR hund
  have heval : eval ops scope (.assign op name rhs) = getValue name >>= fun old =>
      if ops.shortCircuits logical old then pure old else
        eval ops scope rhs >>= fun value => putValue ops scope name value >>= fun _ =>
          pure value := by
    rw [eval, evalAssign, hlogical]
  rw [heval]
  refine .after (hget s f hR) ?_
  have hR₁ := hR.setTemporary hdst.temporary (s.locals name)
  refine .step fetch (Instruction.run_logical ops _ _ logical _ dst) ?_
  rw [Frame.setRegister_self]
  show Tracks _ _ _ _ _ ((if ops.shortCircuits logical (s.locals name) = true then _
    else _ : EStateM V (Store B V W) V).run s) _
  by_cases hshort : ops.shortCircuits logical (s.locals name) = true
  · simp only [if_pos hshort]
    exact .pure hR₁ ⟨rfl, fun _ => Frame.setRegister_self .., keepsBut_setRegister f _⟩
  · simp only [if_neg hshort]
    refine (hev true s _ hR₁ (hund fun op' h => ?_)).bind
      fun v s₂ pc f₂ _ hR₂ ⟨hpc, hval, hk⟩ => ?_
    · rw [hlogical] at h
      exact Option.some.inj h ▸ hshort
    · subst hpc
      have hput' := hput s₂ f₂ hR₂
      rw [hval rfl] at hput'
      refine hput'.bind fun _ s₃ pc f₃ _ hR₃ ⟨hpc, hk₃⟩ => ?_
      subst hpc
      refine .step fetch' (Instruction.run_jump ops f₃ _ _) (.pure hR₃ ⟨rfl, fun _ => ?_, ?_⟩)
      · rw [hk₃ c.flags dst hdst.used hdst.temporary, hval rfl]
      · exact (keepsBut_setRegister f _).trans (KeepsBut.trans hk (hk₃ c.flags).but)

/-- Every assignment is evaluated in order: plain, with an operator, or with a logical one that may
skip it. -/
theorem evaluates_assign (op : AssignOp) (hrhs : Evaluates ops scope rhs emitter) :
    Evaluates ops scope (.assign op name rhs) (compileAssign scope op name emitter) := by
  cases hlogical : op.logical with
  | some logical => exact evaluates_assign_logical hlogical hrhs
  | none =>
      cases hop : op.apply ops with
      | some m => exact evaluates_assign_compound hop hlogical hrhs
      | none =>
          obtain rfl : op = .assign := by
            cases op <;> simp [AssignOp.logical, AssignOp.apply] at hlogical hop ⊢
          exact evaluates_assign_assign hrhs

end Assign

/-! ### Updates -/

section Update

variable {name : B}

/-- The one instruction of an update. -/
theorem compiles_update (ops : Operators V W) (op : UpdateOp) (dst src : Register)
    (c : ByteCompiler (Instruction V)) :
    Compiles c (emitUpdate op dst src c) fun code a b => b = a + 1 ∧ ∃ i, code[a]? = some i ∧
      ∀ next, i.operation ops next = Instruction.update ops op dst src next := by
  cases op <;> refine (compiles_emit c _).imp ?_ <;> rintro code a b ⟨fetch, rfl⟩ <;>
    exact ⟨rfl, _, fetch, fun _ => rfl⟩

omit [DecidableEq B] in
/-- An update of a temporary leaves the converted value in it, and the new value in the
target. -/
theorem tracks_update {code : List (Instruction V)} {pc : Nat} {s : Store B V W} {f : Frame V W}
    {i : Instruction V} {op : UpdateOp} {dst src : Register} (fetch : code[pc]? = some i)
    (hi : ∀ next, i.operation ops next = Instruction.update ops op dst src next)
    (hR : Reflects scope s f) (hdst : IsTemporary scope dst) (hsrc : IsTemporary scope src) :
    Tracks (Instruction.operation ops) code (Reflects scope) pc f
      ((Store.onWorld (ops.toNumeric (f.registers src))).run s)
      fun numeric _ pc' f' => pc' = pc + 1 ∧ f'.registers
        = ((f.setRegister src numeric).setRegister dst (ops.updated op numeric)).registers := by
  have hrun : (i.operation ops (pc + 1)).run f
      = (Instruction.update ops op dst src (pc + 1)).run f := by rw [hi]
  simp only [Instruction.update, Frame.onWorld, EStateM.run, Frame.setRegister_world,
    hR.world] at hrun
  simp only [Store.onWorld, EStateM.run]
  cases hm : ops.toNumeric (f.registers src) s.world with
  | ok numeric w =>
      simp only [hm] at hrun
      have hR' : Reflects scope { s with world := w } { f with world := w } := ⟨hR.locals, rfl⟩
      refine ⟨pc + 1, _, .step fetch hrun .here, ((hR'.setTemporary hsrc ops.undefined).setTemporary
        hsrc numeric).setTemporary hdst (ops.updated op numeric), rfl, ?_⟩
      simp only [Frame.setRegister, Function.update_idem]
  | error e w =>
      simp only [hm] at hrun
      exact ⟨_, .fail fetch hrun, (hR.setTemporary hsrc ops.undefined).locals, rfl⟩

omit [DecidableEq B] in
/-- An update in the register of a binding whose value converts: the binding ends up with
whatever is stored to it last. -/
theorem update_local {op : UpdateOp} {dst : Register} {s : Store B V W} {f : Frame V W}
    {numeric : V} {w : W} (hR : Reflects scope s f)
    (hconv : (ops.toNumeric (s.locals name)).run s.world = .ok numeric w) (next : Nat) :
    (Instruction.update ops op dst (scope.localRegister name) next).run f = .ok next
      (({ f with world := w }.setRegister (scope.localRegister name) numeric).setRegister dst
        (ops.updated op numeric)) := by
  rw [EStateM.run] at hconv
  simp only [Instruction.update, Frame.onWorld, EStateM.run, Frame.setRegister_world, hR.world,
    hR.locals, hconv]
  simp only [Frame.setRegister, Function.update_idem]

/-- What an update of a lexical binding whose value converts evaluates to. -/
theorem eval_update_lexical {op : UpdateOp} {s : Store B V W} {numeric : V} {w : W}
    (hlex : scope.flags name = .lexical)
    (hconv : (ops.toNumeric (s.locals name)).run s.world = .ok numeric w) :
    (eval ops scope (.update op name)).run s
      = .ok (if op.isPost then numeric else ops.updated op numeric)
          ({ s with world := w }.setLocal name (ops.updated op numeric)) := by
  rw [EStateM.run] at hconv
  simp only [eval, evalUpdate, EStateM.run_bind]
  simp only [getValue, Store.onWorld, EStateM.run, hconv, putValue, hlex]
  rfl

/-- A lexical binding is updated in its register. -/
theorem evaluates_update_lexical (op : UpdateOp) (hlex : scope.flags name = .lexical) :
    Evaluates ops scope (.update op name) (compileUpdate scope op name) := by
  intro c dst hc hdst
  have hne : dst ≠ scope.localRegister name := (hdst.temporary name).symm
  cases hpost : op.isPost with
  | true =>
      have h₁ := compiles_getName ops scope name dst c
      have h₂ := compiles_update ops op (scope.localRegister name) (scope.localRegister name)
        (emitGetName scope name dst c)
      simp only [compileUpdate, hlex, BindingFlags.isLexical, BindingFlags.setMutableBinding,
        Except.isOk, Except.toBool, Bool.and_self, if_true, hpost]
      refine (h₁.trans h₂).imp ?_
      rintro code a d ⟨b, hget, rfl, i, fetch, hi⟩ used s f hR hund
      obtain ⟨numeric, w, hconv, hold⟩ := hund hlex
      rw [eval_update_lexical hlex hconv, hpost]
      have hR₁ := hR.setTemporary hdst.temporary (s.locals name)
      refine .after (hget s f hR) (.step fetch ((congrArg (EStateM.run · _) (hi _)).trans
        (update_local hR₁ hconv _)) ?_)
      refine .pure ?_ ⟨rfl, fun hused => ?_, fun r hr ht hr' => ?_⟩
      · have hR₂ : Reflects scope { s with world := w } { f.setRegister dst (s.locals name) with
            world := w } := ⟨hR₁.locals, rfl⟩
        have hR₃ := (hR₂.setLocal name numeric).setLocal name (ops.updated op numeric)
        simpa only [Store.setLocal, Function.update_idem] using hR₃
      · rw [Frame.setRegister_of_ne hne, Frame.setRegister_of_ne hne, if_pos rfl,
          hold hused hpost]
        exact Frame.setRegister_self ..
      · rw [Frame.setRegister_of_ne (ht name).symm, Frame.setRegister_of_ne (ht name).symm]
        exact Frame.setRegister_of_ne hr' _
  | false =>
      have h₁ := compiles_update ops op dst (scope.localRegister name) c
      have h₂ := compiles_emit (emitUpdate op dst (scope.localRegister name) c)
        (.move (scope.localRegister name) dst)
      simp only [compileUpdate, hlex, BindingFlags.isLexical, BindingFlags.setMutableBinding,
        Except.isOk, Except.toBool, Bool.and_self, if_true, hpost]
      refine (h₁.trans h₂).imp ?_
      rintro code a d ⟨b, ⟨rfl, i, fetch, hi⟩, fetch', rfl⟩ used s f hR hund
      obtain ⟨numeric, w, hconv, -⟩ := hund hlex
      rw [eval_update_lexical hlex hconv, hpost]
      refine .step fetch ((congrArg (EStateM.run · _) (hi _)).trans (update_local hR hconv _))
        (.step fetch' (Instruction.run_move ops _ _ _ _) ?_)
      rw [Frame.setRegister_self]
      refine .pure ?_ ⟨rfl, fun _ => ?_, fun r hr ht hr' => ?_⟩
      · have hR₂ : Reflects scope { s with world := w } { f with world := w } := ⟨hR.locals, rfl⟩
        have hR₃ := ((hR₂.setLocal name numeric).setTemporary hdst.temporary
          (ops.updated op numeric)).setLocal name (ops.updated op numeric)
        simpa only [Store.setLocal, Function.update_idem] using hR₃
      · rw [Frame.setRegister_of_ne hne]
        exact Frame.setRegister_self ..
      · rw [Frame.setRegister_of_ne (ht name).symm, Frame.setRegister_of_ne hr',
          Frame.setRegister_of_ne (ht name).symm]

omit [DecidableEq B] in
/-- The new value is moved to the target for a prefix operator only. -/
theorem compiles_result (ops : Operators V W) (op : UpdateOp) (dst value : Register)
    (c : ByteCompiler (Instruction V)) :
    Compiles c (if op.isPost then c else c.emit (.move dst value)) fun code a b =>
      ∀ f : Frame V W, Delivers (Instruction.operation ops) code a f
        (.ok b (if op.isPost then f else f.setRegister dst (f.registers value))) := by
  cases op.isPost with
  | true =>
      refine (compiles_nil _).imp ?_
      rintro code a b rfl f
      exact .here
  | false =>
      refine (compiles_emit _ _).imp ?_
      rintro code a b ⟨fetch, rfl⟩ f
      exact .step fetch (Instruction.run_move ops f _ _ _) .here

/-- Any other binding is read into the target, updated in a temporary and assigned to. -/
theorem evaluates_update_other (op : UpdateOp) (hlex : scope.flags name ≠ .lexical) :
    Evaluates ops scope (.update op name) (compileUpdate scope op name) := by
  intro c dst hc hdst
  have hslow : ((scope.flags name).isLexical && (scope.flags name).setMutableBinding.isOk)
      = false := by
    cases h : scope.flags name with
    | lexical => exact absurd h hlex
    | var => rfl
    | immutable strict => cases strict <;> rfl
  have h₁ := compiles_getName ops scope name dst c
  have htemp : IsTarget scope (emitGetName scope name dst c).allocated.flags
      (emitGetName scope name dst c).temporary := isTarget_temporary hc
  have h₂ := compiles_update ops op (emitGetName scope name dst c).temporary dst
    (emitGetName scope name dst c).allocated
  have h₃ := compiles_putValue ops scope name (emitGetName scope name dst c).temporary
    (emitUpdate op (emitGetName scope name dst c).temporary dst
      (emitGetName scope name dst c).allocated)
  have h₄ := compiles_result ops op dst (emitGetName scope name dst c).temporary
    (emitPutValue scope name (emitGetName scope name dst c).temporary (emitUpdate op
      (emitGetName scope name dst c).temporary dst (emitGetName scope name dst c).allocated))
  have h₅ : Compiles (emitGetName scope name dst c) (withRegister (fun value c =>
      if op.isPost then emitPutValue scope name value (emitUpdate op value dst c)
      else (emitPutValue scope name value (emitUpdate op value dst c)).emit (.move dst value))
      (emitGetName scope name dst c)) _ := compiles_withRegister ((h₂.trans h₃).trans h₄)
  have hfresh : ∀ r, c.flags r ≠ .free → r ≠ (emitGetName scope name dst c).temporary :=
    fun r hr => (temporary_ne hr).symm
  simp only [compileUpdate, hslow, Bool.false_eq_true, if_false]
  refine (h₁.trans h₅).imp ?_
  rintro code a e ⟨b, hget, d, ⟨_, ⟨rfl, i, fetch, hi⟩, hput⟩, hmove⟩ used s f hR -
  generalize (emitGetName scope name dst c).temporary = value at *
  generalize (emitGetName scope name dst c).allocated.flags = flags at *
  refine .after (hget s f hR) ?_
  have hR₁ := hR.setTemporary hdst.temporary (s.locals name)
  have hupd := tracks_update fetch hi hR₁ htemp.temporary hdst.temporary
  rw [Frame.setRegister_self] at hupd
  refine hupd.bind fun numeric s₂ pc f₂ _ hR₂ ⟨hpc, hregs⟩ => ?_
  subst hpc
  have hput' := hput s₂ f₂ hR₂
  rw [hregs, Frame.setRegister_self] at hput'
  refine hput'.bind fun _ s₃ pc f₃ _ hR₃ ⟨hpc, hk₃⟩ => ?_
  subst hpc
  have hvalue : f₃.registers value = ops.updated op numeric := by
    rw [hk₃ flags value htemp.used htemp.temporary, hregs, Frame.setRegister_self]
  have hnumeric : f₃.registers dst = numeric := by
    rw [hk₃ c.flags dst hdst.used hdst.temporary, hregs,
      Frame.setRegister_of_ne (hfresh dst hdst.used), Frame.setRegister_self]
  have hkeeps : KeepsBut scope c.flags dst f f₃ := by
    intro r hr ht hr'
    rw [hk₃ c.flags r hr ht, hregs, Frame.setRegister_of_ne (hfresh r hr),
      Frame.setRegister_of_ne hr', Frame.setRegister_of_ne hr']
  refine .after (hmove f₃) ?_
  cases op.isPost with
  | true => exact .pure hR₃ ⟨rfl, fun _ => hnumeric, hkeeps⟩
  | false =>
      refine .pure (hR₃.setTemporary hdst.temporary _) ⟨rfl, fun _ => ?_,
        hkeeps.trans (keepsBut_setRegister f₃ _)⟩
      exact (Frame.setRegister_self ..).trans hvalue

/-- **An update** leaves its value in the target. -/
theorem evaluates_update (op : UpdateOp) :
    Evaluates ops scope (.update op name) (compileUpdate scope op name) := by
  by_cases hlex : scope.flags name = .lexical
  · exact evaluates_update_lexical op hlex
  · exact evaluates_update_other op hlex

end Update

/-! ### Conditions -/

section Conditions

/-- The code evaluates the condition and goes on behind itself when it is true, at the target
of its label when it is false. -/
def BranchesOn (ops : Operators V W) (scope : LocalScope B) (e : Expression B V)
    (flags : Register → RegisterFlags) (code : List (Instruction V)) (target a b : Nat) : Prop :=
  ∀ s f, Reflects scope s f → Undisturbed ops scope e true s →
    Tracks (Instruction.operation ops) code (Reflects scope) a f ((eval ops scope e).run s)
      fun v _ pc f' => pc = (if ops.toBoolean v then b else target) ∧ Keeps scope flags f f'

variable (ops) in
omit [DecidableEq B] in
/-- A comparison fused with its branch. -/
theorem tracks_jumpIfNot {code : List (Instruction V)} {pc target : Nat} {s : Store B V W}
    {f : Frame V W} {op : RelationalOp} {x y : Register}
    (fetch : code[pc]? = some (.jumpIfNot op target x y)) (hR : Reflects scope s f) :
    Tracks (Instruction.operation ops) code (Reflects scope) pc f
      ((Store.onWorld (ops.relational op (f.registers x) (f.registers y))).run s)
      fun holds _ pc' f' =>
        pc' = (if holds then pc + 1 else target) ∧ f'.registers = f.registers := by
  have hrun : ((Instruction.jumpIfNot op target x y).operation ops (pc + 1)).run f
      = (Frame.onWorld (ops.relational op (f.registers x) (f.registers y)) >>= fun holds =>
          pure (if holds then pc + 1 else target)).run f := rfl
  rw [EStateM.run_bind] at hrun
  simp only [Frame.onWorld, EStateM.run, hR.world] at hrun
  simp only [Store.onWorld, EStateM.run]
  cases hm : ops.relational op (f.registers x) (f.registers y) s.world with
  | ok holds w =>
      simp only [hm] at hrun
      exact ⟨_, _, .step fetch hrun .here, ⟨hR.locals, rfl⟩, rfl, rfl⟩
  | error e w =>
      simp only [hm] at hrun
      exact ⟨_, .fail fetch hrun, hR.locals, rfl⟩

/-- A condition is the comparison of two expressions, outer parentheses aside. -/
structure Compares (ops : Operators V W) (scope : LocalScope B) (e : Expression B V)
    (comparison : Comparison V) (l r : Expression B V) (el er : Emitter V) : Prop where
  lhs : comparison.lhs = compileExprOperand scope l el
  rhs : comparison.rhs = compileExprOperand scope r er
  evaluates_lhs : Evaluates ops scope l el
  evaluates_rhs : Evaluates ops scope r er
  eval_eq : eval ops scope e = eval ops scope (.binary (.relational comparison.op) l r)
  undisturbed : ∀ s, Undisturbed ops scope e true s →
    Undisturbed ops scope (.binary (.relational comparison.op) l r) true s

/-- **A fused condition** is evaluated operand by operand, and no boolean is stored. -/
theorem compiles_fused {e l r : Expression B V} {el er : Emitter V} {comparison : Comparison V}
    (h : Compares ops scope e comparison l r el er) {c : ByteCompiler (Instruction V)}
    {branch : Label × ByteCompiler (Instruction V)}
    (hbranch : tryFusedComparisonBranch comparison c = some branch)
    (hc : LocalsAllocated scope c.flags) :
    CompilesOpen c branch.2 branch.1 (BranchesOn ops scope e c.flags) := by
  obtain ⟨opl, opr, c₂, close, heq, hbytecode, hflags, hemits⟩ :=
    h.evaluates_lhs.handsOutBoth h.evaluates_rhs hc
  rw [tryFusedComparisonBranch, h.lhs, h.rhs] at hbranch
  split at hbranch
  · have hcode := heq fun x y c => c.emit (.jumpIfNot comparison.op dummyAddress x y)
    simp only [hcode] at hbranch
    obtain rfl := Option.some.inj hbranch
    refine ⟨?_, hflags _ rfl⟩
    simp only [nextOpcodeLocation, hbytecode]
    have hopens := hemits.opens (Opens.singleton Patchable.setAddress c₂.bytecode
      (.jumpIfNot comparison.op dummyAddress opl opr))
    have hlabel : (c₂.emit (.jumpIfNot comparison.op dummyAddress opl opr)).bytecode.length - 1
        = c₂.bytecode.length := by simp [emit]
    rw [hlabel]
    refine hopens.imp ?_
    rintro code target a d ⟨b, hboth, fetch, rfl⟩ s f hR hund
    obtain ⟨hundl, hundr⟩ := h.undisturbed s hund
    rw [h.eval_eq]
    refine hboth V (fun x y => Store.onWorld (ops.relational comparison.op x y) >>= fun holds =>
      pure (ops.ofBool holds)) _ s f hR hundl hundr fun x y s' f' hR' hx hy hk => ?_
    have hjump := tracks_jumpIfNot ops fetch hR'
    rw [hx, hy] at hjump
    refine hjump.bind fun holds s'' pc f'' _ hR'' ⟨hpc, hregs⟩ => .pure hR'' ⟨?_, ?_⟩
    · rw [ops.toBoolean_ofBool, hpc]
    · exact fun q hq ht => hregs ▸ hk q hq ht
  · cases hbranch

/-- **A condition and its branch**, fused or not. -/
theorem compiles_conditionAndBranch {e : Expression B V} {emitter : Emitter V}
    {comparison : Option (Comparison V)} (he : Evaluates ops scope e emitter)
    (hcomparison : ∀ cmp, comparison = some cmp →
      ∃ l r el er, Compares ops scope e cmp l r el er)
    {c : ByteCompiler (Instruction V)} (hc : LocalsAllocated scope c.flags) :
    CompilesOpen c (compileConditionAndBranch emitter comparison c).2
      (compileConditionAndBranch emitter comparison c).1 (BranchesOn ops scope e c.flags) := by
  rw [compileConditionAndBranch]
  split
  · next branch hbranch =>
      obtain ⟨cmp, hcmp, hfused⟩ := Option.bind_eq_some_iff.mp hbranch
      obtain ⟨l, r, el, er, hcompares⟩ := hcomparison cmp hcmp
      exact compiles_fused hcompares hfused hc
  · have h₁ := he c.allocated c.temporary (hc.mono fun _ => flags_allocated_ne)
      (isTarget_temporary hc)
    have h₂ := h₁.opens (compilesOpen_emitLabel (emitter c.temporary c.allocated)
      (.jumpIfFalse dummyAddress c.temporary))
    refine ⟨h₂.opens.imp ?_, flags_dealloc h₂.flags⟩
    rintro code target a d ⟨b, hev, fetch, rfl⟩ s f hR hund
    refine Tracks.before (hev true s f hR hund) fun v s' pc f' _ hR' ⟨hpc, hval, hk⟩ => ?_
    subst hpc
    refine .step fetch (Instruction.run_jumpIfFalse ops f' _ _ _) (.pure hR' ⟨?_, ?_⟩)
    · rw [hval rfl]
    · exact (hk.mono fun _ => flags_allocated_ne).keeps c.flags_temporary

/-- A conditional evaluates its condition and then one branch. -/
theorem evaluates_conditional {e t u : Expression B V} {ee te ue : Emitter V}
    {comparison : Option (Comparison V)} (he : Evaluates ops scope e ee)
    (hcomparison : ∀ cmp, comparison = some cmp →
      ∃ l r el er, Compares ops scope e cmp l r el er)
    (ht : Evaluates ops scope t te) (hu : Evaluates ops scope u ue) :
    Evaluates ops scope (.conditional e t u) fun dst c =>
      compileIfElse ee comparison (te dst) (ue dst) c := by
  intro c dst hc hdst
  have h₁ := compiles_conditionAndBranch he hcomparison hc
  have h₂ := ht _ dst (h₁.flags ▸ hc) (h₁.flags ▸ hdst)
  have h₃ := compilesOpen_emitLabel (te dst (compileConditionAndBranch ee comparison c).2)
    (.jump dummyAddress)
  have h₄ := (h₁.append h₂).opens_patch h₃
  have h₅ := hu _ dst (h₄.flags ▸ hc) (h₄.flags ▸ hdst)
  refine ((h₄.append h₅).patch).imp ?_
  rintro code a e' ⟨d, ⟨d', ⟨b, hbranch, hev₁⟩, fetch, rfl⟩, hev₂⟩ used s f hR ⟨hund, hund'⟩
  refine Tracks.bind (hbranch s f hR hund) fun v s₁ pc f₁ hv hR₁ ⟨hpc, hk₁⟩ => ?_
  have hund' := hund' v s₁ hv
  by_cases htrue : ops.toBoolean v = true
  · simp only [if_pos htrue] at hpc hund' ⊢
    subst hpc
    refine Tracks.before (hev₁ used s₁ f₁ hR₁ hund') fun x s₂ pc f₂ _ hR₂ ⟨hpc, hval, hk₂⟩ => ?_
    subst hpc
    refine .step fetch (Instruction.run_jump ops f₂ _ _) (.pure hR₂ ⟨rfl, hval, ?_⟩)
    exact hk₁.but.trans (hk₂.mono fun q hq => h₁.flags.symm ▸ hq)
  · simp only [if_neg htrue] at hpc hund' ⊢
    subst hpc
    refine (hev₂ used s₁ f₁ hR₁ hund').imp fun x s₂ pc f₂ _ _ ⟨hpc, hval, hk₂⟩ =>
      ⟨hpc, hval, hk₁.but.trans (hk₂.mono fun q hq => h₄.flags.symm ▸ hq)⟩

end Conditions

/-! ### All expressions -/

/-- A literal is stored into the target. -/
theorem evaluates_literal (value : V) :
    Evaluates ops scope (.literal value) fun dst c => c.emit (.store dst value) := by
  intro c dst _ hdst
  refine (compiles_emit c _).imp ?_
  rintro code a b ⟨fetch, rfl⟩ used s f hR -
  exact .step fetch (Instruction.run_store ops f _ dst value)
    (.pure (hR.setTemporary hdst.temporary value)
      ⟨rfl, fun _ => Frame.setRegister_self .., keepsBut_setRegister f value⟩)

/-- Reading a binding moves the value of its register into the target. -/
theorem evaluates_identifier (name : B) :
    Evaluates ops scope (.identifier name) (emitGetName scope name) := by
  intro c dst _ hdst
  refine (compiles_getName ops scope name dst c).imp fun code a b hget used s f hR _ => ?_
  exact .after (hget s f hR) (.pure (hR.setTemporary hdst.temporary _)
    ⟨rfl, fun _ => Frame.setRegister_self .., keepsBut_setRegister f _⟩)

/-- Every binary expression is evaluated in order, whatever its operator is, short-circuiting ones
included. -/
theorem evaluates_binary (op : BinaryOp) {l r : Expression B V} {el er : Emitter V}
    (hl : Evaluates ops scope l el) (hr : Evaluates ops scope r er) :
    Evaluates ops scope (.binary op l r)
      (compileBinary op (compileExprOperand scope l el) (compileExprOperand scope r er) el er) := by
  cases op with
  | arithmetic op => exact evaluates_arithmetic op hl hr
  | bitwise op => exact evaluates_bitwise op hl hr
  | relational op => exact evaluates_relational op hl hr
  | logical op => exact evaluates_logical op hl hr
  | comma => exact evaluates_comma hl hr

/-- **The code of an expression evaluates it**, and a condition that can be fused is compared
as it is evaluated. The induction follows the syntax tree; the two statements are proved
together since a conditional compiles its condition either way. -/
theorem evaluates_compileExpr (ops : Operators V W) (scope : LocalScope B) (e : Expression B V) :
    Evaluates ops scope e (compileExpr scope e) ∧
      ∀ cmp, comparison scope e = some cmp → ∃ l r el er, Compares ops scope e cmp l r el er := by
  induction e with
  | literal value => exact ⟨evaluates_literal value, nofun⟩
  | identifier name => exact ⟨evaluates_identifier name, nofun⟩
  | parenthesized e ih =>
      refine ⟨ih.1, fun cmp hcmp => ?_⟩
      obtain ⟨l, r, el, er, hl, hr, hevl, hevr, heval, hund⟩ := ih.2 cmp hcmp
      exact ⟨l, r, el, er, hl, hr, hevl, hevr, heval, hund⟩
  | assign op name rhs ih => exact ⟨evaluates_assign op ih.1, nofun⟩
  | update op name => exact ⟨evaluates_update op, nofun⟩
  | binary op l r ihl ihr =>
      refine ⟨evaluates_binary op ihl.1 ihr.1, fun cmp hcmp => ?_⟩
      cases op with
      | relational op =>
          obtain rfl := Option.some.inj hcmp
          exact ⟨l, r, _, _, rfl, rfl, ihl.1, ihr.1, rfl, fun _ h => h⟩
      | arithmetic op => cases hcmp
      | bitwise op => cases hcmp
      | logical op => cases hcmp
      | comma => cases hcmp
  | conditional e t u ihe iht ihu =>
      exact ⟨evaluates_conditional ihe.1 ihe.2 iht.1 ihu.1, nofun⟩

end BoaLigero
