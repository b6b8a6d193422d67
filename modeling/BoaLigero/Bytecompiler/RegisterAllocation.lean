import Mathlib.Algebra.Ring.Nat
import Mathlib.Data.List.Perm.Subperm
import Mathlib.Data.List.Nodup
import BoaLigero.Bytecompiler.Register
import BoaLigero.Util.Run

/-!
# Runs of the Register Allocator

The allocator with the data types of the source: two flag bits for every entry and 32-bit
register indices, to which the position of an entry is cut down. A run is any interleaving of
the three operations in which a register that is given back is one that is held, and not a
persistent one; the registers held and all registers ever returned are kept beside the
allocator.

## Main results

* `alloc_view` — as long as positions fit, this allocator is the one of the code generation
  proofs.
* `registers_distinct` — if at most `2 ^ 32 - 2` registers are held before each allocation, no
  operation panics, every register returned differs from those held, and its index is below
  the register count of the frame.
-/

namespace BoaLigero.Allocation

/-- The flag bits of a register entry. -/
structure RegisterFlags where
  used : Bool := false
  persistent : Bool := false
  deriving DecidableEq, Repr

/-- An entry in the allocator. -/
structure RegisterEntry where
  flags : RegisterFlags := {}
  deriving DecidableEq, Repr

/-- A register of the frame: its index and the flags it was handed out with. -/
structure Register where
  index : UInt32
  flags : RegisterFlags
  deriving DecidableEq, Repr

structure RegisterAllocator where
  registers : List RegisterEntry := []
  deriving DecidableEq, Repr

namespace RegisterAllocator

/-- The first entry that is not in use, or a new one. `none` stands for a failed assertion. -/
def alloc (a : RegisterAllocator) : Option (Register × RegisterAllocator) :=
  match a.registers.findIdx? (fun reg => !reg.flags.used) with
  | some i =>
      a.registers[i]?.bind fun register =>
        if register.flags.persistent then none
        else
          let flags := { register.flags with used := true }
          some (⟨UInt32.ofNat i, flags⟩, ⟨a.registers.set i ⟨flags⟩⟩)
  | none =>
      let flags : RegisterFlags := { used := true }
      let index := UInt32.ofNat a.registers.length
      some (⟨index, flags⟩, ⟨a.registers ++ [⟨flags⟩]⟩)

/-- Allocate, then mark the entry at the index of the register as persistent. -/
def allocPersistent (a : RegisterAllocator) : Option (Register × RegisterAllocator) :=
  a.alloc.bind fun (reg, a) =>
    a.registers[reg.index.toNat]?.map fun register =>
      let flags := { register.flags with persistent := true }
      ({ reg with flags := flags }, ⟨a.registers.set reg.index.toNat ⟨flags⟩⟩)

/-- Give a register back: it must not be persistent, and its entry must be in use. -/
def dealloc (a : RegisterAllocator) (reg : Register) : Option RegisterAllocator :=
  if reg.flags.persistent then none
  else
    a.registers[reg.index.toNat]?.bind fun register =>
      if register.flags.used then
        some ⟨a.registers.set reg.index.toNat ⟨{ register.flags with used := false }⟩⟩
      else none

/-- The number of registers reserved for the frame. -/
def finish (a : RegisterAllocator) : UInt32 := UInt32.ofNat a.registers.length

/-! ### What an allocation does -/

/-- Only registers in use are persistent, so that the assertion of `alloc` holds. -/
def PersistentUsed (a : RegisterAllocator) : Prop :=
  ∀ e ∈ a.registers, e.flags.persistent → e.flags.used

/-- `a'` is `a` with the free register at position `i` taken, and marked with the flags `f`. -/
structure Takes (a : RegisterAllocator) (i : Nat) (f : RegisterFlags) (a' : RegisterAllocator) :
    Prop where
  free : ∀ e, a.registers[i]? = some e → e.flags.used = false
  get : ∀ j, a'.registers[j]? = if j = i then some ⟨f⟩ else a.registers[j]?
  length : i < a.registers.length ∧ a'.registers.length = a.registers.length ∨
    i = a.registers.length ∧ a'.registers.length = a.registers.length + 1 ∧
      ∀ e ∈ a.registers, e.flags.used

variable {a a' : RegisterAllocator} {i : Nat} {f : RegisterFlags}

theorem Takes.le_length (h : Takes a i f a') : i ≤ a.registers.length := by
  rcases h.length with ⟨hlt, -⟩ | ⟨heq, -⟩ <;> omega

theorem Takes.lt_length (h : Takes a i f a') : i < a'.registers.length := by
  rcases h.length with ⟨hlt, hlen⟩ | ⟨heq, hlen, -⟩ <;> omega

theorem Takes.length_le (h : Takes a i f a') : a.registers.length ≤ a'.registers.length := by
  rcases h.length with ⟨-, hlen⟩ | ⟨-, hlen, -⟩ <;> omega

/-- **An allocation takes a free register**, when only registers in use are persistent. -/
theorem alloc_takes (hused : a.PersistentUsed) :
    ∃ i a', a.alloc = some (⟨UInt32.ofNat i, { used := true }⟩, a') ∧
      Takes a i { used := true } a' := by
  cases hfind : a.registers.findIdx? (fun reg => !reg.flags.used) with
  | none =>
      refine ⟨a.registers.length, _, by rw [alloc, hfind], ?_, ?_, ?_⟩
      · simp
      · intro j
        simp only [List.getElem?_append]
        grind
      · exact .inr ⟨rfl, by simp, by simpa using hfind⟩
  | some i =>
      obtain ⟨hlt, hfree, -⟩ := List.findIdx?_eq_some_iff_getElem.mp hfind
      have hfree : a.registers[i].flags.used = false := by simpa using hfree
      have htemporary : a.registers[i].flags.persistent = false := by
        have := hused _ (List.getElem_mem hlt)
        grind
      have hflags : { a.registers[i].flags with used := true } =
          ({ used := true } : RegisterFlags) := by
        simp only [htemporary]
      refine ⟨i, ⟨a.registers.set i ⟨{ used := true }⟩⟩, ?_, ?_, ?_, ?_⟩
      · simp only [alloc, hfind, List.getElem?_eq_getElem hlt, Option.bind_some, htemporary,
          Bool.false_eq_true, if_false]
      · intro e he
        rw [List.getElem?_eq_getElem hlt, Option.some.injEq] at he
        exact he ▸ hfree
      · intro j
        simp only [List.getElem?_set]
        grind
      · exact .inl ⟨hlt, by simp⟩

theorem toNat_ofNat_of_lt (h : i < 2 ^ 32) : (UInt32.ofNat i).toNat = i := by
  simpa using Nat.mod_eq_of_lt h

/-- A persistent allocation takes a free register too, as long as its position fits. -/
theorem allocPersistent_takes (hused : a.PersistentUsed) (hlen : a.registers.length < 2 ^ 32) :
    ∃ i a', a.allocPersistent = some (⟨UInt32.ofNat i, ⟨true, true⟩⟩, a') ∧
      Takes a i ⟨true, true⟩ a' := by
  obtain ⟨i, a₁, halloc, htakes⟩ := alloc_takes hused
  have hindex : (UInt32.ofNat i).toNat = i :=
    toNat_ofNat_of_lt (Nat.lt_of_le_of_lt htakes.le_length hlen)
  have hget : a₁.registers[i]? = some ⟨{ used := true }⟩ := by simp [htakes.get]
  refine ⟨i, ⟨a₁.registers.set i ⟨⟨true, true⟩⟩⟩, ?_, htakes.free, ?_, ?_⟩
  · simp [allocPersistent, halloc, hindex, hget]
  · intro j
    have hlt := htakes.lt_length
    simp only [List.getElem?_set, htakes.get]
    grind
  · simpa using htakes.length

/-! ### The allocator of the code generation proofs -/

/-- What the two bits mean, for a register that is persistent only while in use. -/
def kind (e : RegisterEntry) : BoaLigero.RegisterFlags :=
  if e.flags.used then if e.flags.persistent then .persistent else .used else .free

/-- The allocator that the code generator is verified with. -/
def view (a : RegisterAllocator) : BoaLigero.RegisterAllocator := ⟨a.registers.map kind⟩

theorem kind_eq_free_iff (e : RegisterEntry) : kind e = .free ↔ e.flags.used = false := by
  rw [kind]
  grind

/-- **The two allocators agree**: below `2 ^ 32` registers an allocation returns the position
the other allocator returns, and leaves what it leaves. -/
theorem alloc_view (hused : a.PersistentUsed) (hlen : a.registers.length < 2 ^ 32)
    {reg : Register} (halloc : a.alloc = some (reg, a')) :
    a.view.alloc = (reg.index.toNat, a'.view) := by
  have hfind : a.view.registers.findIdx? (· = .free) =
      a.registers.findIdx? (fun reg => !reg.flags.used) := by
    simp only [view, List.findIdx?_map]
    congr 1
    funext e
    simp only [Function.comp_apply, kind_eq_free_iff]
    cases e.flags.used <;> rfl
  rw [BoaLigero.RegisterAllocator.alloc, BoaLigero.RegisterAllocator.allocWith, hfind]
  rw [alloc] at halloc
  cases h : a.registers.findIdx? (fun reg => !reg.flags.used) with
  | none =>
      simp only [h, Option.some.injEq, Prod.mk.injEq] at halloc
      obtain ⟨rfl, rfl⟩ := halloc
      simp only [view, List.length_map, toNat_ofNat_of_lt hlen, List.map_append]
      rfl
  | some i =>
      obtain ⟨hlt, hfree, -⟩ := List.findIdx?_eq_some_iff_getElem.mp h
      have htemporary : a.registers[i].flags.persistent = false := by
        have := hused _ (List.getElem_mem hlt)
        grind
      simp only [h, List.getElem?_eq_getElem hlt, Option.bind_some, htemporary,
        Bool.false_eq_true, if_false, Option.some.injEq, Prod.mk.injEq] at halloc
      obtain ⟨rfl, rfl⟩ := halloc
      simp only [view, List.map_set, toNat_ofNat_of_lt (Nat.lt_trans hlt hlen)]
      rfl

end RegisterAllocator

/-! ### Runs -/

/-- The allocator, the registers the compiler holds, and all registers it was ever given. -/
structure State where
  allocator : RegisterAllocator := {}
  live : List Register := []
  returned : List Register := []
  deriving DecidableEq, Repr

inductive Call
  | alloc
  | allocPersistent
  | dealloc (reg : Register)
  deriving DecidableEq, Repr

/-- The compiler receives a register. -/
def State.receive (s : State) (result : Register × RegisterAllocator) : State where
  allocator := result.2
  live := result.1 :: s.live
  returned := result.1 :: s.returned

/-- Perform a call; `none` is a panic. -/
def State.perform (s : State) : Call → Option State
  | .alloc => s.allocator.alloc.map s.receive
  | .allocPersistent => s.allocator.allocPersistent.map s.receive
  | .dealloc reg => (s.allocator.dealloc reg).map fun a =>
      { s with allocator := a, live := s.live.erase reg }

/-- A register that is given back is held, so that none is given back twice, and it is not
persistent. -/
def Call.Permitted (s : State) : Call → Prop
  | .dealloc reg => reg ∈ s.live ∧ reg.flags.persistent = false
  | _ => True

instance (s : State) (call : Call) : Decidable (call.Permitted s) := by
  cases call <;> unfold Call.Permitted <;> infer_instance

/-- Before an allocation fewer than `2 ^ 32 - 1` registers are held. -/
def Call.Fits (s : State) : Call → Prop
  | .dealloc _ => True
  | _ => s.live.length + 1 < 2 ^ 32

instance (s : State) (call : Call) : Decidable (call.Fits s) := by
  cases call <;> unfold Call.Fits <;> infer_instance

/-- All interleavings of calls, from the empty allocator. -/
def system : TransitionSystem State Call where
  init s := s = {}
  step s call s' := call.Permitted s ∧ s.perform call = some s'

/-- The registers a step returned differ from those that were held before it. -/
def Fresh (s s' : State) : Prop :=
  ∀ reg, s'.returned = reg :: s.returned → ∀ held ∈ s.live, held.index ≠ reg.index

/-- Every register ever returned is below the final register count. -/
def Bounded (s : State) : Prop := ∀ reg ∈ s.returned, reg.index < s.allocator.finish

/-- What holds between the calls of a run: the registers held have different indices, they
are the entries in use, with their flags, and positions fit in 32 bits. -/
structure Inv (s : State) : Prop where
  persistent_used : s.allocator.PersistentUsed
  length_lt : s.allocator.registers.length < 2 ^ 32
  nodup : (s.live.map fun reg => reg.index.toNat).Nodup
  entry : ∀ reg ∈ s.live, s.allocator.registers[reg.index.toNat]? = some ⟨reg.flags⟩
  used : ∀ reg ∈ s.live, reg.flags.used
  held : ∀ i e, s.allocator.registers[i]? = some e → e.flags.used →
    ∃ reg ∈ s.live, reg.index.toNat = i
  returned_lt : ∀ reg ∈ s.returned, reg.index.toNat < s.allocator.registers.length

theorem Inv.initial : Inv {} := by
  refine ⟨?_, ?_, ?_, ?_, ?_, ?_, ?_⟩ <;> simp [RegisterAllocator.PersistentUsed]

variable {s s' : State}

theorem Inv.bounded (h : Inv s) : Bounded s := by
  intro reg hreg
  have hlt := h.returned_lt reg hreg
  have hfinish : s.allocator.finish.toNat = s.allocator.registers.length :=
    RegisterAllocator.toNat_ofNat_of_lt h.length_lt
  exact UInt32.lt_iff_toNat_lt.mpr (hfinish ▸ hlt)

/-- When all entries are in use, as many registers are held as there are entries. -/
theorem Inv.length_le_live (h : Inv s) (hall : ∀ e ∈ s.allocator.registers, e.flags.used) :
    s.allocator.registers.length ≤ s.live.length := by
  have hsubset : List.range s.allocator.registers.length ⊆
      s.live.map fun reg => reg.index.toNat := by
    intro i hi
    have hlt := List.mem_range.mp hi
    obtain ⟨reg, hreg, hindex⟩ :=
      h.held i _ (List.getElem?_eq_getElem hlt) (hall _ (List.getElem_mem hlt))
    exact List.mem_map.mpr ⟨reg, hreg, hindex⟩
  simpa using (List.subperm_of_subset List.nodup_range hsubset).length_le

/-- No register is held at a position that an allocation takes. -/
theorem Inv.ne_of_takes (h : Inv s) {i : Nat} {f : RegisterFlags} {a' : RegisterAllocator}
    (htakes : s.allocator.Takes i f a') : ∀ held ∈ s.live, held.index.toNat ≠ i := by
  rintro held hheld rfl
  have hfree := htakes.free _ (h.entry held hheld)
  rw [h.used held hheld] at hfree
  cases hfree

/-- **Receiving a register keeps the invariant**, as long as the register fits. -/
theorem Inv.receive (h : Inv s) {i : Nat} {persistent : Bool} {a' : RegisterAllocator}
    (htakes : s.allocator.Takes i ⟨true, persistent⟩ a') (hfits : s.live.length + 1 < 2 ^ 32) :
    Inv (s.receive (⟨UInt32.ofNat i, ⟨true, persistent⟩⟩, a')) := by
  have hlt := h.length_lt
  have hindex : (UInt32.ofNat i).toNat = i :=
    RegisterAllocator.toNat_ofNat_of_lt (Nat.lt_of_le_of_lt htakes.le_length hlt)
  have hne := h.ne_of_takes htakes
  constructor
  case persistent_used =>
    intro e he
    obtain ⟨j, hj⟩ := List.mem_iff_getElem?.mp he
    rw [State.receive, htakes.get] at hj
    split at hj
    · cases hj
      simp
    · exact h.persistent_used e (List.mem_of_getElem? hj)
  case length_lt =>
    rcases htakes.length with ⟨-, hlen⟩ | ⟨-, hlen, hall⟩
    · exact hlen ▸ hlt
    · have := h.length_le_live hall
      exact hlen ▸ (by omega)
  case nodup =>
    simp only [State.receive, List.map_cons, List.nodup_cons, hindex]
    refine ⟨?_, h.nodup⟩
    intro hmem
    obtain ⟨held, hheld, heq⟩ := List.mem_map.mp hmem
    exact hne held hheld heq
  case entry =>
    intro reg hreg
    rcases List.mem_cons.mp hreg with rfl | hreg
    · simp [State.receive, htakes.get, hindex]
    · simpa [State.receive, htakes.get, hne reg hreg] using h.entry reg hreg
  case used =>
    intro reg hreg
    rcases List.mem_cons.mp hreg with rfl | hreg
    · rfl
    · exact h.used reg hreg
  case held =>
    intro j e he hused
    rw [State.receive, htakes.get] at he
    split at he
    · next heq => exact ⟨_, List.mem_cons_self, hindex.trans heq.symm⟩
    · obtain ⟨reg, hreg, heq⟩ := h.held j e he hused
      exact ⟨reg, List.mem_cons_of_mem _ hreg, heq⟩
  case returned_lt =>
    intro reg hreg
    rcases List.mem_cons.mp hreg with rfl | hreg
    · exact hindex.symm ▸ htakes.lt_length
    · exact Nat.lt_of_lt_of_le (h.returned_lt reg hreg) htakes.length_le

/-- **Giving a held register back keeps the invariant**, and its assertions hold. -/
theorem Inv.dealloc (h : Inv s) {reg : Register} (hreg : reg ∈ s.live)
    (htemporary : reg.flags.persistent = false) :
    ∃ s', s.perform (.dealloc reg) = some s' ∧ s'.returned = s.returned ∧ Inv s' := by
  have hentry := h.entry reg hreg
  have hlt : reg.index.toNat < s.allocator.registers.length :=
    (List.getElem?_eq_some_iff.mp hentry).1
  have hlive : ∀ r, r ∈ s.live.erase reg ↔ r ∈ s.live ∧ r.index.toNat ≠ reg.index.toNat := by
    intro r
    rw [(List.Nodup.of_map _ h.nodup).mem_erase_iff]
    constructor
    · rintro ⟨hne, hr⟩
      exact ⟨hr, fun heq => hne (List.inj_on_of_nodup_map h.nodup hr hreg heq)⟩
    · rintro ⟨hr, hne⟩
      exact ⟨fun heq => hne (heq ▸ rfl), hr⟩
  let a : RegisterAllocator :=
    ⟨s.allocator.registers.set reg.index.toNat ⟨{ reg.flags with used := false }⟩⟩
  have hperform : s.perform (.dealloc reg) =
      some { s with allocator := a, live := s.live.erase reg } := by
    simp [State.perform, RegisterAllocator.dealloc, htemporary, hentry, h.used reg hreg, a]
  refine ⟨_, hperform, rfl, ?_⟩
  constructor
  case persistent_used =>
    intro e he
    rcases List.mem_or_eq_of_mem_set he with he | rfl
    · exact h.persistent_used e he
    · simp [htemporary]
  case length_lt => simpa [a] using h.length_lt
  case nodup => exact h.nodup.sublist (List.erase_sublist.map _)
  case entry =>
    intro r hr
    obtain ⟨hr, hne⟩ := (hlive r).mp hr
    simpa [a, List.getElem?_set, Ne.symm hne] using h.entry r hr
  case used =>
    intro r hr
    exact h.used r ((hlive r).mp hr).1
  case held =>
    intro j e he hused
    simp only [a, List.getElem?_set] at he
    split at he
    · next heq =>
        rw [Option.some.injEq] at he
        simp [← he] at hused
    · next hne =>
        obtain ⟨r, hr, heq⟩ := h.held j e he hused
        exact ⟨r, (hlive r).mpr ⟨hr, heq ▸ Ne.symm hne⟩, heq⟩
  case returned_lt => simpa [a] using h.returned_lt

/-- **One step**: a permitted call that fits does not panic, returns a register that differs
from those held, and keeps the invariant. -/
theorem Inv.step (h : Inv s) {call : Call} (hpermitted : call.Permitted s)
    (hfits : call.Fits s) : ∃ s', s.perform call = some s' ∧ Fresh s s' ∧ Inv s' := by
  have hreceive : ∀ {i : Nat} {persistent : Bool} {a' : RegisterAllocator},
      s.allocator.Takes i ⟨true, persistent⟩ a' → s.live.length + 1 < 2 ^ 32 →
      Fresh s (s.receive (⟨UInt32.ofNat i, ⟨true, persistent⟩⟩, a')) ∧
        Inv (s.receive (⟨UInt32.ofNat i, ⟨true, persistent⟩⟩, a')) := by
    intro i persistent a' htakes hlive
    refine ⟨?_, h.receive htakes hlive⟩
    intro reg hreg held hheld heq
    obtain rfl := (List.cons.inj hreg).1
    have hi := Nat.lt_of_le_of_lt htakes.le_length h.length_lt
    refine h.ne_of_takes htakes held hheld ?_
    rw [heq]
    exact RegisterAllocator.toNat_ofNat_of_lt hi
  cases call with
  | alloc =>
      obtain ⟨i, a', halloc, htakes⟩ := RegisterAllocator.alloc_takes h.persistent_used
      exact ⟨_, by rw [State.perform, halloc, Option.map_some], hreceive htakes hfits⟩
  | allocPersistent =>
      obtain ⟨i, a', halloc, htakes⟩ :=
        RegisterAllocator.allocPersistent_takes h.persistent_used h.length_lt
      exact ⟨_, by rw [State.perform, halloc, Option.map_some], hreceive htakes hfits⟩
  | dealloc reg =>
      obtain ⟨s', hperform, hreturned, hinv⟩ := h.dealloc hpermitted.1 hpermitted.2
      refine ⟨s', hperform, ?_, hinv⟩
      intro r hr
      rw [hreturned] at hr
      exact absurd (congrArg List.length hr) (by simp)

/-- The invariant holds in every state that a run of fitting calls reaches. -/
theorem Inv.of_run (run : system.Run (fun s call => call.Fits s) s) : Inv s := by
  refine run.invariant ?_ ?_
  · rintro _ rfl
    exact .initial
  · rintro s call s' hinv hfits ⟨hpermitted, hperform⟩
    obtain ⟨t, ht, -, hinv⟩ := hinv.step hpermitted hfits
    rw [hperform, Option.some.injEq] at ht
    exact ht ▸ hinv

/-- **No register is handed out twice.** In every state of a run that holds fewer than
`2 ^ 32 - 1` registers before each allocation, all registers ever returned are below the
register count, and every permitted call that fits succeeds, with a register that differs from
all registers held. -/
theorem registers_distinct (run : system.Run (fun s call => call.Fits s) s) :
    Bounded s ∧ ∀ call : Call, call.Permitted s → call.Fits s →
      ∃ s', s.perform call = some s' ∧ Fresh s s' := by
  have hinv := Inv.of_run run
  refine ⟨hinv.bounded, ?_⟩
  intro call hpermitted hfits
  obtain ⟨s', hperform, hfresh, -⟩ := hinv.step hpermitted hfits
  exact ⟨s', hperform, hfresh⟩

/-- A temporary and a persistent register, the temporary given back and taken again. -/
theorem registers_distinct_reuse :
    ∃ s : State, s.live = [⟨0, ⟨true, false⟩⟩, ⟨1, ⟨true, true⟩⟩] ∧
      (Bounded s ∧ ∀ call : Call, call.Permitted s → call.Fits s →
        ∃ s', s.perform call = some s' ∧ Fresh s s') := by
  have run : ∃ s : State, s.live = [⟨0, ⟨true, false⟩⟩, ⟨1, ⟨true, true⟩⟩] ∧
      system.Run (fun s call => call.Fits s) s := by
    have h₀ : system.Run (fun s call => call.Fits s) {} := .start rfl
    have h₁ := h₀.next (l := .alloc) (by decide) ⟨by decide, rfl⟩
    have h₂ := h₁.next (l := .allocPersistent) (by decide) ⟨by decide, rfl⟩
    have h₃ := h₂.next (l := .dealloc ⟨0, ⟨true, false⟩⟩) (by decide) ⟨by decide, rfl⟩
    have h₄ := h₃.next (l := .alloc) (by decide) ⟨by decide, rfl⟩
    exact ⟨_, rfl, h₄⟩
  obtain ⟨s, hlive, run⟩ := run
  exact ⟨s, hlive, registers_distinct run⟩

/-! ### Past the register indices -/

/-- The state after a number of allocations with nothing given back. -/
def State.full (n : Nat) : State where
  allocator := ⟨List.replicate n ⟨{ used := true }⟩⟩
  live := (List.range n).reverse.map fun i => ⟨UInt32.ofNat i, { used := true }⟩
  returned := (List.range n).reverse.map fun i => ⟨UInt32.ofNat i, { used := true }⟩

theorem State.perform_full (n : Nat) : (full n).perform .alloc = some (full (n + 1)) := by
  have hfind : (List.replicate n (⟨{ used := true }⟩ : RegisterEntry)).findIdx?
      (fun reg => !reg.flags.used) = none := by
    simp
  simp [full, State.perform, RegisterAllocator.alloc, hfind, State.receive, List.range_succ,
    List.replicate_succ']

theorem State.reachable_full (n : Nat) : system.Reachable (full n) := by
  induction n with
  | zero => exact .start rfl
  | succ n ih => exact ih.next (l := .alloc) trivial ⟨trivial, State.perform_full n⟩

/-- When the position of the next register is a multiple of `2 ^ 32`, the first register is
returned again. -/
theorem State.not_fresh_full {n : Nat} (hpos : 0 < n) (hmod : n % 2 ^ 32 = 0) :
    ¬ Fresh (full n) (full (n + 1)) := by
  intro hfresh
  have hreturned : (full (n + 1)).returned =
      ⟨UInt32.ofNat n, { used := true }⟩ :: (full n).returned := by
    simp [full, List.range_succ]
  refine hfresh _ hreturned ⟨UInt32.ofNat 0, { used := true }⟩ ?_ ?_
  · exact List.mem_map.mpr ⟨0, by simpa using hpos, rfl⟩
  · apply UInt32.toNat.inj
    rw [UInt32.toNat_ofNat', UInt32.toNat_ofNat', hmod, Nat.zero_mod]

/-- With `2 ^ 32` registers held, the next register returned is the first one again. -/
theorem registers_not_distinct :
    ¬ ∀ s call s', system.Reachable s → system.step s call s' → Fresh s s' ∧ Bounded s' := by
  intro h
  obtain ⟨hfresh, -⟩ := h (.full (2 ^ 32)) .alloc _ (State.reachable_full _)
    ⟨trivial, State.perform_full _⟩
  exact State.not_fresh_full (by decide) (by decide) hfresh

end BoaLigero.Allocation
