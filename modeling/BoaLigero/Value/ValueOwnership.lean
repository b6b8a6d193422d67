import BoaLigero.Util.Run
import BoaLigero.Value.NanBoxed
import Mathlib.Data.List.Count

/-!
# Owners of What Values Lead To

Objects, strings, symbols and big integers are counted by their owners, which are handles and the
words of values (`value/inner/nan_boxed.rs`). A word is cloned and dropped by its bits alone: the
tag says what is counted. Well-known symbols and static strings are not counted.

A step fails if it touches what has no owner, or if a pointer does not fit into a word. Finalization
of values (`Finalize`) is left out, and so is the freeing of objects by the collector, which has its
own model: what has no owner counts as freed here. Counts that overflow abort the source.

## Main results

* `Owned.perform` — a step that is allowed never touches what was freed, and keeps the counts.
* `owners_of_reachable` — in every run the counts are the numbers of owners.
-/

namespace BoaLigero

open NanBoxed

/-- A pointer with its kind. -/
abbrev Pointer := PointerKind × BitVec 64

/-- Why a step fails. -/
inductive ValueFault
  | unsupportedPlatform
  | useAfterFree
deriving DecidableEq

/-- The counts of what exists, the handles to it, and the words of values. -/
structure ValueStore where
  counts : Pointer → ℕ
  handles : List Pointer
  words : List (BitVec 64)

/-- The pointer in a word, by its bits. -/
def NanBoxed.pointerOf (w : BitVec 64) : Option Pointer :=
  (pointerKind w).map fun kind => (kind, untagPointer w)

/-- The pointer of a value. -/
def NanVariant.pointerOf : NanVariant → Option Pointer
  | .pointer kind addr => some (kind, addr)
  | _ => none

/-! ### Counts -/

section Counts

variable (isStatic : Pointer → Bool)

/-- Something that is counted has to exist. -/
def touch (counts : Pointer → ℕ) (p : Pointer) : Except ValueFault Unit :=
  if isStatic p ∨ counts p ≠ 0 then .ok () else .error .useAfterFree

/-- One more owner (the `Clone` of a handle). -/
def retain (counts : Pointer → ℕ) (p : Pointer) : Except ValueFault (Pointer → ℕ) := do
  touch isStatic counts p
  return if isStatic p then counts else Function.update counts p (counts p + 1)

/-- One owner less (the `Drop` of a handle). -/
def release (counts : Pointer → ℕ) (p : Pointer) : Except ValueFault (Pointer → ℕ) := do
  touch isStatic counts p
  return if isStatic p then counts else Function.update counts p (counts p - 1)

end Counts

namespace ValueStore

/-! ### Steps -/

section Steps

variable (isStatic : Pointer → Bool) (s : ValueStore)

/-- A new object, string, symbol or big integer, with a handle. -/
def allocate (p : Pointer) : ValueStore :=
  { s with counts := Function.update s.counts p 1, handles := p :: s.handles }

/-- A handle to what is not counted. -/
def useStatic (p : Pointer) : ValueStore := { s with handles := p :: s.handles }

/-- `Clone` of a handle: the pointee is touched and counts one more owner. -/
def cloneHandle (p : Pointer) : Except ValueFault ValueStore := do
  let counts ← retain isStatic s.counts p
  return { s with counts, handles := p :: s.handles }

/-- `Drop` of a handle: the pointee is touched and counts one owner less. -/
def dropHandle (p : Pointer) : Except ValueFault ValueStore := do
  let counts ← release isStatic s.counts p
  return { s with counts, handles := s.handles.erase p }

/-- Put a value without a pointer into a word (`null`, `float64` and the others). -/
def plain (v : NanVariant) : Except ValueFault ValueStore :=
  match box v with
  | none => .error .unsupportedPlatform
  | some w => .ok { s with words := w :: s.words }

/-- Put a handle into a word, which is its owner from then on (`object` and the others). -/
def fromHandle (p : Pointer) : Except ValueFault ValueStore :=
  match box (.pointer p.1 p.2) with
  | none => .error .unsupportedPlatform
  | some w => .ok { s with handles := s.handles.erase p, words := w :: s.words }

/-- Clone a word. -/
def clone (w : BitVec 64) : Except ValueFault ValueStore :=
  match pointerOf w with
  | none => .ok { s with words := w :: s.words }
  | some p => do
      let counts ← retain isStatic s.counts p
      return { s with counts, words := w :: s.words }

/-- Drop a word. -/
def drop (w : BitVec 64) : Except ValueFault ValueStore :=
  match pointerOf w with
  | none => .ok { s with words := s.words.erase w }
  | some p => do
      let counts ← release isStatic s.counts p
      return { s with counts, words := s.words.erase w }

/-- A handle to what a word leads to, if it is of a kind. -/
def asPointer (kind : PointerKind) (w : BitVec 64) : Except ValueFault ValueStore :=
  match NanBoxed.asPointer kind w with
  | none => .ok s
  | some addr => s.cloneHandle isStatic (kind, addr)

/-- What is in a word, with a handle if it is a pointer. -/
def asVariant (w : BitVec 64) : Except ValueFault ValueStore :=
  match (NanBoxed.asVariant w).pointerOf with
  | none => .ok s
  | some p => s.cloneHandle isStatic p

/-- Look at what is in a word without a handle to it. Symbols are not looked at. -/
def toBoolean (w : BitVec 64) : Except ValueFault ValueStore :=
  match pointerOf w with
  | none | some (.symbol, _) => .ok s
  | some p => do
      touch isStatic s.counts p
      return s

/-- Mark an object through a handle that is dropped at once. -/
def trace (w : BitVec 64) : Except ValueFault ValueStore :=
  match NanBoxed.asPointer .object w with
  | none => .ok s
  | some addr => do
      let s ← s.cloneHandle isStatic (.object, addr)
      s.dropHandle isStatic (.object, addr)

end Steps

end ValueStore

/-- A step of a program. -/
inductive ValueAction
  | allocate (p : Pointer)
  | useStatic (p : Pointer)
  | cloneHandle (p : Pointer)
  | dropHandle (p : Pointer)
  | plain (v : NanVariant)
  | fromHandle (p : Pointer)
  | clone (w : BitVec 64)
  | drop (w : BitVec 64)
  | asPointer (kind : PointerKind) (w : BitVec 64)
  | asVariant (w : BitVec 64)
  | toBoolean (w : BitVec 64)
  | trace (w : BitVec 64)

namespace ValueStore

variable (isStatic : Pointer → Bool)

/-- Performs an action on the store, which fails where the code would touch a pointee that is gone.
-/
def perform (s : ValueStore) : ValueAction → Except ValueFault ValueStore
  | .allocate p => .ok (s.allocate p)
  | .useStatic p => .ok (s.useStatic p)
  | .cloneHandle p => s.cloneHandle isStatic p
  | .dropHandle p => s.dropHandle isStatic p
  | .plain v => s.plain v
  | .fromHandle p => s.fromHandle p
  | .clone w => s.clone isStatic w
  | .drop w => s.drop isStatic w
  | .asPointer kind w => s.asPointer isStatic kind w
  | .asVariant w => s.asVariant isStatic w
  | .toBoolean w => s.toBoolean isStatic w
  | .trace w => s.trace isStatic w

/-- What a program may do: it uses handles and words that it has, and what it allocates is at an
address that is not in use. -/
def Allows (s : ValueStore) : ValueAction → Prop
  | .allocate p => isStatic p = false ∧ s.counts p = 0
  | .useStatic p => isStatic p = true
  | .cloneHandle p | .dropHandle p | .fromHandle p => p ∈ s.handles
  | .plain v => v.pointerOf = none
  | .clone w | .drop w | .asPointer _ w | .asVariant w | .toBoolean w | .trace w => w ∈ s.words

/-- The runs of programs. -/
def program : TransitionSystem ValueStore ValueAction where
  init s := s.counts = 0 ∧ s.handles = [] ∧ s.words = []
  step s a s' := s.Allows isStatic a ∧ s.perform isStatic a = .ok s'

/-! ### Owners -/

/-- The owners of what exists, by what they own. -/
def owners (s : ValueStore) : List Pointer := s.handles ++ s.words.filterMap pointerOf

end ValueStore

variable {isStatic : Pointer → Bool}

/-- Counts are the numbers of owners. -/
def CountsOwners (isStatic : Pointer → Bool) (counts : Pointer → ℕ) (owners : List Pointer) :
    Prop :=
  ∀ p, isStatic p = false → counts p = owners.count p

/-- The order in which owners are listed does not matter to the counts. -/
theorem CountsOwners.perm {counts : Pointer → ℕ} {owners owners' : List Pointer}
    (h : CountsOwners isStatic counts owners) (hperm : owners.Perm owners') :
    CountsOwners isStatic counts owners' := by
  intro p hp
  rw [h p hp, hperm.count_eq]

/-- What has an owner exists. -/
theorem CountsOwners.touch {counts : Pointer → ℕ} {owners : List Pointer}
    (h : CountsOwners isStatic counts owners) {p : Pointer} (hp : p ∈ owners) :
    BoaLigero.touch isStatic counts p = .ok () := by
  rw [BoaLigero.touch, if_pos]
  by_cases hstatic : isStatic p = true
  · exact .inl hstatic
  · rw [h p (Bool.eq_false_iff.2 hstatic)]
    exact .inr (Nat.ne_of_gt (List.count_pos_iff.2 hp))

/-- Who has an owner can get another one. -/
theorem CountsOwners.retain {counts : Pointer → ℕ} {owners : List Pointer}
    (h : CountsOwners isStatic counts owners) {p : Pointer} (hp : p ∈ owners) :
    ∃ counts', BoaLigero.retain isStatic counts p = .ok counts' ∧
      CountsOwners isStatic counts' (p :: owners) := by
  refine ⟨_, by rw [BoaLigero.retain, h.touch hp]; rfl, ?_⟩
  intro q hq
  by_cases hpq : p = q
  · subst hpq
    simp [hq, h p hq]
  · rw [List.count_cons_of_ne hpq, ← h q hq]
    split
    · rfl
    · exact Function.update_of_ne (Ne.symm hpq) ..

/-- An owner can be dropped. -/
theorem CountsOwners.release {counts : Pointer → ℕ} {owners : List Pointer} {p : Pointer}
    (h : CountsOwners isStatic counts (p :: owners)) :
    ∃ counts', BoaLigero.release isStatic counts p = .ok counts' ∧
      CountsOwners isStatic counts' owners := by
  refine ⟨_, by rw [BoaLigero.release, h.touch List.mem_cons_self]; rfl, ?_⟩
  intro q hq
  have hcount := h q hq
  by_cases hpq : p = q
  · subst hpq
    simp [hq, hcount]
  · rw [List.count_cons_of_ne hpq] at hcount
    rw [← hcount]
    split
    · rfl
    · exact Function.update_of_ne (Ne.symm hpq) ..

/-! ### Words -/

/-- A variant that is read from a word points to what the word points to. -/
theorem pointerOf_asVariant (w : BitVec 64) : (NanBoxed.asVariant w).pointerOf = pointerOf w := by
  rw [NanBoxed.asVariant, pointerOf]
  cases pointerKind w with
  | some kind => rfl
  | none =>
      dsimp only
      repeat' split
      all_goals rfl

/-- The pointer in the word of a value is the value's. -/
theorem pointerOf_box {v : NanVariant} {w : BitVec 64} (h : box v = some w) :
    pointerOf w = v.pointerOf := by
  rw [← pointerOf_asVariant, (represents_box h).variant]
  cases v <;> rfl

/-- A word that is read as a pointer of some kind is a pointer of that kind, to that address. -/
theorem pointerOf_of_asPointer {v : NanVariant} {w : BitVec 64} (h : box v = some w)
    {kind : PointerKind} {addr : BitVec 64} (haddr : NanBoxed.asPointer kind w = some addr) :
    pointerOf w = some (kind, addr) := by
  rw [(represents_box h).pointer] at haddr
  rw [pointerOf_box h]
  cases v with
  | pointer kind' addr' =>
      simp only [NanVariant.canonical, NanVariant.pointer?, Option.ite_none_right_eq_some,
        Option.some.injEq] at haddr
      rw [NanVariant.pointerOf, haddr.1, haddr.2]
  | _ => cases haddr

namespace ValueStore

/-! ### The invariant -/

/-- Every word is that of a value, and the counts are the numbers of owners. -/
structure Owned (isStatic : Pointer → Bool) (s : ValueStore) : Prop where
  boxed : ∀ w ∈ s.words, ∃ v, box v = some w
  counts : CountsOwners isStatic s.counts s.owners

variable {s : ValueStore}

/-- A word that is added owns what it points to, next to the owners that were there. -/
theorem owners_cons_word (s : ValueStore) (w : BitVec 64) :
    { s with words := w :: s.words : ValueStore }.owners.Perm
      ((pointerOf w).toList ++ s.owners) := by
  rw [owners, owners, List.filterMap_cons]
  cases pointerOf w with
  | none => exact .refl _
  | some p => exact List.perm_middle

/-- A word and what is left without it have the owners of all words. -/
theorem owners_erase_word {w : BitVec 64} (hw : w ∈ s.words) :
    s.owners.Perm
      ((pointerOf w).toList ++ { s with words := s.words.erase w : ValueStore }.owners) := by
  refine .trans ?_ (owners_cons_word { s with words := s.words.erase w } w)
  exact ((List.perm_cons_erase hw).filterMap pointerOf).append_left s.handles

/-- A handle and what is left without it have the owners of all handles. -/
theorem owners_erase_handle {p : Pointer} (hp : p ∈ s.handles) :
    s.owners.Perm (p :: { s with handles := s.handles.erase p : ValueStore }.owners) :=
  (List.perm_cons_erase hp).append_right _

/-- A handle is an owner of its pointee. -/
theorem mem_owners_of_handle {p : Pointer} (hp : p ∈ s.handles) : p ∈ s.owners :=
  List.mem_append_left _ hp

/-- A word that holds a pointer is an owner of its pointee. -/
theorem mem_owners_of_word {w : BitVec 64} (hw : w ∈ s.words) {p : Pointer}
    (hp : pointerOf w = some p) : p ∈ s.owners :=
  List.mem_append_right _ (List.mem_filterMap.2 ⟨w, hw, hp⟩)

/-- An allocation gives a new pointee its first owner; the others keep theirs. -/
theorem Owned.allocate (h : s.Owned isStatic) {p : Pointer} (hcount : s.counts p = 0) :
    (s.allocate p).Owned isStatic where
  boxed := h.boxed
  counts := by
    intro q hq
    by_cases hpq : p = q
    · subst hpq
      have hzero : s.owners.count p = 0 := by rw [← h.counts p hq, hcount]
      calc Function.update s.counts p 1 p = s.owners.count p + 1 := by
            rw [Function.update_self, hzero]
        _ = (s.allocate p).owners.count p := List.count_cons_self.symm
    · calc Function.update s.counts p 1 q = s.owners.count q := by
            rw [Function.update_of_ne (Ne.symm hpq), h.counts q hq]
        _ = (s.allocate p).owners.count q := (List.count_cons_of_ne hpq).symm

/-- A static symbol is never counted, so that using one keeps the counts right. -/
theorem Owned.useStatic (h : s.Owned isStatic) {p : Pointer} (hstatic : isStatic p = true) :
    (s.useStatic p).Owned isStatic where
  boxed := h.boxed
  counts := by
    intro q hq
    have hpq : p ≠ q := by
      rintro rfl
      rw [hstatic] at hq
      cases hq
    exact (h.counts q hq).trans (List.count_cons_of_ne hpq).symm

/-- Whoever has an owner can get a handle. -/
theorem Owned.cloneHandle (h : s.Owned isStatic) {p : Pointer} (hp : p ∈ s.owners) :
    ∃ counts, s.cloneHandle isStatic p = .ok { s with counts, handles := p :: s.handles } ∧
      { s with counts, handles := p :: s.handles : ValueStore }.Owned isStatic := by
  obtain ⟨counts, heq, hcounts⟩ := h.counts.retain hp
  exact ⟨counts, by rw [ValueStore.cloneHandle, heq]; rfl, h.boxed, hcounts⟩

/-- Dropping a handle touches a pointee that is there, and leaves the counts right. -/
theorem Owned.dropHandle (h : s.Owned isStatic) {p : Pointer} (hp : p ∈ s.handles) :
    ∃ s', s.dropHandle isStatic p = .ok s' ∧ s'.Owned isStatic := by
  obtain ⟨counts, heq, hcounts⟩ := (h.counts.perm (owners_erase_handle hp)).release
  exact ⟨{ s with counts, handles := s.handles.erase p },
    by rw [ValueStore.dropHandle, heq]; rfl, h.boxed, hcounts⟩

/-- Only pointers may be too large for a word. -/
theorem Owned.plain (h : s.Owned isStatic) {v : NanVariant} (hv : v.pointerOf = none) :
    ∃ s', s.plain v = .ok s' ∧ s'.Owned isStatic := by
  rw [ValueStore.plain]
  split
  · next hnone =>
      obtain ⟨kind, addr, rfl, -⟩ := (box_eq_none_iff v).1 hnone
      cases hv
  · next w hw =>
      refine ⟨_, rfl, List.forall_mem_cons.2 ⟨⟨v, hw⟩, h.boxed⟩, h.counts.perm ?_⟩
      have hnone : pointerOf w = none := (pointerOf_box hw).trans hv
      exact ((owners_cons_word s w).trans (by rw [hnone]; exact .refl _)).symm

/-- A handle that fits is moved into a word. -/
theorem Owned.fromHandle (h : s.Owned isStatic) {p : Pointer} (hp : p ∈ s.handles) :
    (s.fromHandle p = .error .unsupportedPlatform ∧ 2 ^ 48 ≤ p.2.toNat) ∨
      ∃ s', s.fromHandle p = .ok s' ∧ s'.Owned isStatic := by
  rw [ValueStore.fromHandle]
  split
  · next hnone =>
      obtain ⟨kind, addr, heq, hle⟩ := (box_eq_none_iff _).1 hnone
      obtain ⟨-, rfl⟩ := NanVariant.pointer.inj heq
      exact .inl ⟨rfl, hle⟩
  · next w hw =>
      refine .inr ⟨_, rfl, List.forall_mem_cons.2 ⟨⟨_, hw⟩, h.boxed⟩, h.counts.perm ?_⟩
      have hsome : pointerOf w = some p := pointerOf_box hw
      have hword := owners_cons_word { s with handles := s.handles.erase p } w
      rw [hsome] at hword
      exact (owners_erase_handle hp).trans hword.symm

/-- Cloning a word touches a pointee that is there, and the copy is counted as an owner. -/
theorem Owned.clone (h : s.Owned isStatic) {w : BitVec 64} (hw : w ∈ s.words) :
    ∃ s', s.clone isStatic w = .ok s' ∧ s'.Owned isStatic := by
  have hboxed : ∀ w' ∈ w :: s.words, ∃ v, box v = some w' :=
    List.forall_mem_cons.2 ⟨h.boxed w hw, h.boxed⟩
  have howners := owners_cons_word s w
  rw [ValueStore.clone]
  split
  · next hnone =>
      rw [hnone] at howners
      exact ⟨_, rfl, hboxed, h.counts.perm howners.symm⟩
  · next p hp =>
      rw [hp] at howners
      obtain ⟨counts, heq, hcounts⟩ := h.counts.retain (mem_owners_of_word hw hp)
      exact ⟨_, by rw [heq]; rfl, hboxed, hcounts.perm howners.symm⟩

/-- Dropping a word touches a pointee that is there, and one owner less is counted. -/
theorem Owned.drop (h : s.Owned isStatic) {w : BitVec 64} (hw : w ∈ s.words) :
    ∃ s', s.drop isStatic w = .ok s' ∧ s'.Owned isStatic := by
  have hboxed : ∀ w' ∈ s.words.erase w, ∃ v, box v = some w' :=
    fun w' hw' => h.boxed w' (List.mem_of_mem_erase hw')
  have hcounts := h.counts.perm (owners_erase_word hw)
  rw [ValueStore.drop]
  split
  · next hnone =>
      rw [hnone] at hcounts
      exact ⟨_, rfl, hboxed, hcounts⟩
  · next p hp =>
      rw [hp] at hcounts
      obtain ⟨counts, heq, hcounts⟩ := hcounts.release
      exact ⟨_, by rw [heq]; rfl, hboxed, hcounts⟩

/-- Reading a pointer out of a word gives a handle of its own, which is counted. -/
theorem Owned.asPointer (h : s.Owned isStatic) {w : BitVec 64} (hw : w ∈ s.words)
    (kind : PointerKind) : ∃ s', s.asPointer isStatic kind w = .ok s' ∧ s'.Owned isStatic := by
  rw [ValueStore.asPointer]
  split
  · exact ⟨s, rfl, h⟩
  · next addr haddr =>
      obtain ⟨v, hv⟩ := h.boxed w hw
      have hp := pointerOf_of_asPointer hv haddr
      obtain ⟨counts, heq, hs⟩ := h.cloneHandle (mem_owners_of_word hw hp)
      exact ⟨_, heq, hs⟩

/-- Reading the variant of a word gives handles of their own, which are counted. -/
theorem Owned.asVariant (h : s.Owned isStatic) {w : BitVec 64} (hw : w ∈ s.words) :
    ∃ s', s.asVariant isStatic w = .ok s' ∧ s'.Owned isStatic := by
  rw [ValueStore.asVariant, pointerOf_asVariant]
  split
  · exact ⟨s, rfl, h⟩
  · next p hp =>
      obtain ⟨counts, heq, hs⟩ := h.cloneHandle (mem_owners_of_word hw hp)
      exact ⟨_, heq, hs⟩

/-- The truth of a word is read through a pointee that is there, and nothing changes. -/
theorem Owned.toBoolean (h : s.Owned isStatic) {w : BitVec 64} (hw : w ∈ s.words) :
    s.toBoolean isStatic w = .ok s := by
  rw [ValueStore.toBoolean]
  split
  · rfl
  · rfl
  · next p _ hp =>
      rw [h.counts.touch (mem_owners_of_word hw hp)]
      rfl

/-- The handle to mark through is dropped again. -/
theorem Owned.trace (h : s.Owned isStatic) {w : BitVec 64} (hw : w ∈ s.words) :
    ∃ s', s.trace isStatic w = .ok s' ∧ s'.Owned isStatic := by
  rw [ValueStore.trace]
  split
  · exact ⟨s, rfl, h⟩
  · next addr haddr =>
      obtain ⟨v, hv⟩ := h.boxed w hw
      have hp := pointerOf_of_asPointer hv haddr
      obtain ⟨counts, heq, hs⟩ := h.cloneHandle (mem_owners_of_word hw hp)
      obtain ⟨s', heq', hs'⟩ := hs.dropHandle List.mem_cons_self
      exact ⟨s', by rw [heq]; exact heq', hs'⟩

/-- **A step never touches what was freed**, and keeps the counts. It fails only if a pointer does
not fit. -/
theorem Owned.perform (h : s.Owned isStatic) {a : ValueAction} (hallow : s.Allows isStatic a) :
    s.perform isStatic a = .error .unsupportedPlatform ∨
      ∃ s', s.perform isStatic a = .ok s' ∧ s'.Owned isStatic := by
  cases a with
  | allocate p => exact .inr ⟨_, rfl, h.allocate hallow.2⟩
  | useStatic p => exact .inr ⟨_, rfl, h.useStatic hallow⟩
  | cloneHandle p =>
      obtain ⟨counts, heq, hs⟩ := h.cloneHandle (mem_owners_of_handle hallow)
      exact .inr ⟨_, heq, hs⟩
  | dropHandle p => exact .inr (h.dropHandle hallow)
  | plain v => exact .inr (h.plain hallow)
  | fromHandle p => exact (h.fromHandle hallow).imp And.left id
  | clone w => exact .inr (h.clone hallow)
  | drop w => exact .inr (h.drop hallow)
  | asPointer kind w => exact .inr (h.asPointer hallow kind)
  | asVariant w => exact .inr (h.asVariant hallow)
  | toBoolean w => exact .inr ⟨s, h.toBoolean hallow, h⟩
  | trace w => exact .inr (h.trace hallow)

/-! ### Runs -/

/-- Every state that a program reaches is owned. -/
theorem owned_of_reachable (h : (program isStatic).Reachable s) : s.Owned isStatic := by
  refine TransitionSystem.Run.invariant ?_ ?_ h
  · rintro s ⟨hcounts, hhandles, hwords⟩
    constructor
    · intro w hw
      rw [hwords] at hw
      cases hw
    · intro p _
      rw [owners, hhandles, hwords, hcounts]
      rfl
  · rintro s a s' hs - ⟨hallow, hstep⟩
    rcases hs.perform hallow with herror | ⟨s₁, hok, hs₁⟩
    · rw [herror] at hstep
      cases hstep
    · rw [hok] at hstep
      exact Except.ok.inj hstep ▸ hs₁

/-- **Counts are the numbers of owners in every run**: nothing is freed while a handle or a word
leads to it, and nothing is left when the last of them is dropped. No step touches what was freed,
and a word that leads somewhere leads to what exists. -/
theorem owners_of_reachable (h : (program isStatic).Reachable s) :
    (∀ p, isStatic p = false →
      s.counts p = s.handles.count p + (s.words.filterMap pointerOf).count p) ∧
    (∀ a, s.Allows isStatic a → s.perform isStatic a ≠ .error .useAfterFree) ∧
    (∀ w ∈ s.words, ∃ v, Represents v w ∧
      ∀ p, v.pointerOf = some p → isStatic p = true ∨ 0 < s.counts p) := by
  have hs := owned_of_reachable h
  refine ⟨fun p hp => ?_, fun a hallow herror => ?_, fun w hw => ?_⟩
  · rw [hs.counts p hp, owners, List.count_append]
  · rcases hs.perform hallow with hplatform | ⟨s', hok, -⟩
    · rw [hplatform] at herror
      cases herror
    · rw [hok] at herror
      cases herror
  · obtain ⟨v, hv⟩ := hs.boxed w hw
    have hrepresents := represents_box hv
    refine ⟨v.canonical, hrepresents, fun p hp => ?_⟩
    rw [← hrepresents.variant, pointerOf_asVariant] at hp
    by_cases hstatic : isStatic p = true
    · exact .inl hstatic
    · rw [hs.counts p (Bool.eq_false_iff.2 hstatic)]
      exact .inr (List.count_pos_iff.2 (mem_owners_of_word hw hp))

/-- A state that an allowed action leads to is reachable. -/
theorem reachable_next (h : (program isStatic).Reachable s) {a : ValueAction}
    (hallow : s.Allows isStatic a) {s' : ValueStore} (hok : s.perform isStatic a = .ok s') :
    (program isStatic).Reachable s' :=
  h.next trivial ⟨hallow, hok⟩

/-- An object that a word and a handle lead to. -/
def twoOwners : ValueStore where
  counts := Function.update (Function.update 0 (.object, 16#64) 1) (.object, 16#64) 2
  handles := [(.object, 16#64)]
  words := [16#64 ||| maskPointer .object]

/-- Two owners of one object, made by an allocation and a clone, are a reachable state. -/
theorem reachable_twoOwners : (program fun _ => false).Reachable twoOwners := by
  have hstart : (program fun _ => false).Reachable ⟨0, [], []⟩ := .start ⟨rfl, rfl, rfl⟩
  have hallocate := reachable_next hstart (a := .allocate (.object, 16#64)) ⟨rfl, rfl⟩ rfl
  have hword := reachable_next hallocate (a := .fromHandle (.object, 16#64)) List.mem_cons_self rfl
  exact reachable_next hword (a := .asVariant (16#64 ||| maskPointer .object))
    List.mem_cons_self rfl

/-- With two owners the pointee is counted twice, so that dropping one of them frees nothing that is
used. -/
theorem twoOwners_owners : twoOwners.counts (.object, 16#64) = 1 + 1 ∧
    twoOwners.perform (fun _ => false) (.drop (16#64 ||| maskPointer .object)) ≠
      .error .useAfterFree := by
  obtain ⟨hcounts, hsafe, -⟩ := owners_of_reachable reachable_twoOwners
  exact ⟨hcounts (.object, 16#64) rfl, hsafe _ List.mem_cons_self⟩

end ValueStore

end BoaLigero
