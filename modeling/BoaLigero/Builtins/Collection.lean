import BoaLigero.Util.Tombstone

/-!
# Collections Read by Position

A `Map` or a `Set` is read by loops that keep a numeric position: the `next` method of its
iterators, `forEach` with a callback of the program, and `for_each_native` with a callback of
the host. Between two items that such a loop gives away, everything may happen to the
collection, but a lock is held on it. These loops do not count their rounds; the loops that do, and
can be limited by the host, fill a new `Map` or `Set` from an iterator and are not modelled.

## Main results

* `runLoop_eq_next` — run for long enough, a loop gives the next present entry, or ends.
* `runLoop_native` — `for_each_native` never gets past an empty entry.
* `runLoop_eq_none` — a loop that takes more rounds than there are entries never ends.
-/

namespace BoaLigero.Builtins

/-- What one round of a reading loop does: give an item away and go on at an index after it,
go on at once, or return. -/
inductive LoopStep (I : Type)
  | yields (item : I) (index : ℕ)
  | continues (index : ℕ)
  | returns

/-- Who reads: an iterator, a running `forEach` or a running `for_each_native`. -/
inductive CursorKind
  | iterator
  | forEach
  | forEachNative
deriving DecidableEq

section Loops

variable {I : Type} (fullLen : ℕ) (getIndex : ℕ → Option I)

/-- A round of the loop in `next`: the index is advanced before the end is looked for. -/
def nextRound (index : ℕ) : LoopStep I :=
  match getIndex index with
  | some item => .yields item (index + 1)
  | none => if fullLen ≤ index + 1 then .returns else .continues (index + 1)

/-- A round of the loop in `forEach`. -/
def forEachRound (index : ℕ) : LoopStep I :=
  if index < fullLen then
    match getIndex index with
    | some item => .yields item (index + 1)
    | none => .continues (index + 1)
  else .returns

/-- A round of the loop in `for_each_native`, which takes its next round without advancing
the index when the entry is empty. -/
def forEachNativeRound (index : ℕ) : LoopStep I :=
  if index < fullLen then
    match getIndex index with
    | some item => .yields item (index + 1)
    | none => .continues index
  else .returns

/-- The loop of a reader. -/
def CursorKind.round : CursorKind → ℕ → LoopStep I
  | .iterator => nextRound fullLen getIndex
  | .forEach => forEachRound fullLen getIndex
  | .forEachNative => forEachNativeRound fullLen getIndex

end Loops

/-- Run a loop until it gives an item away or returns, for a number of rounds at most. -/
def runLoop {I : Type} (round : ℕ → LoopStep I) : ℕ → ℕ → Option (Option (I × ℕ))
  | 0, _ => none
  | fuel + 1, index =>
      match round index with
      | .yields item index => some (some (item, index))
      | .continues index => runLoop round fuel index
      | .returns => some none

section Spec

open Tombstone

variable {I : Type} {kind : CursorKind} {slots : List (Option I)}

/-- The entry at an index, if there is one. -/
abbrev entryAt (slots : List (Option I)) (index : ℕ) : Option I := slots[index]?.join

theorem round_of_some {index : ℕ} {item : I} (h : slots[index]? = some (some item)) :
    kind.round slots.length (entryAt slots) index = .yields item (index + 1) := by
  have hlt : index < slots.length := (List.getElem?_eq_some_iff.mp h).1
  have hentry : entryAt slots index = some item := by rw [entryAt, h, Option.join_some]
  cases kind with
  | iterator => simp [CursorKind.round, nextRound, hentry]
  | forEach => simp [CursorKind.round, forEachRound, hentry, hlt]
  | forEachNative => simp [CursorKind.round, forEachNativeRound, hentry, hlt]

theorem round_of_length_le {index : ℕ} (h : slots.length ≤ index) :
    kind.round slots.length (entryAt slots) index = .returns := by
  have hlt : ¬ index < slots.length := Nat.not_lt.mpr h
  cases kind with
  | iterator =>
      have hentry : entryAt slots index = none := by
        rw [entryAt, List.getElem?_eq_none h, Option.join_none]
      simp [CursorKind.round, nextRound, hentry, Nat.le_succ_of_le h]
  | forEach => simp [CursorKind.round, forEachRound, hlt]
  | forEachNative => simp [CursorKind.round, forEachNativeRound, hlt]

/-- An empty entry is passed over, where the loop does not return because it is the last. -/
theorem round_of_none {index : ℕ} (h : slots[index]? = some none) (hkind : kind ≠ .forEachNative) :
    kind.round slots.length (entryAt slots) index = .continues (index + 1) ∨
      slots.length ≤ index + 1 ∧ kind.round slots.length (entryAt slots) index = .returns := by
  have hlt : index < slots.length := (List.getElem?_eq_some_iff.mp h).1
  have hentry : entryAt slots index = none := by rw [entryAt, h, Option.join_some]
  cases kind with
  | iterator =>
      by_cases hend : slots.length ≤ index + 1
      · exact .inr ⟨hend, by simp [CursorKind.round, nextRound, hentry, hend]⟩
      · exact .inl (by simp only [CursorKind.round, nextRound, hentry, if_neg hend])
  | forEach => exact .inl (by simp [CursorKind.round, forEachRound, hentry, hlt])
  | forEachNative => exact absurd rfl hkind

/-- **A loop finds the next entry**, unless it is `for_each_native` in front of an empty
one. -/
theorem runLoop_eq_next {fuel index : ℕ} (hfuel : slots.length - index < fuel)
    (hkind : kind = .forEachNative → slots[index]? ≠ some none) :
    runLoop (kind.round slots.length (entryAt slots)) fuel index = some (next slots index) := by
  induction fuel generalizing index with
  | zero => cases hfuel
  | succ fuel ih =>
      rw [runLoop]
      cases hslot : slots[index]? with
      | none =>
          have hle : slots.length ≤ index := List.getElem?_eq_none_iff.mp hslot
          rw [round_of_length_le hle, next_of_length_le hle]
      | some slot =>
          have hlt : index < slots.length := (List.getElem?_eq_some_iff.mp hslot).1
          cases slot with
          | some item => rw [round_of_some hslot, next_of_some hslot]
          | none =>
              have hne : kind ≠ .forEachNative := fun hk => hkind hk hslot
              rw [next_of_none hslot]
              rcases round_of_none hslot hne with hround | ⟨hend, hround⟩
              · rw [hround]
                exact ih (by omega) fun hk => absurd hk hne
              · rw [hround, next_of_length_le hend]

/-- **`for_each_native` never gets past an empty entry**, however many rounds it takes. -/
theorem runLoop_native {index : ℕ} (h : slots[index]? = some none) (fuel : ℕ) :
    runLoop (CursorKind.forEachNative.round slots.length (entryAt slots)) fuel index = none := by
  have hlt : index < slots.length := (List.getElem?_eq_some_iff.mp h).1
  have hentry : entryAt slots index = none := by rw [entryAt, h, Option.join_some]
  have hround : CursorKind.forEachNative.round slots.length (entryAt slots) index
      = .continues index := by
    simp [CursorKind.round, forEachNativeRound, hentry, hlt]
  induction fuel with
  | zero => rfl
  | succ fuel ih => rw [runLoop, hround]; exact ih

/-- A loop that has not ended after a round for each entry and one more never ends. -/
theorem runLoop_eq_none {index : ℕ}
    (h : runLoop (kind.round slots.length (entryAt slots)) (slots.length + 1) index = none)
    (fuel : ℕ) : runLoop (kind.round slots.length (entryAt slots)) fuel index = none := by
  by_cases hkind : kind = .forEachNative → slots[index]? ≠ some none
  · rw [runLoop_eq_next (by omega) hkind] at h
    cases h
  · simp only [Classical.not_imp, not_not] at hkind
    obtain ⟨rfl, hslot⟩ := hkind
    exact runLoop_native hslot fuel

end Spec

/-! ### The operations -/

/-- The operations of a collection that loops read by position and lock. -/
class LockedCollection (C : Type) (K V : outParam Type) where
  /-- Give a key its value. -/
  insert : C → K → V → C
  /-- Take a key out. -/
  remove : C → K → C
  /-- Take everything out. -/
  clear : C → C
  /-- Count one more reader. -/
  lock : C → C
  /-- Count one reader less. -/
  unlock : C → C
  /-- The number of readers, as the collection counts them. -/
  locks : C → UInt32
  /-- The number of entries, the empty ones included. -/
  fullLen : C → ℕ
  /-- The entry at an index, if it is not empty. -/
  getIndex : C → ℕ → Option (K × V)
  /-- The loops that read the collection. -/
  round : CursorKind → C → ℕ → LoopStep (K × V)

open LockedCollection Tombstone in
/-- What the operations do to the slots of a collection: while it is locked every slot keeps
its position. -/
class LawfulLockedCollection (C : Type) (K V : outParam Type) [DecidableEq K]
    extends LockedCollection C K V where
  /-- The entries by position, the empty ones included. -/
  slots : C → List (Option (K × V))
  slots_insert : ∀ c k v, slots (insert c k v) = put (slots c) k v
  slots_remove : ∀ c k, locks c ≠ 0 → slots (remove c k) = erase (slots c) k
  present_remove : ∀ c k, present (slots (remove c k)) = Assoc.remove (present (slots c)) k
  slots_clear : ∀ c, slots (clear c) = []
  slots_lock : ∀ c, slots (lock c) = slots c
  slots_unlock : ∀ c, locks c ≠ 1 → slots (unlock c) = slots c
  present_unlock : ∀ c, present (slots (unlock c)) = present (slots c)
  locks_insert : ∀ c k v, locks (insert c k v) = locks c
  locks_remove : ∀ c k, locks (remove c k) = locks c
  locks_clear : ∀ c, locks (clear c) = locks c
  locks_lock : ∀ c, locks (lock c) = locks c + 1
  locks_unlock : ∀ c, locks (unlock c) = locks c - 1
  fullLen_eq : ∀ c, fullLen c = (slots c).length
  getIndex_eq : ∀ c i, getIndex c i = entryAt (slots c) i
  round_eq : ∀ kind c, round kind c = kind.round (fullLen c) (getIndex c)

end BoaLigero.Builtins
