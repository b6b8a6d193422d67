import Mathlib.Data.UInt
import BoaLigero.Builtins.OrderedMap
import BoaLigero.Builtins.OrderedSet
import BoaLigero.Util.Run

/-!
# Live Iteration

A collection that is changed while iterators and running `forEach` calls read it, beside a
reference: a list to which entries are only added, whose entries are erased by emptying them,
and whose readers take the next entry that is not empty.

Readers are numbered in the order in which they begin. A reader that is advanced is an
iterator whose `next` is called, or a `forEach` whose callback returns; a reader is closed
when its iterator is collected or its callback throws.

## Main results

* `related_perform` — an undisturbed step keeps the collection and the reference related.
* `live_iteration` — in undisturbed runs every reader gives away what the reference does.
-/

namespace BoaLigero.Builtins

open Tombstone LockedCollection

/-! ### The collection and its readers -/

/-- Whether a reader goes on: an endless loop never gives control back. -/
inductive CursorStatus
  | running
  | finished
  | spinning
deriving DecidableEq

/-- A reader: where it goes on, and what it has given away. -/
structure Cursor (I : Type) where
  kind : CursorKind
  index : ℕ
  status : CursorStatus
  yielded : List I
deriving DecidableEq

/-- What happens to a collection and its readers. -/
inductive Operation (K V : Type)
  | insert (k : K) (v : V)
  | remove (k : K)
  | clear
  | begins (kind : CursorKind)
  | advances (id : ℕ)
  | closes (id : ℕ)

/-- A collection with its readers. -/
structure World (C I : Type) where
  collection : C
  cursors : List (Cursor I)

section Collections

variable {C K V : Type} [LockedCollection C K V]

/-- Run the loop of a reader; it holds the lock until it returns. -/
def World.advance (w : World C (K × V)) (id : ℕ) (c : Cursor (K × V)) : World C (K × V) :=
  match runLoop (round c.kind w.collection) (fullLen w.collection + 1) c.index with
  | some (some (item, index)) =>
      { w with
        cursors := w.cursors.set id { c with index := index, yielded := c.yielded ++ [item] } }
  | some none =>
      { collection := unlock w.collection
        cursors := w.cursors.set id { c with status := .finished } }
  | none => { w with cursors := w.cursors.set id { c with status := .spinning } }

/-- Perform an operation. A reader that has finished stays so. -/
def World.perform (w : World C (K × V)) : Operation K V → World C (K × V)
  | .insert k v => { w with collection := insert w.collection k v }
  | .remove k => { w with collection := remove w.collection k }
  | .clear => { w with collection := clear w.collection }
  | .begins kind =>
      { collection := lock w.collection
        cursors := w.cursors ++ [⟨kind, 0, .running, []⟩] }
  | .advances id =>
      match w.cursors[id]? with
      | some c => if c.status = .running then w.advance id c else w
      | none => w
  | .closes id =>
      match w.cursors[id]? with
      | some c =>
          if c.status = .running then
            { collection := unlock w.collection
              cursors := w.cursors.set id { c with status := .finished } }
          else w
      | none => w

end Collections

/-! ### The reference -/

/-- The reference: a list that only grows, with its readers. -/
structure Reference (K V : Type) where
  entries : List (Option (K × V))
  cursors : List (Cursor (K × V))
deriving DecidableEq

section References

variable {K V : Type} [DecidableEq K]

/-- The reader takes the next entry that is not empty, and ends at the end of the list. -/
def Reference.advance (r : Reference K V) (id : ℕ) (c : Cursor (K × V)) : Reference K V :=
  match next r.entries c.index with
  | some (item, index) =>
      { r with
        cursors := r.cursors.set id { c with index := index, yielded := c.yielded ++ [item] } }
  | none => { r with cursors := r.cursors.set id { c with status := .finished } }

/-- Perform an operation on the reference. -/
def Reference.perform (r : Reference K V) : Operation K V → Reference K V
  | .insert k v => { r with entries := put r.entries k v }
  | .remove k => { r with entries := erase r.entries k }
  | .clear => { r with entries := r.entries.map fun _ => none }
  | .begins kind => { r with cursors := r.cursors ++ [⟨kind, 0, .running, []⟩] }
  | .advances id =>
      match r.cursors[id]? with
      | some c => if c.status = .running then r.advance id c else r
      | none => r
  | .closes id =>
      match r.cursors[id]? with
      | some c =>
          if c.status = .running then
            { r with cursors := r.cursors.set id { c with status := .finished } }
          else r
      | none => r

end References

/-! ### Side by side -/

section System

variable (C : Type) {K V : Type} [DecidableEq K] [LawfulLockedCollection C K V]

/-- A collection and the reference, with any contents and no readers at first, perform the
same operations. -/
def liveIteration : TransitionSystem (World C (K × V) × Reference K V) (Operation K V) where
  init := fun (w, r) => locks w.collection = 0 ∧ w.cursors = [] ∧
    r.entries = LawfulLockedCollection.slots w.collection ∧ r.cursors = []
  step := fun (w, r) op s => s = (w.perform op, r.perform op)

end System

variable {C K V : Type}

/-- Every reader has given away the entries that the reference gives away, and has ended when
the reference has. -/
def FollowsReference (s : World C (K × V) × Reference K V) : Prop :=
  s.1.cursors.map (fun c => (c.yielded, c.status)) =
    s.2.cursors.map (fun c => (c.yielded, c.status))

section Condition

variable [DecidableEq K] [LawfulLockedCollection C K V]

/-- A step does not disturb a reader: no new key is added while a running reader stands
behind the end of the storage, no `for_each_native` goes on in front of an empty entry, and
no reader begins while the lock counter is at its maximum. -/
def Undisturbing (s : World C (K × V) × Reference K V) : Operation K V → Prop
  | .insert k _ => k ∉ Assoc.keys (present (LawfulLockedCollection.slots s.1.collection)) →
      ∀ c ∈ s.1.cursors, c.status = .running → c.index ≤ fullLen s.1.collection
  | .advances id => ∀ c ∈ s.1.cursors[id]?, c.status = .running → c.kind = .forEachNative →
      c.index < fullLen s.1.collection → (getIndex s.1.collection c.index).isSome = true
  | .begins _ => locks s.1.collection ≠ 2 ^ 32 - 1
  | _ => True

instance (s : World C (K × V) × Reference K V) :
    (op : Operation K V) → Decidable (Undisturbing s op)
  | .insert .. => inferInstanceAs (Decidable (_ → ∀ c ∈ s.1.cursors, _))
  | .advances id => inferInstanceAs (Decidable (∀ c ∈ s.1.cursors[id]?, _))
  | .begins _ => inferInstanceAs (Decidable (_ ≠ _))
  | .remove _ | .clear | .closes _ => inferInstanceAs (Decidable True)

end Condition

/-! ### The invariant -/

/-- A reader of the collection and one of the reference agree, and have the same entries
ahead of them. -/
structure Agrees (slots entries : List (Option (K × V))) (c c' : Cursor (K × V)) : Prop where
  yielded : c.yielded = c'.yielded
  status : c.status = c'.status
  sound : c.status ≠ .spinning
  ahead : c.status = .running → remaining slots c.index = remaining entries c'.index
  bound : c'.index ≤ entries.length

/-- The number of running readers. -/
def readers (cursors : List (Cursor (K × V))) : ℕ :=
  cursors.countP fun c => c.status = .running

theorem readers_concat (cursors : List (Cursor (K × V))) (c : Cursor (K × V))
    (hc : c.status = .running) : readers (cursors ++ [c]) = readers cursors + 1 := by
  simp [readers, hc]

/-- Replacing a running reader by one that is still running. -/
theorem readers_set_running {cursors : List (Cursor (K × V))} {id : ℕ} {c d : Cursor (K × V)}
    (hget : cursors[id]? = some c) (hc : c.status = .running) (hd : d.status = .running) :
    readers (cursors.set id d) = readers cursors := by
  obtain ⟨hlt, hval⟩ := List.getElem?_eq_some_iff.mp hget
  have hpos : 0 < cursors.countP fun c => c.status = .running :=
    List.countP_pos_iff.mpr ⟨c, List.mem_of_getElem? hget, by simpa using hc⟩
  simp only [readers, List.countP_set hlt, hval, hc, hd, decide_true, if_true]
  omega

/-- Replacing a running reader by one that has ended. -/
theorem readers_set_finished {cursors : List (Cursor (K × V))} {id : ℕ} {c d : Cursor (K × V)}
    (hget : cursors[id]? = some c) (hc : c.status = .running) (hd : d.status = .finished) :
    readers (cursors.set id d) + 1 = readers cursors := by
  obtain ⟨hlt, hval⟩ := List.getElem?_eq_some_iff.mp hget
  have hpos : 0 < cursors.countP fun c => c.status = .running :=
    List.countP_pos_iff.mpr ⟨c, List.mem_of_getElem? hget, by simpa using hc⟩
  simp only [readers, List.countP_set hlt, hval, hc, hd, decide_true, if_true]
  simp only [reduceCtorEq, decide_false, Bool.false_eq_true, if_false]
  omega

section Invariant

variable [DecidableEq K] [LawfulLockedCollection C K V]

open LawfulLockedCollection

/-- The collection and the reference hold the same entries and their readers agree; the
running readers are counted by the lock. -/
structure Related (w : World C (K × V)) (r : Reference K V) : Prop where
  contents : present (slots w.collection) = present r.entries
  length : w.cursors.length = r.cursors.length
  cursors : ∀ (id : ℕ) c c', w.cursors[id]? = some c → r.cursors[id]? = some c' →
    Agrees (slots w.collection) r.entries c c'
  locked : (locks w.collection).toNat = readers w.cursors

variable {w : World C (K × V)} {r : Reference K V}

theorem Related.follows (h : Related w r) : FollowsReference (w, r) := by
  refine List.ext_getElem? fun id => ?_
  rw [List.getElem?_map, List.getElem?_map]
  cases hc : w.cursors[id]? with
  | none =>
      have hlen : r.cursors.length ≤ id := h.length ▸ List.getElem?_eq_none_iff.mp hc
      rw [List.getElem?_eq_none hlen]
  | some c =>
      have hlt : id < r.cursors.length := h.length ▸ (List.getElem?_eq_some_iff.mp hc).1
      have hc' := List.getElem?_eq_getElem hlt
      have hagree := h.cursors id c _ hc hc'
      rw [hc', Option.map_some, Option.map_some, hagree.yielded, hagree.status]

/-- A running reader of the collection has its like in the reference. -/
theorem Related.exists_cursor (h : Related w r) {id : ℕ} {c : Cursor (K × V)}
    (hc : w.cursors[id]? = some c) : ∃ c', r.cursors[id]? = some c' := by
  have hlt : id < r.cursors.length := h.length ▸ (List.getElem?_eq_some_iff.mp hc).1
  exact ⟨_, List.getElem?_eq_getElem hlt⟩

/-- The collection and the list change, the readers stay. -/
theorem Related.change (h : Related w r) {collection : C} {entries : List (Option (K × V))}
    (hcontents : present (slots collection) = present entries)
    (hlocks : locks collection = locks w.collection) (hlen : r.entries.length ≤ entries.length)
    (hahead : ∀ c ∈ w.cursors, c.status = .running → ∀ i, i ≤ r.entries.length →
      remaining (slots w.collection) c.index = remaining r.entries i →
      remaining (slots collection) c.index = remaining entries i) :
    Related { w with collection := collection } { r with entries := entries } where
  contents := hcontents
  length := h.length
  cursors id c c' hc hc' := by
    have hold := h.cursors id c c' hc hc'
    exact ⟨hold.yielded, hold.status, hold.sound, fun hrun =>
      hahead c (List.mem_of_getElem? hc) hrun _ hold.bound (hold.ahead hrun),
      Nat.le_trans hold.bound hlen⟩
  locked := by rw [hlocks]; exact h.locked

/-- A reader changes and goes on. -/
theorem Related.set (h : Related w r) {id : ℕ} {c c' d d' : Cursor (K × V)}
    (hc : w.cursors[id]? = some c) (hc' : r.cursors[id]? = some c') (hrun : c.status = .running)
    (hd : Agrees (slots w.collection) r.entries d d') (hrun' : d.status = .running) :
    Related { w with cursors := w.cursors.set id d } { r with cursors := r.cursors.set id d' } where
  contents := h.contents
  length := by simpa using h.length
  cursors i e e' he he' := by
    have hlt := (List.getElem?_eq_some_iff.mp hc).1
    have hlt' := (List.getElem?_eq_some_iff.mp hc').1
    by_cases hi : id = i
    · subst hi
      rw [List.getElem?_set_self hlt] at he
      rw [List.getElem?_set_self hlt'] at he'
      cases he
      cases he'
      exact hd
    · rw [List.getElem?_set_ne hi] at he he'
      exact h.cursors i e e' he he'
  locked := by rw [readers_set_running hc hrun hrun']; exact h.locked

/-- A reader ends and gives its lock back. -/
theorem Related.finish (h : Related w r) {id : ℕ} {c c' : Cursor (K × V)}
    (hc : w.cursors[id]? = some c) (hc' : r.cursors[id]? = some c') (hrun : c.status = .running) :
    Related
      { collection := unlock w.collection
        cursors := w.cursors.set id { c with status := .finished } }
      { r with cursors := r.cursors.set id { c' with status := .finished } } := by
  have hcount : readers (w.cursors.set id { c with status := .finished }) + 1 = readers w.cursors :=
    readers_set_finished hc hrun rfl
  have hlocked := h.locked
  have hunlock : (locks (unlock w.collection)).toNat + 1 = (locks w.collection).toNat := by
    rw [locks_unlock, UInt32.toNat_sub_of_le _ _ (UInt32.le_iff_toNat_le.mpr ?_)]
    · change _ - 1 + 1 = _
      omega
    · change 1 ≤ _
      omega
  have hlocked' : (locks (unlock w.collection)).toNat
      = readers (w.cursors.set id { c with status := .finished }) := by omega
  refine ⟨(present_unlock _).trans h.contents, by simpa using h.length, fun i e e' he he' => ?_,
    hlocked'⟩
  have hlt := (List.getElem?_eq_some_iff.mp hc).1
  have hlt' := (List.getElem?_eq_some_iff.mp hc').1
  by_cases hi : id = i
  · subst hi
    rw [List.getElem?_set_self hlt] at he
    rw [List.getElem?_set_self hlt'] at he'
    cases he
    cases he'
    have hold := h.cursors id c c' hc hc'
    exact ⟨hold.yielded, rfl, (nomatch ·), (nomatch ·), hold.bound⟩
  · rw [List.getElem?_set_ne hi] at he'
    have he'' := he
    rw [List.getElem?_set_ne hi] at he
    have hold := h.cursors i e e' he he'
    refine ⟨hold.yielded, hold.status, hold.sound, fun hrun' => ?_, hold.bound⟩
    -- Another reader is running, so this was not the last lock.
    have hpos : 0 < readers (w.cursors.set id { c with status := .finished }) :=
      List.countP_pos_iff.mpr ⟨e, List.mem_of_getElem? he'', by simpa using hrun'⟩
    have hne : locks w.collection ≠ 1 := by
      intro hone
      rw [hone] at hlocked
      change 1 = _ at hlocked
      omega
    simp only [slots_unlock _ hne]
    exact hold.ahead hrun'

/-- The loop of a reader over the slots. -/
theorem runLoop_round {kind : CursorKind} {collection : C} {index : ℕ}
    (hkind : kind = .forEachNative → index < fullLen collection →
      (getIndex collection index).isSome = true) :
    runLoop (round kind collection) (fullLen collection + 1) index
      = some (next (slots collection) index) := by
  have hget : (getIndex collection : ℕ → Option (K × V)) = entryAt (slots collection) :=
    funext fun i => getIndex_eq collection i
  rw [LawfulLockedCollection.round_eq, fullLen_eq, hget]
  refine runLoop_eq_next (by omega) fun hnative hslot => ?_
  have hlt : index < (slots collection).length := (List.getElem?_eq_some_iff.mp hslot).1
  have hsome := hkind hnative ((fullLen_eq collection).symm ▸ hlt)
  rw [getIndex_eq, entryAt, hslot] at hsome
  cases hsome

/-- A running reader takes the same entry as its like in the reference. -/
theorem Related.advance (h : Related w r) {id : ℕ} {c c' : Cursor (K × V)}
    (hc : w.cursors[id]? = some c) (hc' : r.cursors[id]? = some c') (hrun : c.status = .running)
    (hkind : c.kind = .forEachNative → c.index < fullLen w.collection →
      (getIndex w.collection c.index).isSome = true) :
    Related (w.advance id c) (r.advance id c') := by
  have hold := h.cursors id c c' hc hc'
  have hahead := hold.ahead hrun
  rw [World.advance, Reference.advance, runLoop_round hkind]
  cases hnext : next (slots w.collection) c.index with
  | none =>
      have hnext' : next r.entries c'.index = none :=
        next_eq_none_iff.mpr (hahead ▸ next_eq_none_iff.mp hnext)
      rw [hnext']
      exact h.finish hc hc' hrun
  | some found =>
      obtain ⟨item, index⟩ := found
      have hrest := (remaining_of_next hnext).1
      cases hnext' : next r.entries c'.index with
      | none =>
          rw [hahead, next_eq_none_iff.mp hnext'] at hrest
          cases hrest
      | some found' =>
          obtain ⟨item', index'⟩ := found'
          obtain ⟨hrest', hbound⟩ := remaining_of_next hnext'
          obtain ⟨rfl, htail⟩ := List.cons.inj (hrest.symm.trans (hahead.trans hrest'))
          have hnew : Agrees (slots w.collection) r.entries
              { c with index := index, yielded := c.yielded ++ [item] }
              { c' with index := index', yielded := c'.yielded ++ [item] } :=
            ⟨by rw [hold.yielded], hold.status, hold.sound, fun _ => htail, hbound⟩
          exact h.set hc hc' hrun hnew hrun

/-- **An undisturbed step keeps the collection and the reference related.** -/
theorem related_perform (h : Related w r) {op : Operation K V} (hop : Undisturbing (w, r) op) :
    Related (w.perform op) (r.perform op) := by
  cases op with
  | insert k v =>
      have hkeys : k ∈ Assoc.keys (present (slots w.collection)) ↔
          k ∈ Assoc.keys (present r.entries) := by rw [h.contents]
      refine h.change ?_ (locks_insert ..) (length_le_put ..) fun c hc hrun i hi hahead => ?_
      · rw [slots_insert, present_put, present_put, h.contents]
      · rw [slots_insert]
        by_cases hk : k ∈ Assoc.keys (present r.entries)
        · rw [remaining_put_of_mem (hkeys.mpr hk), remaining_put_of_mem hk, hahead]
        · have hle : c.index ≤ (slots w.collection).length :=
            fullLen_eq w.collection ▸ hop (fun hk' => hk (hkeys.mp hk')) c hc hrun
          rw [remaining_put_of_notMem (fun hk' => hk (hkeys.mp hk')) v hle,
            remaining_put_of_notMem hk v hi, hahead]
  | remove k =>
      refine h.change ?_ (locks_remove ..) (Nat.le_of_eq (length_erase ..).symm)
        fun c hc hrun i _ hahead => ?_
      · rw [present_remove, h.contents, ← remaining_zero, ← remaining_zero, remaining_erase]
      · have hpos : 0 < readers w.cursors :=
          List.countP_pos_iff.mpr ⟨c, hc, by simpa using hrun⟩
        have hlock : locks w.collection ≠ 0 := by
          intro hzero
          have hlocked := h.locked
          rw [hzero] at hlocked
          change 0 = _ at hlocked
          omega
        rw [slots_remove _ _ hlock, remaining_erase, remaining_erase, hahead]
  | clear =>
      refine h.change ?_ (locks_clear ..) (Nat.le_of_eq (List.length_map ..).symm)
        fun c _ _ i _ _ => ?_
      · rw [slots_clear, ← remaining_zero, ← remaining_zero, remaining_mapNone]
        rfl
      · rw [slots_clear, remaining_mapNone, remaining_of_length_le (Nat.zero_le _)]
  | begins kind =>
      have hlocked := h.locked
      refine ⟨?_, by simpa [World.perform, Reference.perform] using h.length,
        fun id c c' hc hc' => ?_, ?_⟩
      · simpa only [World.perform, Reference.perform, slots_lock] using h.contents
      · simp only [World.perform, Reference.perform] at hc hc' ⊢
        rw [slots_lock]
        rw [List.getElem?_append] at hc hc'
        rw [h.length] at hc
        split at hc
        · next hlt =>
          rw [if_pos hlt] at hc'
          exact h.cursors id c c' hc hc'
        · next hlt =>
          rw [if_neg hlt] at hc'
          have hnew := List.mem_singleton.mp (List.mem_of_getElem? hc)
          have hnew' := List.mem_singleton.mp (List.mem_of_getElem? hc')
          subst hnew hnew'
          refine ⟨rfl, rfl, (nomatch ·), fun _ => ?_, Nat.zero_le _⟩
          rw [remaining_zero, remaining_zero, h.contents]
      · have hmax : (locks w.collection).toNat ≠ 2 ^ 32 - 1 := fun heq =>
          hop (UInt32.toNat_inj.mp heq)
        have hword := (locks w.collection).toNat_lt
        show (locks (lock w.collection)).toNat = readers (w.cursors ++ [_])
        rw [readers_concat _ _ rfl, locks_lock, UInt32.toNat_add]
        change (_ + 1) % _ = _
        omega
  | advances id =>
      rw [World.perform, Reference.perform]
      cases hc : w.cursors[id]? with
      | none =>
          have hlen : r.cursors.length ≤ id := h.length ▸ List.getElem?_eq_none_iff.mp hc
          rw [List.getElem?_eq_none hlen]
          exact h
      | some c =>
          obtain ⟨c', hc'⟩ := h.exists_cursor hc
          have hstatus := (h.cursors id c c' hc hc').status
          simp only [hc', ← hstatus]
          split
          · next hrun => exact h.advance hc hc' hrun (hop c hc hrun)
          · exact h
  | closes id =>
      rw [World.perform, Reference.perform]
      cases hc : w.cursors[id]? with
      | none =>
          have hlen : r.cursors.length ≤ id := h.length ▸ List.getElem?_eq_none_iff.mp hc
          rw [List.getElem?_eq_none hlen]
          exact h
      | some c =>
          obtain ⟨c', hc'⟩ := h.exists_cursor hc
          have hstatus := (h.cursors id c c' hc hc').status
          simp only [hc', ← hstatus]
          split
          · next hrun => exact h.finish hc hc' hrun
          · exact h

end Invariant

/-! ### Runs -/

section Runs

variable (C) [DecidableEq K] [LawfulLockedCollection C K V]

/-- In undisturbed runs every reader gives away what the reference does. -/
theorem follows_of_run {s : World C (K × V) × Reference K V}
    (hrun : (liveIteration C).Run Undisturbing s) : FollowsReference s := by
  have hrelated : Related s.1 s.2 := by
    refine hrun.invariant (I := fun s => Related s.1 s.2) ?_ ?_
    · rintro ⟨w, r⟩ ⟨hlocks, hcursors, hentries, hcursors'⟩
      refine ⟨congrArg present hentries.symm, by rw [hcursors, hcursors'], ?_, ?_⟩
      · intro id c c' hc _
        rw [hcursors] at hc
        cases hc
      · rw [hlocks, hcursors]
        rfl
    · rintro ⟨w, r⟩ op s' h hop rfl
      exact related_perform h hop
  exact hrelated.follows

end Runs

/-- **Live iteration of `Map` and `Set`.** Whatever was in the collection at first and in
whatever order operations and steps of readers follow each other, as long as no step disturbs
a reader, every iterator and every `forEach` gives away the entries that the reference
prescribes, in its order, and ends when the reference does. -/
theorem live_iteration (K V : Type) [DecidableEq K] :
    (∀ s, (liveIteration (OrderedMap K V)).Run Undisturbing s → FollowsReference s) ∧
      ∀ s, (liveIteration (OrderedSet K)).Run Undisturbing s → FollowsReference s :=
  ⟨fun _ => follows_of_run _, fun _ => follows_of_run _⟩

/-! ### Two runs -/

section Examples

variable [DecidableEq K]

instance [DecidableEq V] (s : World C (K × V) × Reference K V) : Decidable (FollowsReference s) :=
  inferInstanceAs (Decidable (_ = _))

variable [LawfulLockedCollection C K V]

/-- Perform operations that pass a check on an empty collection and its reference. -/
def performAll (new : C) (check : World C (K × V) × Reference K V → Operation K V → Bool) :
    List (Operation K V) → Option (World C (K × V) × Reference K V) :=
  TransitionSystem.performAll (fun s op => some (s.1.perform op, s.2.perform op)) check
    (⟨new, []⟩, ⟨[], []⟩)

theorem run_performAll {new : C} (hlocks : locks new = 0)
    (hslots : LawfulLockedCollection.slots new = [])
    {check : World C (K × V) × Reference K V → Operation K V → Bool}
    {ops : List (Operation K V)} {s : World C (K × V) × Reference K V}
    (heq : performAll new check ops = some s) :
    (liveIteration C).Run (fun s op => check s op) s :=
  TransitionSystem.Run.performAll (fun _ _ _ h => (Option.some.inj h).symm) (.start ⟨hlocks, rfl, hslots.symm, rfl⟩) heq

end Examples

/-- Two readers, and an entry that is deleted ahead of them and added again. -/
def readdingSteps (v : V) : List (Operation ℕ V) :=
  [.insert 1 v, .insert 2 v, .insert 3 v, .begins .iterator, .begins .forEach, .advances 0,
    .advances 1, .remove 2, .insert 2 v, .advances 0, .advances 1, .advances 1, .advances 1,
    .advances 0, .advances 0]

theorem live_iteration_readdingSteps :
    (∃ s, performAll (OrderedMap.new : OrderedMap ℕ ℕ) (fun s op => decide (Undisturbing s op))
        (readdingSteps 0) = some s ∧ FollowsReference s ∧
        s.1.cursors.map Cursor.yielded = [[(1, 0), (3, 0), (2, 0)], [(1, 0), (3, 0), (2, 0)]]) ∧
      ∃ s, performAll (OrderedSet.new : OrderedSet ℕ) (fun s op => decide (Undisturbing s op))
        (readdingSteps ()) = some s ∧ FollowsReference s ∧
        s.1.cursors.map Cursor.yielded
          = [[(1, ()), (3, ()), (2, ())], [(1, ()), (3, ()), (2, ())]] := by
  constructor
  · have hrun : ∃ s, performAll (OrderedMap.new : OrderedMap ℕ ℕ)
        (fun s op => decide (Undisturbing s op)) (readdingSteps 0) = some s ∧
        s.1.cursors.map Cursor.yielded = [[(1, 0), (3, 0), (2, 0)], [(1, 0), (3, 0), (2, 0)]] :=
      ⟨_, rfl, by decide⟩
    obtain ⟨s, heq, hyielded⟩ := hrun
    exact ⟨s, heq, (live_iteration ℕ ℕ).1 s
      ((run_performAll rfl rfl heq).mono fun _ _ => of_decide_eq_true), hyielded⟩
  · have hrun : ∃ s, performAll (OrderedSet.new : OrderedSet ℕ)
        (fun s op => decide (Undisturbing s op)) (readdingSteps ()) = some s ∧
        s.1.cursors.map Cursor.yielded
          = [[(1, ()), (3, ()), (2, ())], [(1, ()), (3, ()), (2, ())]] := ⟨_, rfl, by decide⟩
    obtain ⟨s, heq, hyielded⟩ := hrun
    exact ⟨s, heq, (live_iteration ℕ ℕ).2 s
      ((run_performAll rfl rfl heq).mono fun _ _ => of_decide_eq_true), hyielded⟩

/-- A reader stands behind two entries when the map is cleared and gets a new one. -/
def clearingSteps : List (Operation ℕ ℕ) :=
  [.insert 1 0, .insert 2 0, .begins .iterator, .advances 0, .advances 0, .clear, .insert 3 0,
    .advances 0]

/-- The entry of a set is deleted while an iterator is open, and `for_each_native` begins. -/
def endlessSteps : List (Operation ℕ Unit) :=
  [.insert 1 (), .begins .iterator, .remove 1, .begins .forEachNative, .advances 1]

/-- Readers need not follow the reference: after `clear` the entries added are skipped, and
`for_each_native` does not return. -/
theorem not_live_iteration :
    (¬ ∀ s, (liveIteration (OrderedMap ℕ ℕ)).Reachable s → FollowsReference s) ∧
      ¬ ∀ s, (liveIteration (OrderedSet ℕ)).Reachable s → FollowsReference s := by
  constructor
  · intro hall
    have hrun : ∃ s, performAll (OrderedMap.new : OrderedMap ℕ ℕ) (fun _ _ => true) clearingSteps
        = some s ∧ ¬ FollowsReference s := ⟨_, rfl, by decide⟩
    obtain ⟨s, heq, hnot⟩ := hrun
    exact hnot (hall s (run_performAll rfl rfl heq).reachable)
  · intro hall
    have hrun : ∃ s, performAll (OrderedSet.new : OrderedSet ℕ) (fun _ _ => true) endlessSteps
        = some s ∧ ¬ FollowsReference s := ⟨_, rfl, by decide⟩
    obtain ⟨s, heq, hnot⟩ := hrun
    exact hnot (hall s (run_performAll rfl rfl heq).reachable)

end BoaLigero.Builtins
