import BoaLigero.Util.OrderedMap
import Mathlib.Data.List.ReduceOption

/-!
# Lists with Erased Entries

A list of slots, some of them empty, that is read from a position on. Entries are added at
the end only and erased by emptying their slot, so a position keeps its meaning; taking the
empty slots out changes positions but not what is read from the start.

Keyed entries are put, erased and looked for through the present entries alone, where the
operations are those of an entry list.

## Main results

* `remaining_concat` — an added entry is found from every position that is not past the end.
* `remaining_erase`, `remaining_replace` — erasing and replacing commute with reading.
* `next_eq_none_iff`, `remaining_of_next` — finding the next entry takes the first one off.
-/

namespace Tombstone

variable {α : Type*}

/-- The entries that are present from a position on. -/
def remaining (l : List (Option α)) (i : ℕ) : List α := (l.drop i).reduceOption

/-- The entries that are present. -/
abbrev present (l : List (Option α)) : List α := l.reduceOption

/-- Nothing was passed yet at the beginning: all entries remain. -/
theorem remaining_zero (l : List (Option α)) : remaining l 0 = present l := by
  rw [remaining, List.drop_zero]

/-- An entry in front of the position is the first that remains. -/
theorem remaining_of_some {l : List (Option α)} {i : ℕ} {a : α} (h : l[i]? = some (some a)) :
    remaining l i = a :: remaining l (i + 1) := by
  obtain ⟨hlt, hget⟩ := List.getElem?_eq_some_iff.mp h
  rw [remaining, List.drop_eq_getElem_cons hlt, hget, List.reduceOption_cons_of_some, remaining]

/-- A removed entry in front of the position is not among those that remain. -/
theorem remaining_of_none {l : List (Option α)} {i : ℕ} (h : l[i]? = some none) :
    remaining l i = remaining l (i + 1) := by
  obtain ⟨hlt, hget⟩ := List.getElem?_eq_some_iff.mp h
  rw [remaining, List.drop_eq_getElem_cons hlt, hget, List.reduceOption_cons_of_none, remaining]

/-- Behind the end nothing remains. -/
theorem remaining_of_length_le {l : List (Option α)} {i : ℕ} (h : l.length ≤ i) :
    remaining l i = [] := by
  rw [remaining, List.drop_eq_nil_of_le h, List.reduceOption_nil]

/-- An added entry is found last from every position that is not past the end. -/
theorem remaining_concat {l : List (Option α)} {i : ℕ} (h : i ≤ l.length) (a : α) :
    remaining (l ++ [some a]) i = remaining l i ++ [a] := by
  rw [remaining, List.drop_append_of_le_length h, List.reduceOption_append,
    List.reduceOption_singleton, Option.toList_some, remaining]

/-- Replacing entries in their slots replaces what is read. -/
theorem remaining_map {β : Type*} (f : α → β) (l : List (Option α)) (i : ℕ) :
    remaining (l.map (Option.map f)) i = (remaining l i).map f := by
  rw [remaining, ← List.map_drop, List.reduceOption_map, remaining]

/-- Emptying slots filters what is read. -/
theorem remaining_mapFilter (p : α → Bool) (l : List (Option α)) (i : ℕ) :
    remaining (l.map (Option.filter p)) i = (remaining l i).filter p := by
  rw [remaining, ← List.map_drop, remaining]
  induction l.drop i with
  | nil => rfl
  | cons slot slots ih =>
      cases slot with
      | none => simpa using ih
      | some a => cases hp : p a <;> simp [Option.filter, hp, ih]

/-- Nothing is read once every slot is empty. -/
theorem remaining_mapNone (l : List (Option α)) (i : ℕ) :
    remaining (l.map fun _ => (none : Option α)) i = [] := by
  rw [remaining, ← List.map_drop, List.map_const', List.reduceOption_replicate_none]

/-- The present entries of computed slots. -/
theorem present_map {β : Type*} (f : β → Option α) (l : List β) :
    present (l.map f) = l.filterMap f := by
  rw [present, List.reduceOption, List.filterMap_map, Function.id_comp]

/-- Reading takes no notice of an empty slot, nor of a position past the end. -/
theorem remaining_of_join {l : List (Option α)} {i : ℕ} (h : l[i]?.join = none) :
    remaining l i = remaining l (i + 1) := by
  cases hslot : l[i]? with
  | none =>
      have hle := List.getElem?_eq_none_iff.mp hslot
      rw [remaining_of_length_le hle, remaining_of_length_le (Nat.le_succ_of_le hle)]
  | some slot =>
      rw [hslot] at h
      obtain rfl : slot = none := h
      exact remaining_of_none hslot

/-! ### Taking out a slot -/

section TakeOut

variable [DecidableEq α]

/-- Taking out a slot takes its entry from what is present. -/
theorem present_takeOut (l : List (Option α)) (a : α) :
    present (l.filter (· ≠ some a)) = (present l).filter (· ≠ a) := by
  induction l with
  | nil => rfl
  | cons slot l ih =>
      cases slot with
      | none => simpa [List.reduceOption_cons_of_none] using ih
      | some b => by_cases hb : b = a <;> simpa [List.reduceOption_cons_of_some, hb] using ih

/-- A slot taken out from a position on is filtered from what is read. -/
theorem remaining_takeOut {l : List (Option α)} {i : ℕ} {a : α}
    (h : ∀ j < i, l[j]? ≠ some (some a)) :
    remaining (l.filter (· ≠ some a)) i = (remaining l i).filter (· ≠ a) := by
  induction l generalizing i with
  | nil => simp [remaining]
  | cons slot l ih =>
      cases i with
      | zero =>
          rw [remaining_zero, remaining_zero]
          exact present_takeOut _ a
      | succ i =>
          have hslot : slot ≠ some a := fun heq => h 0 (Nat.zero_lt_succ i) (by rw [heq]; rfl)
          have htail : ∀ j < i, l[j]? ≠ some (some a) := fun j hj =>
            h (j + 1) (Nat.succ_lt_succ hj)
          rw [List.filter_cons_of_pos (by simpa using hslot)]
          exact ih htail

/-- A slot taken out in front of a position moves the rest under it. -/
theorem remaining_takeOut_of_lt {l : List (Option α)} {i j : ℕ} {a : α}
    (hslot : l[j]? = some (some a)) (hlt : j < i)
    (honce : ∀ n, l[n]? = some (some a) → n = j) :
    remaining (l.filter (· ≠ some a)) i = remaining l (i + 1) := by
  induction l generalizing i j with
  | nil => cases hslot
  | cons slot l ih =>
      obtain ⟨i, rfl⟩ := Nat.exists_eq_succ_of_ne_zero (Nat.ne_of_gt (Nat.lt_of_le_of_lt
        (Nat.zero_le j) hlt))
      cases j with
      | zero =>
          obtain rfl : slot = some a := by simpa using hslot
          have hrest : l.filter (· ≠ some a) = l := by
            refine List.filter_eq_self.mpr fun b hb => ?_
            obtain ⟨n, hn⟩ := List.mem_iff_getElem?.mp hb
            have hne : b ≠ some a := fun heq =>
              Nat.succ_ne_zero n (honce (n + 1) (by rw [List.getElem?_cons_succ, hn, heq]))
            simpa using hne
          rw [List.filter_cons_of_neg (by simp), hrest]
          rfl
      | succ j =>
          have hne : slot ≠ some a := fun heq =>
            (Nat.succ_ne_zero j) (honce 0 (by rw [heq]; rfl)).symm
          rw [List.filter_cons_of_pos (by simpa using hne)]
          refine ih (j := j) (by simpa using hslot) (Nat.lt_of_succ_lt_succ hlt) fun n hn => ?_
          exact Nat.succ.inj (honce (n + 1) (by simpa using hn))

end TakeOut

/-! ### The next entry -/

/-- The first entry from a position on, and the position behind it. -/
def next (l : List (Option α)) (i : ℕ) : Option (α × ℕ) :=
  go (l.drop i) i
where
  /-- Pass over the empty slots in front. -/
  go : List (Option α) → ℕ → Option (α × ℕ)
    | [], _ => none
    | none :: slots, i => go slots (i + 1)
    | some a :: _, i => some (a, i + 1)

/-- An iterator in front of an entry gives it and stands behind it. -/
theorem next_of_some {l : List (Option α)} {i : ℕ} {a : α} (h : l[i]? = some (some a)) :
    next l i = some (a, i + 1) := by
  obtain ⟨hlt, hget⟩ := List.getElem?_eq_some_iff.mp h
  rw [next, List.drop_eq_getElem_cons hlt, hget, next.go]

/-- An iterator goes over a removed entry. -/
theorem next_of_none {l : List (Option α)} {i : ℕ} (h : l[i]? = some none) :
    next l i = next l (i + 1) := by
  obtain ⟨hlt, hget⟩ := List.getElem?_eq_some_iff.mp h
  rw [next, List.drop_eq_getElem_cons hlt, hget, next.go, next]

/-- An iterator behind the end gives nothing. -/
theorem next_of_length_le {l : List (Option α)} {i : ℕ} (h : l.length ≤ i) : next l i = none := by
  rw [next, List.drop_eq_nil_of_le h, next.go]

/-- What the iterator finds in the slots that follow is the first entry that remains, with the
others behind it. -/
theorem next_go_spec (l slots : List (Option α)) (i : ℕ) (h : l.drop i = slots) :
    (next.go slots i = none → remaining l i = []) ∧
      ∀ a j, next.go slots i = some (a, j) → remaining l i = a :: remaining l j ∧ j ≤ l.length := by
  induction slots generalizing i with
  | nil =>
      refine ⟨fun _ => ?_, fun a j hj => by cases hj⟩
      rw [remaining, h, List.reduceOption_nil]
  | cons slot slots ih =>
      have hslot : l[i]? = some slot := by rw [← List.head?_drop, h, List.head?_cons]
      have htail : l.drop (i + 1) = slots := by rw [← List.tail_drop, h, List.tail_cons]
      cases slot with
      | none =>
          rw [next.go, remaining_of_none hslot]
          exact ih (i + 1) htail
      | some a =>
          refine ⟨fun hn => (nomatch hn), fun b j hj => ?_⟩
          obtain ⟨rfl, rfl⟩ : a = b ∧ i + 1 = j := by simpa [next.go] using hj
          exact ⟨remaining_of_some hslot, (List.getElem?_eq_some_iff.mp hslot).1⟩

/-- There is no next entry when nothing remains. -/
theorem next_eq_none_iff {l : List (Option α)} {i : ℕ} : next l i = none ↔ remaining l i = [] := by
  constructor
  · exact (next_go_spec l _ i rfl).1
  · intro h
    cases hn : next l i with
    | none => rfl
    | some found =>
        have := ((next_go_spec l _ i rfl).2 found.1 found.2 hn).1
        rw [h] at this
        cases this

/-- **The next entry is the first that remains**; behind it the rest does. -/
theorem remaining_of_next {l : List (Option α)} {i j : ℕ} {a : α} (h : next l i = some (a, j)) :
    remaining l i = a :: remaining l j ∧ j ≤ l.length :=
  (next_go_spec l _ i rfl).2 a j h

/-! ### Keyed entries -/

section Keyed

variable {K V : Type*} [DecidableEq K]

/-- Give a key its value: in the slot it has, else in a new one at the end. -/
def put (l : List (Option (K × V))) (k : K) (v : V) : List (Option (K × V)) :=
  if k ∈ Assoc.keys (present l) then l.map (Option.map fun e => if e.1 = k then (k, v) else e)
  else l ++ [some (k, v)]

/-- Empty the slot of a key. -/
def erase (l : List (Option (K × V))) (k : K) : List (Option (K × V)) :=
  l.map (Option.filter fun e => e.1 ≠ k)

/-- Putting a key assigns it among the present entries. -/
theorem present_put (l : List (Option (K × V))) (k : K) (v : V) :
    present (put l k v) = Assoc.assign (present l) k v := by
  rw [put, Assoc.assign]
  split
  · exact List.reduceOption_map
  · rw [present, List.reduceOption_append, List.reduceOption_singleton, Option.toList_some]

/-- Erasing a key removes it from what remains. -/
theorem remaining_erase (l : List (Option (K × V))) (k : K) (i : ℕ) :
    remaining (erase l k) i = Assoc.remove (remaining l i) k :=
  remaining_mapFilter _ l i

/-- Putting a present key replaces its value in what remains. -/
theorem remaining_put_of_mem {l : List (Option (K × V))} {k : K}
    (h : k ∈ Assoc.keys (present l)) (v : V) (i : ℕ) :
    remaining (put l k v) i = (remaining l i).map fun e => if e.1 = k then (k, v) else e := by
  rw [put, if_pos h, remaining_map]

/-- Putting an absent key adds it to what remains, from every position up to the end. -/
theorem remaining_put_of_notMem {l : List (Option (K × V))} {k : K}
    (h : k ∉ Assoc.keys (present l)) (v : V) {i : ℕ} (hi : i ≤ l.length) :
    remaining (put l k v) i = remaining l i ++ [(k, v)] := by
  rw [put, if_neg h, remaining_concat hi]

/-- Storing an entry never makes the list of slots shorter. -/
theorem length_le_put (l : List (Option (K × V))) (k : K) (v : V) :
    l.length ≤ (put l k v).length := by
  rw [put]
  split <;> simp

/-- Removing an entry leaves its slot, so that positions keep their meaning. -/
@[simp] theorem length_erase (l : List (Option (K × V))) (k : K) :
    (erase l k).length = l.length := by
  rw [erase, List.length_map]

end Keyed

end Tombstone
