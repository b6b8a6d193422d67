import BoaLigero.Util.OrderedMap
import Mathlib.Data.List.Induction
import Mathlib.Data.List.Perm.Subperm
import Mathlib.Data.List.Sort
import Mathlib.Data.Set.Card

/-!
# Sorted Maps

A finite map that keeps its entries in the order of their keys, as a search tree shows them:
an entry list whose keys increase strictly. The list determines the map and the map the list.

The module also relates entry lists to the partial functions they list, whatever their order,
and gives the visit that a stateful test makes of them.

## Main results

* `lookup_insertSorted` — insertion by key order updates the lookup.
* `SortedMap.eq_of_lists` — a sorted map is determined by the partial function it lists.
* `Lists.of_subset` — an entry list inside another one of its length lists the same function.
-/

namespace Assoc

variable {K V : Type*}

/-! ### The function an entry list stands for -/

section Lists

variable [DecidableEq K]

/-- The entries list a partial function: one entry for each key it is defined at. -/
structure Lists (l : List (K × V)) (f : K → Option V) : Prop where
  nodup : (keys l).Nodup
  lookup : ∀ k, l.lookup k = f k

variable {l l₁ l₂ : List (K × V)} {f f₁ f₂ : K → Option V}

/-- No entries list the function that is nowhere defined. -/
theorem lists_nil : Lists ([] : List (K × V)) fun _ => none := ⟨.nil, fun _ => rfl⟩

/-- Entries with distinct keys list their own lookup. -/
theorem lists_self (hnd : (keys l).Nodup) : Lists l fun k => l.lookup k := ⟨hnd, fun _ => rfl⟩

/-- The entries are the keys with their values. -/
theorem Lists.mem_iff (h : Lists l f) {k : K} {v : V} : (k, v) ∈ l ↔ f k = some v := by
  rw [← h.lookup, lookup_eq_some_iff_mem h.nodup]

/-- The keys of the entries are those at which the function is defined. -/
theorem Lists.mem_keys_iff (h : Lists l f) {k : K} : k ∈ keys l ↔ (f k).isSome := by
  rw [← h.lookup, ← not_iff_not, Option.not_isSome_iff_eq_none, lookup_eq_none_iff_notMem]

/-- The function is determined by the entries. -/
theorem Lists.unique (h₁ : Lists l f₁) (h₂ : Lists l f₂) : f₁ = f₂ :=
  funext fun k => (h₁.lookup k).symm.trans (h₂.lookup k)

/-- No entry occurs twice. -/
theorem Lists.nodup_entries (h : Lists l f) : l.Nodup := List.Nodup.of_map _ h.nodup

/-- The keys are as many as the entries. -/
theorem Lists.ncard_eq (h : Lists l f) : {k | (f k).isSome}.ncard = l.length := by
  have hset : {k | (f k).isSome} = ((keys l).toFinset : Set K) := by
    ext k
    rw [List.coe_toFinset, Set.mem_ofPred_eq, Set.mem_ofPred_eq, h.mem_keys_iff]
  rw [hset, Set.ncard_coe_finset, List.toFinset_card_of_nodup h.nodup, length_keys]

/-- Lists of one function hold the same entries. -/
theorem Lists.perm (h₁ : Lists l₁ f) (h₂ : Lists l₂ f) : l₁.Perm l₂ := by
  rw [List.perm_ext_iff_of_nodup h₁.nodup_entries h₂.nodup_entries]
  rintro ⟨k, v⟩
  rw [h₁.mem_iff, h₂.mem_iff]

/-- **An entry list inside another one of its length lists the same function.** -/
theorem Lists.of_subset (h₁ : Lists l₁ f₁) (h₂ : Lists l₂ f₂) (hsub : l₁ ⊆ l₂)
    (hlen : l₁.length = l₂.length) : f₁ = f₂ := by
  have hperm : l₁.Perm l₂ := (h₁.nodup_entries.subperm hsub).perm_of_length_le hlen.ge
  funext k
  refine Option.ext fun v => ?_
  rw [← h₁.mem_iff, ← h₂.mem_iff, hperm.mem_iff]

/-- Assigning a value to a key updates the function at this key. -/
theorem Lists.assign (h : Lists l f) (k : K) (v : V) :
    Lists (assign l k v) (Function.update f k (some v)) := by
  refine ⟨nodup_assign h.nodup k v, fun p => ?_⟩
  rw [lookup_assign, Function.update_apply, h.lookup]

/-- Removing a key leaves the function undefined at this key. -/
theorem Lists.remove (h : Lists l f) (k : K) :
    Lists (remove l k) (Function.update f k none) := by
  refine ⟨nodup_remove h.nodup k, fun p => ?_⟩
  rw [lookup_remove, Function.update_apply, h.lookup]

end Lists

/-! ### Entries by position -/

section Positions

variable [DecidableEq K] {l : List (K × V)} {k : K}

/-- The first entry with a key has the value that a lookup finds. -/
theorem find?_eq_lookup (l : List (K × V)) (k : K) :
    (l.find? fun e => e.1 = k).map Prod.snd = l.lookup k := by
  induction l with
  | nil => rfl
  | cons e l ih =>
      obtain ⟨k', v⟩ := e
      by_cases hk : k' = k
      · simp [hk]
      · have hbeq : (k == k') = false := by simpa using Ne.symm hk
        simpa [List.find?_cons, List.lookup_cons, hk, hbeq] using ih

omit [DecidableEq K] in
/-- The entry at a position splits the list. -/
theorem split_at {i : Fin l.length} (hkey : l[i].1 = k) :
    l = l.take i ++ (k, l[i].2) :: l.drop (i + 1) := by
  have hget : l[i] = (k, l[i].2) := by rw [← hkey]
  rw [← hget, Fin.getElem_fin, ← List.drop_eq_getElem_cons i.isLt, List.take_append_drop]

/-- Writing at the position of a key assigns the key. -/
theorem set_eq_assign (hnd : (keys l).Nodup) {i : Fin l.length} (hkey : l[i].1 = k) (v : V) :
    l.set i (k, v) = assign l k v := by
  have hsplit := split_at hkey
  have hassign := assign_append_cons (hsplit ▸ hnd) v
  rw [← hsplit] at hassign
  rw [hassign, List.set_eq_take_append_cons_drop, if_pos i.isLt]

/-- Erasing at the position of a key removes the key. -/
theorem eraseIdx_eq_remove (hnd : (keys l).Nodup) {i : Fin l.length} (hkey : l[i].1 = k) :
    l.eraseIdx i = remove l k := by
  have hsplit := split_at hkey
  have hremove := remove_append_cons (hsplit ▸ hnd)
  rw [← hsplit] at hremove
  rw [hremove, List.eraseIdx_eq_take_drop_succ]

/-- An entry that is found at a position is the one that a lookup finds. -/
theorem lookup_of_position (hnd : (keys l).Nodup) {i : Fin l.length} (hkey : l[i].1 = k) :
    l.lookup k = some l[i].2 := by
  rw [lookup_eq_some_iff_mem hnd, ← hkey]
  exact List.getElem_mem i.isLt

end Positions

/-! ### Visits -/

/-- Keep what a test keeps, with the values it leaves; the test knows what it has seen. -/
def retainWith (test : List (K × V) → K → V → Option V) :
    List (K × V) → List (K × V) → List (K × V)
  | _, [] => []
  | seen, (k, v) :: l =>
      match test seen k v with
      | some w => (k, w) :: retainWith test (seen ++ [(k, v)]) l
      | none => retainWith test (seen ++ [(k, v)]) l

/-- Retaining entries removes keys, and keeps the order of the others. -/
theorem keys_retainWith_sublist (test : List (K × V) → K → V → Option V)
    (seen l : List (K × V)) : (keys (retainWith test seen l)).Sublist (keys l) := by
  induction l generalizing seen with
  | nil => exact .refl _
  | cons e l ih =>
      obtain ⟨k, v⟩ := e
      rw [retainWith]
      split
      · exact (ih _).cons_cons k
      · exact (ih _).cons k

/-! ### Insertion by key order -/

section Sorted

variable [LinearOrder K]

/-- Insert by key order; a present key keeps its place. -/
def insertSorted (k : K) (v : V) : List (K × V) → List (K × V)
  | [] => [(k, v)]
  | (k', v') :: l =>
      if k < k' then (k, v) :: (k', v') :: l
      else if k = k' then (k', v) :: l
      else (k', v') :: insertSorted k v l

/-- A sorted insertion gives its key the value and leaves the other keys alone. -/
theorem lookup_insertSorted (l : List (K × V)) (k p : K) (v : V) :
    (insertSorted k v l).lookup p = if p = k then some v else l.lookup p := by
  by_cases hp : p = k
  · rw [if_pos hp, hp]
    induction l with
    | nil => simp [insertSorted]
    | cons e l ih =>
        obtain ⟨k', v'⟩ := e
        rw [insertSorted]
        split
        · exact List.lookup_cons_self
        split
        · next hk => rw [hk, List.lookup_cons_self]
        · next hk => rw [List.lookup_cons, beq_false_of_ne hk, ih]
  · rw [if_neg hp]
    induction l with
    | nil => rw [insertSorted, List.lookup_cons, beq_false_of_ne hp]
    | cons e l ih =>
        obtain ⟨k', v'⟩ := e
        rw [insertSorted]
        split
        · rw [List.lookup_cons, beq_false_of_ne hp]
        split
        · next hk => rw [← hk, List.lookup_cons, List.lookup_cons, beq_false_of_ne hp]
        · rw [List.lookup_cons, List.lookup_cons, ih]

/-- A sorted insertion adds no key but its own. -/
theorem mem_keys_insertSorted {l : List (K × V)} {k p : K} {v : V}
    (h : p ∈ keys (insertSorted k v l)) : p = k ∨ p ∈ keys l := by
  obtain ⟨w, hw⟩ := exists_lookup_of_mem h
  rw [lookup_insertSorted] at hw
  split at hw
  · next hp => exact .inl hp
  · exact .inr (mem_keys_of_lookup hw)

/-- Insertion by key order keeps the keys sorted. -/
theorem sorted_insertSorted {l : List (K × V)} (hsorted : (keys l).Pairwise (· < ·)) (k : K)
    (v : V) : (keys (insertSorted k v l)).Pairwise (· < ·) := by
  induction l with
  | nil => exact List.pairwise_singleton _ _
  | cons e l ih =>
      obtain ⟨k', v'⟩ := e
      obtain ⟨hhead, htail⟩ := List.pairwise_cons.mp hsorted
      rw [insertSorted]
      split
      · next hlt =>
        refine List.pairwise_cons.mpr ⟨fun p hp => ?_, hsorted⟩
        rcases List.mem_cons.mp hp with rfl | hp
        · exact hlt
        · exact hlt.trans (hhead p hp)
      split
      · exact hsorted
      · next hlt hne =>
        refine List.pairwise_cons.mpr ⟨fun p hp => ?_, ih htail⟩
        rcases mem_keys_insertSorted hp with rfl | hp
        · exact lt_of_le_of_ne (not_lt.mp hlt) (Ne.symm hne)
        · exact hhead p hp

end Sorted

end Assoc

/-- A finite map that keeps its entries in the order of their keys. -/
@[ext] structure SortedMap (K V : Type*) [LinearOrder K] where
  /-- The entries, least key first. -/
  entries : List (K × V)
  sorted : (Assoc.keys entries).Pairwise (· < ·)

namespace SortedMap

open Assoc

variable {K V : Type*} [LinearOrder K]

/-- The keys of a sorted map are distinct. -/
theorem nodup (m : SortedMap K V) : (keys m.entries).Nodup := m.sorted.imp ne_of_lt

/-- The map without entries. -/
def empty : SortedMap K V := ⟨[], .nil⟩

/-- The value of a key. -/
def get? (m : SortedMap K V) (k : K) : Option V := m.entries.lookup k

/-- Gives a key a value, at its place in the order. -/
def insert (m : SortedMap K V) (k : K) (v : V) : SortedMap K V :=
  ⟨insertSorted k v m.entries, sorted_insertSorted m.sorted k v⟩

/-- Removes a key with its value. -/
def erase (m : SortedMap K V) (k : K) : SortedMap K V :=
  ⟨remove m.entries k, m.sorted.sublist (List.filter_sublist.map _)⟩

/-- Keeps the entries that pass a test, which sees those before them and may change their values. -/
def retain (m : SortedMap K V) (test : List (K × V) → K → V → Option V) : SortedMap K V :=
  ⟨retainWith test [] m.entries, m.sorted.sublist (keys_retainWith_sublist test [] m.entries)⟩

/-- The map of a sequence of entries, of which the last one of a key counts. -/
def ofEntries (l : List (K × V)) : SortedMap K V := l.foldl (fun m e => m.insert e.1 e.2) empty

/-- After an insertion the key has the value, and the other keys have the values that they had. -/
theorem get?_insert (m : SortedMap K V) (k p : K) (v : V) :
    (m.insert k v).get? p = if p = k then some v else m.get? p :=
  lookup_insertSorted m.entries k p v

/-- The entries of a map list what it gets. -/
theorem lists (m : SortedMap K V) : Lists m.entries m.get? := lists_self m.nodup

/-- The entries of a map with an insertion list the updated function. -/
theorem lists_insert {m : SortedMap K V} {f : K → Option V} (h : Lists m.entries f) (k : K)
    (v : V) : Lists (m.insert k v).entries (Function.update f k (some v)) := by
  refine ⟨(m.insert k v).nodup, fun p => ?_⟩
  rw [Function.update_apply, ← h.lookup]
  exact m.get?_insert k p v

/-- A map built from entries without repeated keys looks them up. -/
theorem get?_ofEntries {l : List (K × V)} (hnd : (keys l).Nodup) (k : K) :
    (ofEntries l).get? k = l.lookup k := by
  induction l using List.reverseRecOn with
  | nil => rfl
  | append_singleton l e ih =>
      obtain ⟨k', v⟩ := e
      rw [keys_append] at hnd
      have hnot : k' ∉ keys l := fun h =>
        (List.nodup_append.mp hnd).2.2 k' h k' (List.mem_singleton_self k') rfl
      rw [ofEntries, List.foldl_append, List.foldl_cons, List.foldl_nil, ← ofEntries, get?_insert,
        ih (List.nodup_append.mp hnd).1, ← Assoc.assign_of_notMem hnot, lookup_assign]

/-- **A sorted map is determined by the function it lists.** -/
theorem eq_of_lists {m₁ m₂ : SortedMap K V} {f : K → Option V} (h₁ : Lists m₁.entries f)
    (h₂ : Lists m₂.entries f) : m₁ = m₂ :=
  SortedMap.ext (eq_of_sorted_of_lists m₁.sorted m₂.sorted h₁ h₂)
where
  /-- Sorted entry lists of one function are equal. -/
  eq_of_sorted_of_lists {l₁ l₂ : List (K × V)} (hs₁ : (keys l₁).Pairwise (· < ·))
      (hs₂ : (keys l₂).Pairwise (· < ·)) (h₁ : Lists l₁ f) (h₂ : Lists l₂ f) : l₁ = l₂ := by
    have hkeys : keys l₁ = keys l₂ :=
      hs₁.eq_of_mem_iff hs₂ fun k => by rw [h₁.mem_keys_iff, h₂.mem_keys_iff]
    exact eq_of_keys_of_lookup h₁.nodup hkeys fun k _ => (h₁.lookup k).trans (h₂.lookup k).symm

end SortedMap
