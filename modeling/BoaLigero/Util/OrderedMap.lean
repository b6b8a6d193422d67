import Mathlib.Data.List.Nodup
import Mathlib.Data.List.Lookmap

/-!
# Ordered Maps

A finite map that remembers the order in which its keys were added: a list of entries
together with the fact that no key occurs twice. Inserting a present key replaces its
value in place, inserting an absent one appends it, erasing keeps the order of the rest.

The operations are given on plain entry lists first (`assign`, `remove`), where a
development that stores its entries in its own way can use them, and then packaged as
`OrderedMap`, whose values cannot repeat a key.

## Main results

* `lookup_eq_some_iff_mem` — without repeated keys, lookup is membership.
* `eq_of_keys_of_lookup` — an entry list is determined by its key order and its lookup.
* `OrderedMap.get?_insert`, `OrderedMap.get?_erase` — the lookup of an updated map.
-/

namespace Assoc

variable {K V : Type*}

/-- The keys of an entry list, in order. -/
def keys (l : List (K × V)) : List K := l.map Prod.fst

/-- Replace the value of `k` in place, or append the entry when `k` is absent. -/
def assign [DecidableEq K] (l : List (K × V)) (k : K) (v : V) : List (K × V) :=
  if k ∈ keys l then l.map fun e => if e.1 = k then (k, v) else e else l ++ [(k, v)]

/-- Drop the entry of `k`, keeping the order of the others. -/
def remove [DecidableEq K] (l : List (K × V)) (k : K) : List (K × V) := l.filter fun e => e.1 ≠ k

@[simp] theorem keys_nil : keys ([] : List (K × V)) = [] := rfl

@[simp] theorem keys_cons (e : K × V) (l : List (K × V)) : keys (e :: l) = e.1 :: keys l := rfl

@[simp] theorem keys_append (l₁ l₂ : List (K × V)) : keys (l₁ ++ l₂) = keys l₁ ++ keys l₂ := by
  simp [keys]

@[simp] theorem length_keys (l : List (K × V)) : (keys l).length = l.length := by simp [keys]

theorem keys_mapValues {W : Type*} (f : V → W) (l : List (K × V)) :
    keys (l.map fun e => (e.1, f e.2)) = keys l := by
  simp [keys]

theorem keys_take (l : List (K × V)) (n : ℕ) : keys (l.take n) = (keys l).take n := by
  simp [keys, List.map_take]

/-- An entry's key is a key. -/
theorem mem_keys_of_mem {l : List (K × V)} {k : K} {v : V} (h : (k, v) ∈ l) : k ∈ keys l :=
  List.mem_map_of_mem (f := Prod.fst) h

/-- A key has an entry. -/
theorem exists_of_mem_keys {l : List (K × V)} {k : K} (h : k ∈ keys l) : ∃ v, (k, v) ∈ l := by
  obtain ⟨⟨k', v⟩, hmem, rfl⟩ := List.mem_map.mp h
  exact ⟨v, hmem⟩

/-- The entry of a key sits at one position only. -/
theorem getElem?_eq_some_iff_of_nodup {l : List (K × V)} (hnd : (keys l).Nodup) {i j : ℕ}
    {k : K} {v w : V} (hj : l[j]? = some (k, v)) : l[i]? = some (k, w) ↔ j = i ∧ v = w := by
  constructor
  · intro hi
    have hkeys : ∀ {n : ℕ} {u : V}, l[n]? = some (k, u) → (keys l)[n]? = some k := by
      intro n u hn
      simp [keys, hn]
    obtain ⟨hlt, -⟩ := List.getElem?_eq_some_iff.mp (hkeys hj)
    have hij : j = i := (List.getElem?_inj hlt hnd).mp ((hkeys hj).trans (hkeys hi).symm)
    subst hij
    rw [hj] at hi
    exact ⟨rfl, by simpa using hi⟩
  · rintro ⟨rfl, rfl⟩
    exact hj

variable [DecidableEq K]

/-! ### Lookup -/

/-- A key is absent exactly when looking it up finds nothing. -/
theorem lookup_eq_none_iff_notMem {l : List (K × V)} {k : K} :
    l.lookup k = none ↔ k ∉ keys l := by
  simp only [List.lookup_eq_none_iff, keys, List.mem_map, not_exists, not_and, bne_iff_ne]
  constructor
  · exact fun h e he heq => h e he heq.symm
  · exact fun h e he heq => h e he heq.symm

/-- Without repeated keys, lookup is membership. -/
theorem lookup_eq_some_iff_mem {l : List (K × V)} (hnd : (keys l).Nodup) {k : K} {v : V} :
    l.lookup k = some v ↔ (k, v) ∈ l := by
  induction l with
  | nil => simp
  | cons e l ih =>
      obtain ⟨k', v'⟩ := e
      simp only [keys_cons, List.nodup_cons] at hnd
      rw [List.lookup_cons]
      by_cases hk : k = k'
      · subst hk
        have hnot : (k, v) ∉ l := fun h => hnd.1 (mem_keys_of_mem h)
        simp [hnot, eq_comm]
      · have hbeq : (k == k') = false := by simpa using hk
        simp [hbeq, ih hnd.2, hk]

/-- A present key has a value. -/
theorem exists_lookup_of_mem {l : List (K × V)} {k : K} (h : k ∈ keys l) :
    ∃ v, l.lookup k = some v := by
  cases hl : l.lookup k with
  | none => exact absurd h (lookup_eq_none_iff_notMem.mp hl)
  | some v => exact ⟨v, rfl⟩

/-- A found key is present. -/
theorem mem_keys_of_lookup {l : List (K × V)} {k : K} {v : V} (h : l.lookup k = some v) :
    k ∈ keys l := by
  by_contra hk
  rw [lookup_eq_none_iff_notMem.mpr hk] at h
  cases h

/-- Lookup in a concatenation tries the left list first. -/
theorem lookup_append_of_mem {l₁ l₂ : List (K × V)} {k : K} (h : k ∈ keys l₁) :
    (l₁ ++ l₂).lookup k = l₁.lookup k := by
  obtain ⟨v, hv⟩ := exists_lookup_of_mem h
  rw [List.lookup_append, hv, Option.some_or]

/-- Lookup in a concatenation skips a left list without the key. -/
theorem lookup_append_of_notMem {l₁ l₂ : List (K × V)} {k : K} (h : k ∉ keys l₁) :
    (l₁ ++ l₂).lookup k = l₂.lookup k := by
  rw [List.lookup_append, lookup_eq_none_iff_notMem.mpr h, Option.none_or]

/-- **An entry list without repeated keys is determined by its key order and lookup.** -/
theorem eq_of_keys_of_lookup {l₁ l₂ : List (K × V)} (hnd : (keys l₁).Nodup)
    (hkeys : keys l₁ = keys l₂) (hlook : ∀ k ∈ keys l₁, l₁.lookup k = l₂.lookup k) :
    l₁ = l₂ := by
  induction l₁ generalizing l₂ with
  | nil =>
      cases l₂ with
      | nil => rfl
      | cons e l₂ => simp at hkeys
  | cons e l₁ ih =>
      cases l₂ with
      | nil => simp at hkeys
      | cons e' l₂ =>
          obtain ⟨k, v⟩ := e
          obtain ⟨k', v'⟩ := e'
          simp only [keys_cons, List.cons.injEq] at hkeys
          obtain ⟨rfl, hkeys⟩ := hkeys
          simp only [keys_cons, List.nodup_cons] at hnd
          have hv : v = v' := by simpa [List.lookup_cons] using hlook k (by simp)
          subst hv
          refine congrArg _ (ih hnd.2 hkeys fun p hp => ?_)
          have hne : p ≠ k := fun h => hnd.1 (h ▸ hp)
          have hbeq : (p == k) = false := by simpa using hne
          simpa [List.lookup_cons, hbeq] using hlook p (by simp [hp])

/-- Mapping the values of an entry list. -/
theorem lookup_mapValues {W : Type*} (f : V → W) (l : List (K × V)) (k : K) :
    (l.map fun e => (e.1, f e.2)).lookup k = (l.lookup k).map f := by
  induction l with
  | nil => rfl
  | cons e l ih =>
      obtain ⟨k', v⟩ := e
      simp only [List.map_cons, List.lookup_cons]
      split
      · rfl
      · exact ih

/-! ### Assignment -/

/-- Assigning an absent key appends its entry. -/
theorem assign_of_notMem {l : List (K × V)} {k : K} (h : k ∉ keys l) (v : V) :
    assign l k v = l ++ [(k, v)] := by
  simp [assign, h]

/-- Assigning a present key keeps the key order. -/
theorem keys_assign_of_mem {l : List (K × V)} {k : K} (h : k ∈ keys l) (v : V) :
    keys (assign l k v) = keys l := by
  rw [assign, if_pos h, keys, keys, List.map_map]
  refine List.map_congr_left fun e _ => ?_
  by_cases he : e.1 = k <;> simp [he]

/-- The keys after an assignment. -/
theorem keys_assign (l : List (K × V)) (k : K) (v : V) :
    keys (assign l k v) = if k ∈ keys l then keys l else keys l ++ [k] := by
  by_cases h : k ∈ keys l
  · simp [h, keys_assign_of_mem h]
  · simp [h, assign_of_notMem h]

/-- Assigning never repeats a key. -/
theorem nodup_assign {l : List (K × V)} (hnd : (keys l).Nodup) (k : K) (v : V) :
    (keys (assign l k v)).Nodup := by
  rw [keys_assign]
  split
  · exact hnd
  · next h => exact List.nodup_append.mpr ⟨hnd, by simp, by simpa using fun a ha => (ha.ne_of_notMem h)⟩

/-- Replacing values in place is a lookup-wise replacement. -/
theorem lookup_map_replace (l : List (K × V)) (k p : K) (v : V) :
    (l.map fun e => if e.1 = k then (k, v) else e).lookup p =
      if p = k then (if k ∈ keys l then some v else none) else l.lookup p := by
  induction l with
  | nil => simp
  | cons e l ih =>
      obtain ⟨k', v'⟩ := e
      by_cases hk : k' = k
      · subst hk
        by_cases hp : p = k'
        · simp [hp]
        · have hbeq : (p == k') = false := by simpa using hp
          simp [List.lookup_cons, hbeq, ih, hp]
      · by_cases hp : p = k'
        · subst hp
          simp [hk]
        · have hbeq : (p == k') = false := by simpa using hp
          have hmem : k ∈ k' :: keys l ↔ k ∈ keys l := by simp [Ne.symm hk]
          simp only [List.map_cons, hk, if_false, List.lookup_cons, hbeq, ih, keys_cons, hmem]

/-- The entries after an assignment: the new one, and old ones. -/
theorem mem_assign {l : List (K × V)} {k : K} {v : V} {e : K × V}
    (he : e ∈ assign l k v) : e = (k, v) ∨ e ∈ l := by
  rw [assign] at he
  split at he
  · obtain ⟨e', he', heq⟩ := List.mem_map.mp he
    split at heq
    · exact .inl heq.symm
    · exact .inr (heq ▸ he')
  · rcases List.mem_append.mp he with he | he
    · exact .inr he
    · exact .inl (List.mem_singleton.mp he)

/-- The lookup after an assignment. -/
theorem lookup_assign (l : List (K × V)) (k p : K) (v : V) :
    (assign l k v).lookup p = if p = k then some v else l.lookup p := by
  by_cases h : k ∈ keys l
  · simp [assign, h, lookup_map_replace]
  · rw [assign_of_notMem h]
    by_cases hp : p = k
    · subst hp
      rw [lookup_append_of_notMem h]
      simp
    · have hbeq : (p == k) = false := by simpa using hp
      simp [List.lookup_append, List.lookup_cons, hbeq, hp]

/-- Assigning a key that sits inside the list. -/
theorem assign_append_cons {l₁ l₂ : List (K × V)} {k : K} {u : V}
    (hnd : (keys (l₁ ++ (k, u) :: l₂)).Nodup) (v : V) :
    assign (l₁ ++ (k, u) :: l₂) k v = l₁ ++ (k, v) :: l₂ := by
  refine eq_of_keys_of_lookup (nodup_assign hnd k v) ?_ fun p _ => ?_
  · rw [keys_assign_of_mem (by simp)]; simp
  · rw [lookup_assign]
    by_cases hp : p = k
    · subst hp
      have hnot : p ∉ keys l₁ := by
        simp only [keys_append, keys_cons] at hnd
        exact fun h => (List.nodup_append.mp hnd).2.2 p h p (by simp) rfl
      rw [if_pos rfl, lookup_append_of_notMem hnot, List.lookup_cons_self]
    · have hbeq : (p == k) = false := by simpa using hp
      simp [hp, List.lookup_append, List.lookup_cons, hbeq]

/-- Assigning the value that is there changes nothing. -/
theorem assign_of_lookup {l : List (K × V)} (hnd : (keys l).Nodup) {k : K} {v : V}
    (h : l.lookup k = some v) : assign l k v = l := by
  obtain ⟨l₁, l₂, rfl⟩ := List.append_of_mem ((lookup_eq_some_iff_mem hnd).mp h)
  exact assign_append_cons hnd v

/-! ### Removal -/

/-- The keys after a removal. -/
theorem keys_remove (l : List (K × V)) (k : K) :
    keys (remove l k) = (keys l).filter fun p => p ≠ k := by
  simp [keys, remove, List.filter_map, Function.comp_def]

/-- Removing never repeats a key. -/
theorem nodup_remove {l : List (K × V)} (hnd : (keys l).Nodup) (k : K) :
    (keys (remove l k)).Nodup := by
  rw [keys_remove]; exact hnd.filter _

/-- The lookup after a removal. -/
theorem lookup_remove (l : List (K × V)) (k p : K) :
    (remove l k).lookup p = if p = k then none else l.lookup p := by
  induction l with
  | nil => simp [remove]
  | cons e l ih =>
      obtain ⟨k', v'⟩ := e
      have hrem : remove ((k', v') :: l) k =
          if k' = k then remove l k else (k', v') :: remove l k := by
        by_cases hk : k' = k <;> simp [remove, hk]
      rw [hrem]
      by_cases hk : k' = k
      · rw [if_pos hk, ih]
        by_cases hp : p = k
        · simp [hp]
        · have hbeq : (p == k') = false := by simpa [hk] using hp
          simp only [hp, if_false, List.lookup_cons, hbeq]
      · rw [if_neg hk, List.lookup_cons, List.lookup_cons, ih]
        by_cases hp : p = k'
        · simp [hp, hk]
        · have hbeq : (p == k') = false := by simpa using hp
          simp only [hbeq]

/-- A key is left after a removal when it is another one. -/
theorem mem_keys_remove {l : List (K × V)} {k p : K} :
    p ∈ keys (remove l k) ↔ p ∈ keys l ∧ p ≠ k := by
  simp [keys_remove]

/-- Removing a key that sits inside the list. -/
theorem remove_append_cons {l₁ l₂ : List (K × V)} {k : K} {u : V}
    (hnd : (keys (l₁ ++ (k, u) :: l₂)).Nodup) :
    remove (l₁ ++ (k, u) :: l₂) k = l₁ ++ l₂ := by
  simp only [keys_append, keys_cons] at hnd
  obtain ⟨-, hnd₂, hdis⟩ := List.nodup_append.mp hnd
  have h₁ : ∀ e ∈ l₁, decide (e.1 ≠ k) = true := by
    intro e he
    simpa using hdis e.1 (List.mem_map_of_mem he) k (by simp)
  have h₂ : ∀ e ∈ l₂, decide (e.1 ≠ k) = true := by
    rintro e he
    have hnot := (List.nodup_cons.mp hnd₂).1
    have hmem : e.1 ∈ keys l₂ := List.mem_map_of_mem he
    simpa using hmem.ne_of_notMem hnot
  simp only [remove, List.filter_append, List.filter_cons, ne_eq, not_true_eq_false,
    decide_false, Bool.false_eq_true, if_false]
  rw [List.filter_eq_self.mpr h₁, List.filter_eq_self.mpr h₂]

/-- Drop the entry of `k` by moving the last entry to its place. -/
def swapRemove (l : List (K × V)) (k : K) : List (K × V) :=
  if k ∈ keys l then
    match l.getLast? with
    | none => []
    | some e => if e.1 = k then l.dropLast else l.dropLast.map fun e' => if e'.1 = k then e else e'
  else l

/-- Removing a key by a swap with the entry that was just appended. -/
theorem swapRemove_concat {l : List (K × V)} {k : K} {e : K × V} (hk : k ∈ keys l)
    (hne : e.1 ≠ k) : swapRemove (l ++ [e]) k = l.map fun e' => if e'.1 = k then e else e' := by
  have hmem : k ∈ keys (l ++ [e]) := by
    rw [keys_append]
    exact List.mem_append_left _ hk
  rw [swapRemove, if_pos hmem, List.getLast?_concat, List.dropLast_concat]
  exact if_neg hne

/-- What is left after a removal by a swap was there. -/
theorem mem_of_mem_swapRemove {l : List (K × V)} {k : K} {e : K × V}
    (h : e ∈ swapRemove l k) : e ∈ l := by
  rw [swapRemove] at h
  split at h
  · rcases List.eq_nil_or_concat l with rfl | ⟨l', e', rfl⟩
    · cases h
    · rw [List.concat_eq_append] at h ⊢
      rw [List.getLast?_concat, List.dropLast_concat] at h
      dsimp only at h
      split at h
      · exact List.mem_append_left _ h
      · obtain ⟨e'', hmem, rfl⟩ := List.mem_map.mp h
        split
        · exact List.mem_append_right _ (List.mem_singleton_self _)
        · exact List.mem_append_left _ hmem
  · exact h

/-- Removing by a swap never repeats a key. -/
theorem nodup_swapRemove {l : List (K × V)} (hnd : (keys l).Nodup) (k : K) :
    (keys (swapRemove l k)).Nodup := by
  rw [swapRemove]
  split
  · rcases List.eq_nil_or_concat l with rfl | ⟨l', e, rfl⟩
    · simp
    · rw [List.concat_eq_append] at hnd ⊢
      rw [List.getLast?_concat, List.dropLast_concat]
      rw [keys_append] at hnd
      obtain ⟨hl, -, hdis⟩ := List.nodup_append.mp hnd
      dsimp only
      split
      · exact hl
      · have hkeys : keys (l'.map fun e' => if e'.1 = k then e else e')
            = (keys l').map fun p => if p = k then e.1 else p := by
          rw [keys, keys, List.map_map, List.map_map]
          refine List.map_congr_left fun e' _ => ?_
          by_cases he : e'.1 = k <;> simp [he]
        have hfresh : ∀ p ∈ keys l', p ≠ e.1 := fun p hp => hdis p hp e.1 (by simp)
        rw [hkeys]
        refine hl.map_on fun p hp q hq heq => ?_
        by_cases hpk : p = k <;> by_cases hqk : q = k
        · exact hpk.trans hqk.symm
        · exact absurd (by simpa [hpk, hqk] using heq.symm) (hfresh q hq)
        · exact absurd (by simpa [hpk, hqk] using heq) (hfresh p hp)
        · simpa [hpk, hqk] using heq
  · exact hnd

omit [DecidableEq K] in
/-- Filtering entries never repeats a key. -/
theorem nodup_filter {l : List (K × V)} (hnd : (keys l).Nodup) (p : K × V → Bool) :
    (keys (l.filter p)).Nodup :=
  hnd.sublist (List.filter_sublist.map _)

end Assoc

/-- A finite map that remembers the order in which its keys were added. -/
@[ext] structure OrderedMap (K V : Type*) where
  /-- The entries, oldest first. -/
  entries : List (K × V)
  /-- No key occurs twice. -/
  nodup : (Assoc.keys entries).Nodup

namespace OrderedMap

variable {K V : Type*}

/-- The map without entries. -/
def empty : OrderedMap K V := ⟨[], by simp⟩

@[simp] theorem entries_empty : (empty : OrderedMap K V).entries = [] := rfl

/-- The keys, oldest first. -/
def keys (m : OrderedMap K V) : List K := Assoc.keys m.entries

variable [DecidableEq K]

/-- The value of a key. -/
def get? (m : OrderedMap K V) (k : K) : Option V := m.entries.lookup k

/-- A key is present when it has a value. -/
theorem mem_keys_iff (m : OrderedMap K V) {k : K} : k ∈ m.keys ↔ (m.get? k).isSome := by
  rw [get?, ← not_iff_not, Option.not_isSome_iff_eq_none, Assoc.lookup_eq_none_iff_notMem, keys]

/-- Replace the value of a present key in place, append an absent key. -/
def insert (m : OrderedMap K V) (k : K) (v : V) : OrderedMap K V :=
  ⟨Assoc.assign m.entries k v, Assoc.nodup_assign m.nodup k v⟩

/-- Drop a key. -/
def erase (m : OrderedMap K V) (k : K) : OrderedMap K V :=
  ⟨Assoc.remove m.entries k, Assoc.nodup_remove m.nodup k⟩

/-- Drop a key by moving the newest entry to its place. -/
def swapErase (m : OrderedMap K V) (k : K) : OrderedMap K V :=
  ⟨Assoc.swapRemove m.entries k, Assoc.nodup_swapRemove m.nodup k⟩

/-- Keep the entries that pass a test. -/
def retain (m : OrderedMap K V) (p : K → V → Bool) : OrderedMap K V :=
  ⟨m.entries.filter fun e => p e.1 e.2, Assoc.nodup_filter m.nodup _⟩

@[simp] theorem entries_insert (m : OrderedMap K V) (k : K) (v : V) :
    (m.insert k v).entries = Assoc.assign m.entries k v := rfl

@[simp] theorem entries_erase (m : OrderedMap K V) (k : K) :
    (m.erase k).entries = Assoc.remove m.entries k := rfl

/-- The lookup of an updated map. -/
theorem get?_insert (m : OrderedMap K V) (k p : K) (v : V) :
    (m.insert k v).get? p = if p = k then some v else m.get? p :=
  Assoc.lookup_assign m.entries k p v

/-- The lookup of a map without a key. -/
theorem get?_erase (m : OrderedMap K V) (k p : K) :
    (m.erase k).get? p = if p = k then none else m.get? p :=
  Assoc.lookup_remove m.entries k p

/-- The keys of an updated map. -/
theorem keys_insert (m : OrderedMap K V) (k : K) (v : V) :
    (m.insert k v).keys = if k ∈ m.keys then m.keys else m.keys ++ [k] :=
  Assoc.keys_assign m.entries k v

theorem mem_keys_insert (m : OrderedMap K V) (k p : K) (v : V) :
    p ∈ (m.insert k v).keys ↔ p = k ∨ p ∈ m.keys := by
  rw [keys_insert]
  split
  · next h =>
    constructor
    · exact .inr
    · rintro (rfl | hp)
      · exact h
      · exact hp
  · rw [List.mem_append, List.mem_singleton, or_comm]

/-- The keys of a map without a key. -/
theorem keys_erase (m : OrderedMap K V) (k : K) :
    (m.erase k).keys = m.keys.filter fun p => p ≠ k :=
  Assoc.keys_remove m.entries k

end OrderedMap
