import Mathlib.Data.Fintype.Pigeonhole
import Mathlib.Logic.Function.Iterate

/-!
# Chains of Parents

Nodes that have at most one parent each, and the chains that one gets by following the
parents. A chain ends when it comes to a node without a parent. Giving a node another parent
keeps every chain ending if the chain from the new parent does not meet the node.

## Main results

* `Ends.update` — a node gets another parent.
* `above_card` — among finitely many nodes a chain that ends does so after at most as many
  steps as there are nodes.
-/

namespace ParentChain

variable {α : Type*} {parent : α → Option α} {o : Option α} {a b : α}

/-- Where one comes to after some steps along the parents. -/
def above (parent : α → Option α) (n : ℕ) (o : Option α) : Option α := (·.bind parent)^[n] o

/-- The chain comes to its end. -/
def Ends (parent : α → Option α) (o : Option α) : Prop := ∃ n, above parent n o = none

/-- The chain comes to a node. -/
def Meets (parent : α → Option α) (a : α) (o : Option α) : Prop := ∃ n, above parent n o = some a

/-- No step up leads nowhere else. -/
@[simp] theorem above_zero (parent : α → Option α) (o : Option α) : above parent 0 o = o := rfl

/-- A step up leads to the parent. -/
@[simp] theorem above_succ_some (parent : α → Option α) (n : ℕ) (a : α) :
    above parent (n + 1) (some a) = above parent n (parent a) := rfl

/-- Above nothing there is nothing. -/
@[simp] theorem above_none (parent : α → Option α) (n : ℕ) : above parent n none = none := by
  induction n with
  | zero => rfl
  | succ n ih => exact ih

/-- Steps up can be taken in two parts. -/
theorem above_add (parent : α → Option α) (m n : ℕ) (o : Option α) :
    above parent (m + n) o = above parent m (above parent n o) :=
  Function.iterate_add_apply _ m n o

/-- Once a chain has ended it stays so. -/
theorem above_eq_none_of_le {m n : ℕ} (h : above parent m o = none) (hle : m ≤ n) :
    above parent n o = none := by
  obtain ⟨k, rfl⟩ := Nat.exists_eq_add_of_le' hle
  rw [above_add, h, above_none]

/-- Nothing is above nothing, so that the chain ends. -/
theorem Ends.none (parent : α → Option α) : Ends parent none := ⟨0, rfl⟩

/-- A chain ends exactly if it ends above its first node. -/
theorem ends_some_iff : Ends parent (some a) ↔ Ends parent (parent a) := by
  constructor
  · rintro ⟨n, hn⟩
    cases n with
    | zero => cases hn
    | succ n => exact ⟨n, hn⟩
  · rintro ⟨n, hn⟩
    exact ⟨n + 1, hn⟩

/-- The empty chain meets no node. -/
theorem not_meets_none (parent : α → Option α) (a : α) : ¬Meets parent a none := by
  rintro ⟨n, hn⟩
  rw [above_none] at hn
  cases hn

/-- A chain meets a node if it begins with it, or meets it above its first node. -/
theorem meets_some_iff : Meets parent a (some b) ↔ b = a ∨ Meets parent a (parent b) := by
  constructor
  · rintro ⟨n, hn⟩
    cases n with
    | zero => exact .inl (Option.some.inj hn)
    | succ n => exact .inr ⟨n, hn⟩
  · rintro (rfl | ⟨n, hn⟩)
    · exact ⟨0, rfl⟩
    · exact ⟨n + 1, hn⟩

/-! ### Another parent -/

section Update

variable [DecidableEq α] {v : Option α}

/-- A chain that does not meet the node stays as it is. -/
theorem above_update (h : ¬Meets parent a o) (n : ℕ) :
    above (Function.update parent a v) n o = above parent n o := by
  induction n generalizing o with
  | zero => rfl
  | succ n ih =>
      cases o with
      | none => rw [above_none, above_none]
      | some b =>
          rw [meets_some_iff, not_or] at h
          rw [above_succ_some, above_succ_some, Function.update_of_ne h.1]
          exact ih h.2

/-- **Another parent**: if the new chain of the node does not meet the node itself, all chains
that ended still end. -/
theorem Ends.update (ho : Ends parent o) (hv : Ends parent v) (hmeets : ¬Meets parent a v) :
    Ends (Function.update parent a v) o := by
  obtain ⟨n, hn⟩ := ho
  induction n generalizing o with
  | zero =>
      obtain rfl : o = .none := hn
      exact .none _
  | succ n ih =>
      cases o with
      | none => exact .none _
      | some b =>
          rw [ends_some_iff]
          by_cases hb : b = a
          · obtain ⟨k, hk⟩ := hv
            subst hb
            rw [Function.update_self]
            exact ⟨k, (above_update hmeets k).trans hk⟩
          · rw [Function.update_of_ne hb]
            exact ih hn

end Update

/-! ### Finitely many nodes -/

/-- A chain from a set of nodes that has the parents of its nodes stays in the set. -/
theorem mem_of_above {s : Set α} (hs : ∀ a ∈ s, ∀ b, parent a = some b → b ∈ s)
    (ho : ∀ a, o = some a → a ∈ s) {n : ℕ} (h : above parent n o = some b) : b ∈ s := by
  induction n generalizing o with
  | zero => exact ho b h
  | succ n ih =>
      cases o with
      | none =>
          rw [above_none] at h
          cases h
      | some a => exact ih (fun b hb => hs a (ho a rfl) b hb) h

/-- **The length of a chain** that ends is at most the number of nodes. -/
theorem above_card {s : Finset α} (hs : ∀ a ∈ s, ∀ b, parent a = some b → b ∈ s)
    (ho : ∀ a, o = some a → a ∈ s) (hends : Ends parent o) : above parent s.card o = none := by
  classical
  by_contra hsome
  -- up to there the chain is at a node of the set
  have hnode : ∀ k ≤ s.card, ∃ a ∈ s, above parent k o = some a := by
    intro k hk
    cases hk' : above parent k o with
    | none => exact absurd (above_eq_none_of_le hk' hk) hsome
    | some a => exact ⟨a, mem_of_above (s := ↑s) hs ho hk', rfl⟩
  obtain ⟨start, -, -⟩ := hnode 0 (Nat.zero_le _)
  have : Nonempty α := ⟨start⟩
  choose! node hmem hnode using hnode
  have hcard : s.card < (Finset.range (s.card + 1)).card := by
    rw [Finset.card_range]
    exact Nat.lt_succ_self _
  obtain ⟨i, hi, j, hj, hne, heq⟩ := Finset.exists_ne_map_eq_of_card_lt_of_maps_to hcard
    (f := node) fun k hk => hmem k (Nat.lt_succ_iff.mp (Finset.mem_range.mp hk))
  rw [Finset.mem_range, Nat.lt_succ_iff] at hi hj
  -- the chain comes to one node twice, so it goes round
  have hround : ∀ {i j : ℕ}, i < j → above parent i o = above parent j o →
      above parent j o ≠ none → False := by
    intro i j hlt hij hj
    have hmin := Nat.find_spec hends
    have hle : j ≤ Nat.find hends := not_lt.mp fun hgt => hj (above_eq_none_of_le hmin hgt.le)
    obtain ⟨k, hk⟩ := Nat.exists_eq_add_of_le' hle
    rw [hk, above_add, ← hij, ← above_add] at hmin
    exact Nat.find_min hends (by omega) hmin
  have hsame : above parent i o = above parent j o := by rw [hnode i hi, hnode j hj, heq]
  rcases Nat.lt_or_gt_of_ne hne with hlt | hlt
  · exact hround hlt hsame (by simp [hnode j hj])
  · exact hround hlt hsame.symm (by simp [hnode i hi])

end ParentChain
