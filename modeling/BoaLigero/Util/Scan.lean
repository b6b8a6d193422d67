import Mathlib.Data.List.Basic
import Mathlib.Data.UInt

/-!
# Scans

A scan reads positions one after the other, through a reader that may have nothing to say about
a position, and stops at the first value that passes a test. It ends with the position of that
value, with nothing, or with the position that the reader could not answer for, and it counts
the values it has read.

A loop does the same with a reader that answers for every position but may change a state or
fail. Where the two readers agree, a scan that ends with an answer is the loop, and a scan that
gives up leaves the loop to go on from that position.

## Main results

* `scan_spec` — what each outcome of a scan says about the positions.
* `loop_eq_of_scan` — the loop against the outcome of a scan.
* `indices_eq_append_cons` — a position of a range splits the range.
-/

namespace Scan

variable {ι α : Type}

/-- The outcome of a scan, with the count of values that were read. -/
inductive Outcome (ι : Type)
  | found (i : ι) (scanned : ℕ)
  | notFound (scanned : ℕ)
  | gaveUp (i : ι) (scanned : ℕ)
  deriving DecidableEq

/-- Scan positions with a count to go on from. -/
def scan (read : ι → Option α) (test : α → Bool) : List ι → ℕ → Outcome ι
  | [], scanned => .notFound scanned
  | i :: l, scanned =>
      match read i with
      | none => .gaveUp i scanned
      | some v => if test v then .found i (scanned + 1) else scan read test l (scanned + 1)

/-- The positions are read, and their values fail the test. -/
def Passed (read : ι → Option α) (test : α → Bool) (l : List ι) : Prop :=
  ∀ i ∈ l, ∃ v, read i = some v ∧ test v = false

/-- What an outcome says about the positions. -/
def Outcome.Holds (read : ι → Option α) (test : α → Bool) (l : List ι) (n : ℕ) :
    Outcome ι → Prop
  | .found i scanned => ∃ l₁ l₂, l = l₁ ++ i :: l₂ ∧ Passed read test l₁ ∧
      (∃ v, read i = some v ∧ test v = true) ∧ scanned = n + l₁.length + 1
  | .notFound scanned => Passed read test l ∧ scanned = n + l.length
  | .gaveUp i scanned => ∃ l₁ l₂, l = l₁ ++ i :: l₂ ∧ Passed read test l₁ ∧
      read i = none ∧ scanned = n + l₁.length

variable {read : ι → Option α} {test : α → Bool}

/-- A scan that has not looked at anything yet has passed no match. -/
theorem passed_nil : Passed read test [] := fun _ h => nomatch h

/-- A scan passes an index whose value was read and fails the test, and then all that it passes
later. -/
theorem Passed.cons {i : ι} {l : List ι} {v : α} (hread : read i = some v)
    (htest : test v = false) (h : Passed read test l) : Passed read test (i :: l) := by
  intro j hj
  rcases List.mem_cons.mp hj with rfl | hj
  · exact ⟨v, hread, htest⟩
  · exact h j hj

/-- An outcome behind a position that was passed. -/
theorem Outcome.Holds.cons {i : ι} {l : List ι} {v : α} {n : ℕ} (hread : read i = some v)
    (htest : test v = false) {r : Outcome ι} (h : r.Holds read test l (n + 1)) :
    r.Holds read test (i :: l) n := by
  cases r with
  | found j scanned =>
      obtain ⟨l₁, l₂, rfl, hpassed, hfound, rfl⟩ := h
      exact ⟨i :: l₁, l₂, rfl, hpassed.cons hread htest, hfound, by rw [List.length_cons]; omega⟩
  | notFound scanned =>
      obtain ⟨hpassed, rfl⟩ := h
      exact ⟨hpassed.cons hread htest, by rw [List.length_cons]; omega⟩
  | gaveUp j scanned =>
      obtain ⟨l₁, l₂, rfl, hpassed, hnone, rfl⟩ := h
      exact ⟨i :: l₁, l₂, rfl, hpassed.cons hread htest, hnone, by rw [List.length_cons]; omega⟩

/-- **What the outcome of a scan says about the positions.** -/
theorem scan_spec (read : ι → Option α) (test : α → Bool) (l : List ι) (n : ℕ) :
    (scan read test l n).Holds read test l n := by
  induction l generalizing n with
  | nil => exact ⟨passed_nil, rfl⟩
  | cons i l ih =>
      rw [scan]
      cases hread : read i with
      | none => exact ⟨[], l, rfl, passed_nil, hread, rfl⟩
      | some v =>
          dsimp only
          split
          · next htest => exact ⟨[], l, rfl, passed_nil, ⟨v, hread, htest⟩, rfl⟩
          · next htest => exact (ih (n + 1)).cons hread (Bool.not_eq_true _ ▸ htest)

/-- A scan goes on behind positions that were passed. -/
theorem scan_append (l₁ l₂ : List ι) (n : ℕ) :
    scan read test (l₁ ++ l₂) n =
      match scan read test l₁ n with
      | .notFound scanned => scan read test l₂ scanned
      | r => r := by
  induction l₁ generalizing n with
  | nil => rfl
  | cons i l₁ ih =>
      rw [List.cons_append, scan, scan]
      cases read i with
      | none => rfl
      | some v =>
          dsimp only
          split
          · rfl
          · exact ih (n + 1)

/-! ### Loops -/

section Loops

variable {σ ε : Type}

/-- Read positions one after the other with a reader that may change a state or fail. -/
def loop (read : ι → σ → Except ε (Option α) × σ) (test : α → Bool) :
    List ι → σ → Except ε (Option ι) × σ
  | [], s => (.ok none, s)
  | i :: l, s =>
      match read i s with
      | (.error e, s) => (.error e, s)
      | (.ok none, s) => loop read test l s
      | (.ok (some v), s) => if test v then (.ok (some i), s) else loop read test l s

/-- A reader answers as another one where that one does, and changes nothing there. -/
def Extends (readAll : ι → σ → Except ε (Option α) × σ) (read : ι → Option α) : Prop :=
  ∀ i v, read i = some v → ∀ s, readAll i s = (.ok (some v), s)

variable {readAll : ι → σ → Except ε (Option α) × σ}

/-- What was passed without a match can be left out of the loop, whatever state the loop is in. -/
theorem loop_append_of_passed (h : Extends readAll read) {l₁ : List ι}
    (hpassed : Passed read test l₁) (l₂ : List ι) (s : σ) :
    loop readAll test (l₁ ++ l₂) s = loop readAll test l₂ s := by
  induction l₁ with
  | nil => rfl
  | cons i l₁ ih =>
      obtain ⟨v, hread, htest⟩ := hpassed i List.mem_cons_self
      rw [List.cons_append, loop, h i v hread s]
      dsimp only
      rw [htest, if_neg Bool.false_ne_true]
      exact ih fun j hj => hpassed j (List.mem_cons_of_mem i hj)

/-- **The loop against the outcome of a scan**: the answer of the scan without a change of the
state, or the loop from the position at which the scan gave up. -/
theorem loop_eq_of_scan (test : α → Bool) (h : Extends readAll read) (l : List ι) (n : ℕ)
    (s : σ) :
    match scan read test l n with
    | .found i _ => loop readAll test l s = (.ok (some i), s)
    | .notFound _ => loop readAll test l s = (.ok none, s)
    | .gaveUp i _ => ∃ l₁ l₂, l = l₁ ++ i :: l₂ ∧
        loop readAll test l s = loop readAll test (i :: l₂) s := by
  have hspec := scan_spec read test l n
  cases hscan : scan read test l n with
  | found i scanned =>
      rw [hscan] at hspec
      obtain ⟨l₁, l₂, rfl, hpassed, ⟨v, hread, htest⟩, -⟩ := hspec
      dsimp only
      rw [loop_append_of_passed h hpassed, loop, h i v hread s]
      dsimp only
      rw [htest, if_pos rfl]
  | notFound scanned =>
      rw [hscan] at hspec
      have hloop := loop_append_of_passed h hspec.1 [] s
      rw [List.append_nil] at hloop
      exact hloop
  | gaveUp i scanned =>
      rw [hscan] at hspec
      obtain ⟨l₁, l₂, rfl, hpassed, -, -⟩ := hspec
      exact ⟨l₁, l₂, rfl, loop_append_of_passed h hpassed _ s⟩

end Loops

/-! ### Ranges of machine words -/

/-- The words from one up to another, which is left out. -/
def indices (start stop : UInt32) : List UInt32 :=
  (List.range' start.toNat (stop.toNat - start.toNat)).map UInt32.ofNat

/-- A range that is empty or reversed has no indices, so that a search of it reads nothing. -/
theorem indices_of_le {start stop : UInt32} (h : stop ≤ start) : indices start stop = [] := by
  rw [indices, Nat.sub_eq_zero_of_le (UInt32.le_iff_toNat_le.mp h)]
  rfl

/-- The indices of a range do not wrap around: each is as far from its start as its place says. -/
theorem toNat_ofNat_of_lt {start stop : UInt32} {k : ℕ} (h : k < stop.toNat - start.toNat) :
    (UInt32.ofNat (start.toNat + k)).toNat = start.toNat + k := by
  have hstop := stop.toNat_lt
  rw [UInt32.toNat_ofNat', Nat.mod_eq_of_lt (by omega)]

/-- The indices of a range are the numbers from its start up to its end, and no others. -/
theorem mem_indices {start stop i : UInt32} : i ∈ indices start stop ↔ start ≤ i ∧ i < stop := by
  rw [indices, List.mem_map, UInt32.le_iff_toNat_le, UInt32.lt_iff_toNat_lt]
  constructor
  · rintro ⟨n, hn, rfl⟩
    obtain ⟨k, hk, rfl⟩ := List.mem_range'.mp hn
    rw [one_mul, toNat_ofNat_of_lt hk]
    omega
  · rintro ⟨hle, hlt⟩
    refine ⟨i.toNat, List.mem_range'.mpr ⟨i.toNat - start.toNat, by omega, by omega⟩, ?_⟩
    exact UInt32.ofNat_toNat

/-- A range has as many indices as its end lies above its start, and none if it is reversed. -/
theorem length_indices (start stop : UInt32) :
    (indices start stop).length = stop.toNat - start.toNat := by
  rw [indices, List.length_map, List.length_range']

/-- A word inside a range splits it. -/
theorem indices_append {start mid stop : UInt32} (h₁ : start ≤ mid) (h₂ : mid ≤ stop) :
    indices start stop = indices start mid ++ indices mid stop := by
  rw [UInt32.le_iff_toNat_le] at h₁ h₂
  rw [indices, indices, indices, ← List.map_append]
  have hlen : stop.toNat - start.toNat = (mid.toNat - start.toNat) + (stop.toNat - mid.toNat) := by
    omega
  have hmid : mid.toNat = start.toNat + 1 * (mid.toNat - start.toNat) := by omega
  rw [hlen, ← List.range'_append, ← hmid]

/-- **A word of a range splits it** into the words before and from it on. -/
theorem indices_eq_append_cons {start stop i : UInt32} {l₁ l₂ : List UInt32}
    (h : indices start stop = l₁ ++ i :: l₂) :
    l₁ = indices start i ∧ i :: l₂ = indices i stop := by
  obtain ⟨a, b, hrange, rfl, hb⟩ := List.map_eq_append_iff.mp h
  obtain ⟨k, hk, rfl, rfl⟩ := List.range'_eq_append_iff.mp hrange
  have hpos : k < stop.toNat - start.toNat := by
    by_contra hnot
    rw [Nat.sub_eq_zero_of_le (not_lt.mp hnot)] at hb
    cases hb
  obtain ⟨m, hm⟩ : ∃ m, stop.toNat - start.toNat - k = m + 1 :=
    ⟨stop.toNat - start.toNat - k - 1, by omega⟩
  rw [hm, mul_one, List.range'_succ, List.map_cons] at hb
  have hi : i.toNat = start.toNat + k := by
    rw [← (List.cons.inj hb).1, toNat_ofNat_of_lt hpos]
  have hlen : stop.toNat - i.toNat = m + 1 := by omega
  refine ⟨?_, ?_⟩
  · rw [indices, hi, Nat.add_sub_cancel_left]
  · rw [indices, hlen, hi, List.range'_succ, List.map_cons, hb]

end Scan
