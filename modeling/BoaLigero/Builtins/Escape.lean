import BoaLigero.String.HexDigit
import BoaLigero.Util.RingWindow

/-!
# Legacy Escaping

`escape` and `unescape` (`builtins/escape/mod.rs`), and the iterator that `unescape` looks ahead
with. The loops of both count their rounds, and throw if the program is given a limit for these; the
limit is left out.

## Main results

* `PeekableN.run_new` — whatever is peeked, the items are delivered in order and once each.
* `unescape_eq_some_iff` — `unescape` replaces exactly the escape sequences.
* `legacy_escaping` — the above, and `unescape` undoes `escape`.
-/

namespace BoaLigero

/-! ### The iterator -/

/-- An iterator that can peek `N` items (`PeekableN`). -/
structure PeekableN (α : Type) (N : ℕ) where
  /-- What the underlying iterator still delivers. -/
  iterator : List α
  buffer : Vector α N
  bufferedEnd : ℕ
  bufferedEnd_le : bufferedEnd ≤ N

namespace PeekableN

variable {α : Type} {N : ℕ}

/-- Creates a new `PeekableN`. -/
def new [Inhabited α] (iterator : List α) : PeekableN α N where
  iterator
  buffer := .replicate N default
  bufferedEnd := 0
  bufferedEnd_le := Nat.zero_le N

/-- The loop of `peek_n`; `false` where the iterator has ended. No result is a panic: the index
of a write is out of bounds. -/
def fill : ℕ → PeekableN α N → Option (Bool × PeekableN α N)
  | 0, self => some (true, self)
  | count + 1, self =>
      match self.iterator with
      | [] => some (false, self)
      | next :: rest =>
          if h : self.bufferedEnd < N then
            fill count
              { iterator := rest
                buffer := self.buffer.set self.bufferedEnd next h
                bufferedEnd := self.bufferedEnd + 1
                bufferedEnd_le := h }
          else none

/-- The slice `buffer[..end]`; no result is a panic. -/
def slice (self : PeekableN α N) (stop : ℕ) : Option (List α) :=
  if stop ≤ N then some (self.buffer.toList.take stop) else none

/-- Peeks `count` items from the iterator (`peek_n`). -/
def peekN (count : ℕ) (self : PeekableN α N) : Option (List α × PeekableN α N) :=
  if count ≤ self.bufferedEnd then (self.slice count).map (·, self)
  else
    match self.fill (count - self.bufferedEnd) with
    | none => none
    | some (full, self) =>
        (self.slice (if full then count else self.bufferedEnd)).map (·, self)

/-- `<[T]>::rotate_left(1)`. -/
def rotateLeft (buffer : Vector α N) : Vector α N :=
  Vector.ofFn fun i => buffer.get (RingWindow.succ i)

/-- `Iterator::next`. -/
def next (self : PeekableN α N) : Option α × PeekableN α N :=
  if h : 0 < self.bufferedEnd then
    (some (self.buffer.get ⟨0, Nat.lt_of_lt_of_le h self.bufferedEnd_le⟩),
      { self with
        buffer := rotateLeft self.buffer
        bufferedEnd := self.bufferedEnd - 1
        bufferedEnd_le := Nat.le_trans (Nat.sub_le _ _) self.bufferedEnd_le })
  else (self.iterator.head?, { self with iterator := self.iterator.tail })

/-- Calls `next` a number of times and drops what it returns. -/
def advance : ℕ → PeekableN α N → PeekableN α N
  | 0, self => self
  | count + 1, self => advance count self.next.2

/-- What is still to be delivered. -/
def pending (self : PeekableN α N) : List α :=
  self.buffer.toList.take self.bufferedEnd ++ self.iterator

@[simp] theorem pending_new [Inhabited α] (xs : List α) : (new xs : PeekableN α N).pending = xs := by
  rw [pending, new, List.take_zero, List.nil_append]

theorem length_pending (self : PeekableN α N) :
    self.pending.length = self.bufferedEnd + self.iterator.length := by
  have hle := self.bufferedEnd_le
  rw [pending, List.length_append, List.length_take, Vector.length_toList, Nat.min_eq_left hle]

/-- What a slice shows is what is delivered next. -/
theorem slice_eq {self : PeekableN α N} {stop : ℕ} (h : stop ≤ self.bufferedEnd) :
    self.slice stop = some (self.pending.take stop) := by
  have hle := self.bufferedEnd_le
  rw [slice, if_pos (Nat.le_trans h hle), pending, List.take_append_of_le_length, List.take_take,
    Nat.min_eq_left h]
  rw [List.length_take, Vector.length_toList, Nat.min_eq_left hle]
  exact h

/-- An item that moves into the buffer is delivered in its place. -/
theorem pending_buffered {self : PeekableN α N} {item : α} {rest : List α}
    (hiterator : self.iterator = item :: rest) (h : self.bufferedEnd < N) :
    pending
      { iterator := rest
        buffer := self.buffer.set self.bufferedEnd item h
        bufferedEnd := self.bufferedEnd + 1
        bufferedEnd_le := h } = self.pending := by
  have hlen : self.bufferedEnd < self.buffer.toList.length := by
    rwa [Vector.length_toList]
  simp only [pending, Vector.toList_set, hiterator]
  rw [List.take_succ_eq_append_getElem (by rwa [List.length_set]), List.getElem_set_self,
    List.take_set_of_le (Nat.le_refl _), List.append_assoc, List.singleton_append]

/-- **The loop of `peek_n`** moves items until there are enough or the iterator has ended. -/
theorem exists_fill {count : ℕ} {self : PeekableN α N}
    (h : self.bufferedEnd + min count self.iterator.length ≤ N) :
    ∃ self', self.fill count = some (decide (count ≤ self.iterator.length), self') ∧
      self'.pending = self.pending ∧
      self'.bufferedEnd = self.bufferedEnd + min count self.iterator.length := by
  induction count generalizing self with
  | zero => exact ⟨self, by simp [fill], rfl, by simp⟩
  | succ count ih =>
      rw [fill]
      split
      · next hiterator => exact ⟨self, by simp [hiterator], rfl, by simp [hiterator]⟩
      · next item rest hiterator =>
          rw [hiterator, List.length_cons] at h ⊢
          have hroom : self.bufferedEnd < N := by omega
          rw [dif_pos hroom]
          obtain ⟨self', hfill, hpending, hend⟩ := @ih
            { iterator := rest
              buffer := self.buffer.set self.bufferedEnd item hroom
              bufferedEnd := self.bufferedEnd + 1
              bufferedEnd_le := hroom } (by simp only; omega)
          refine ⟨self', ?_, hpending.trans (pending_buffered hiterator hroom), ?_⟩
          · simpa using hfill
          · simp only at hend
            omega

/-- The loop panics when the items do not fit into the buffer. -/
theorem fill_eq_none {count : ℕ} {self : PeekableN α N}
    (h : N < self.bufferedEnd + min count self.iterator.length) : self.fill count = none := by
  induction count generalizing self with
  | zero => exact absurd self.bufferedEnd_le (by omega)
  | succ count ih =>
      rw [fill]
      split
      · next hiterator =>
          rw [hiterator] at h
          exact absurd self.bufferedEnd_le (by simpa using h)
      · next item rest hiterator =>
          rw [hiterator, List.length_cons] at h
          split
          · exact ih (by simp only; omega)
          · rfl

/-- **What is peeked** is what is delivered next, and it is still to be delivered. -/
theorem exists_peekN {count : ℕ} {self : PeekableN α N}
    (h : min count self.pending.length ≤ N) :
    ∃ self', self.peekN count = some (self.pending.take count, self') ∧
      self'.pending = self.pending := by
  rw [peekN]
  split
  · next hle => exact ⟨self, by rw [slice_eq hle]; rfl, rfl⟩
  · next hlt =>
      rw [length_pending] at h
      obtain ⟨self', hfill, hpending, hend⟩ := @exists_fill _ _ (count - self.bufferedEnd) self
        (by omega)
      refine ⟨self', ?_, hpending⟩
      simp only [hfill, decide_eq_true_eq]
      split
      · rw [slice_eq (by omega), hpending]
        rfl
      · next hshort =>
          have hlength := self.length_pending
          rw [slice_eq (Nat.le_refl _), hpending, List.take_of_length_le (i := self'.bufferedEnd)
            (by omega), List.take_of_length_le (i := count) (by omega)]
          rfl

theorem peekN_eq_none {count : ℕ} {self : PeekableN α N}
    (h : N < min count self.pending.length) : self.peekN count = none := by
  have hle := self.bufferedEnd_le
  rw [length_pending] at h
  rw [peekN, if_neg (by omega), fill_eq_none (by omega)]

theorem get_of_toList {buffer : Vector α N} {items : List α} (h : buffer.toList = items) {i : ℕ}
    (hi : i < N) : buffer.get ⟨i, hi⟩ = items.get ⟨i, by rwa [← h, Vector.length_toList]⟩ := by
  subst h
  exact Vector.getElem_toList _

theorem toList_rotateLeft {buffer : Vector α N} {item : α} {rest : List α}
    (h : buffer.toList = item :: rest) : (rotateLeft buffer).toList = rest ++ [item] := by
  have hlength : rest.length + 1 = N := by
    rw [← List.length_cons, ← h, Vector.length_toList]
  refine List.ext_getElem (by simp [hlength]) fun i hi _ => ?_
  rw [Vector.length_toList] at hi
  simp only [rotateLeft, RingWindow.succ, Vector.getElem_toList, Vector.getElem_ofFn,
    get_of_toList h]
  rcases Nat.lt_or_ge (i + 1) N with hlt | hge
  · rw [List.getElem_append_left (by omega)]
    simp [Nat.mod_eq_of_lt hlt]
  · obtain rfl : i = rest.length := by omega
    simp [hlength]

/-- **What `next` returns** is the first item still to be delivered. -/
theorem next_eq (self : PeekableN α N) :
    self.next.1 = self.pending.head? ∧ self.next.2.pending = self.pending.tail := by
  rw [next]
  split
  · next hpos =>
      cases hbuffer : self.buffer.toList with
      | nil =>
          have hle := self.bufferedEnd_le
          have hlength := congrArg List.length hbuffer
          rw [Vector.length_toList, List.length_nil] at hlength
          omega
      | cons item rest =>
          obtain ⟨stop, hstop⟩ := Nat.exists_eq_succ_of_ne_zero (Nat.ne_of_gt hpos)
          have hle := self.bufferedEnd_le
          have hlength := congrArg List.length hbuffer
          rw [Vector.length_toList, List.length_cons] at hlength
          have hfirst : self.buffer.get ⟨0, Nat.lt_of_lt_of_le hpos hle⟩ = item :=
            get_of_toList hbuffer _
          refine ⟨by simp [pending, hbuffer, hstop, hfirst], ?_⟩
          rw [pending, toList_rotateLeft hbuffer, List.take_append_of_le_length (by simp only; omega)]
          simp [pending, hbuffer, hstop]
  · next hzero =>
      have hend : self.bufferedEnd = 0 := by omega
      simp [pending, hend]

theorem pending_advance (count : ℕ) (self : PeekableN α N) :
    (self.advance count).pending = self.pending.drop count := by
  induction count generalizing self with
  | zero => rfl
  | succ count ih => rw [advance, ih, (next_eq self).2, List.drop_tail]

/-! ### Any mixture of calls -/

/-- A call of the iterator. -/
inductive Call where
  | next
  | peekN (count : ℕ)

/-- What a call returns. -/
inductive Delivery (α : Type) where
  | next (item : Option α)
  | peeked (items : List α)

/-- The calls in order; no result is a panic. -/
def run : List Call → PeekableN α N → Option (List (Delivery α) × PeekableN α N)
  | [], self => some ([], self)
  | .next :: calls, self =>
      (run calls self.next.2).map fun (deliveries, last) => (.next self.next.1 :: deliveries, last)
  | .peekN count :: calls, self => do
      let (items, self) ← self.peekN count
      let (deliveries, last) ← run calls self
      return (.peeked items :: deliveries, last)

/-- What the calls return on a list of items: `next` takes the first one, and what is peeked
stays. -/
def expected : List Call → List α → List (Delivery α) × List α
  | [], items => ([], items)
  | .next :: calls, items =>
      let (deliveries, rest) := expected calls items.tail
      (.next items.head? :: deliveries, rest)
  | .peekN count :: calls, items =>
      let (deliveries, rest) := expected calls items
      (.peeked (items.take count) :: deliveries, rest)

/-- The items that `next` has returned. -/
def delivered : List (Delivery α) → List α
  | [] => []
  | .next item :: deliveries => item.toList ++ delivered deliveries
  | .peeked _ :: deliveries => delivered deliveries

/-- Every item is delivered once and in order. -/
theorem delivered_expected (calls : List Call) (items : List α) :
    delivered (expected calls items).1 ++ (expected calls items).2 = items := by
  induction calls generalizing items with
  | nil => rfl
  | cons call calls ih =>
      cases call with
      | next =>
          simp only [expected, delivered, List.append_assoc, ih]
          cases items <;> rfl
      | peekN count => simpa only [expected, delivered] using ih items

/-- A run that does not panic returns what is expected. -/
theorem run_eq_expected {calls : List Call} {self last : PeekableN α N}
    {deliveries : List (Delivery α)} (h : self.run calls = some (deliveries, last)) :
    (deliveries, last.pending) = expected calls self.pending := by
  induction calls generalizing self deliveries with
  | nil =>
      cases h
      rfl
  | cons call calls ih =>
      cases call with
      | next =>
          simp only [run, Option.map_eq_some_iff, Prod.exists] at h
          obtain ⟨rest, _, hrun, heq⟩ := h
          cases heq
          simp only [expected, ← (next_eq self).2, ← ih hrun, (next_eq self).1]
      | peekN count =>
          simp only [run, bind, Option.bind_eq_some_iff, Prod.exists] at h
          obtain ⟨items, self', hpeek, rest, _, hrun, heq⟩ := h
          cases heq
          have hroom : min count self.pending.length ≤ N := by
            by_contra hlt
            rw [peekN_eq_none (Nat.lt_of_not_le hlt)] at hpeek
            cases hpeek
          obtain ⟨self'', hpeek', hpending⟩ := exists_peekN hroom
          rw [hpeek] at hpeek'
          cases hpeek'
          simp only [expected, ← hpending, ← ih hrun]

/-- No call panics that peeks at most `N` items. -/
theorem exists_run {calls : List Call} (h : ∀ count, Call.peekN count ∈ calls → count ≤ N)
    (self : PeekableN α N) : ∃ deliveries last, self.run calls = some (deliveries, last) := by
  induction calls generalizing self with
  | nil => exact ⟨[], self, rfl⟩
  | cons call calls ih =>
      have hrest : ∀ count, Call.peekN count ∈ calls → count ≤ N := fun count hmem =>
        h count (List.mem_cons_of_mem _ hmem)
      cases call with
      | next =>
          obtain ⟨deliveries, last, hrun⟩ := ih hrest self.next.2
          exact ⟨_, last, by rw [run, hrun]; rfl⟩
      | peekN count =>
          have hcount : count ≤ N := h count List.mem_cons_self
          obtain ⟨self', hpeek, _⟩ := @exists_peekN _ _ count self
            (Nat.le_trans (Nat.min_le_left _ _) hcount)
          obtain ⟨deliveries, last, hrun⟩ := ih hrest self'
          exact ⟨.peeked (self.pending.take count) :: deliveries, last,
            by simp only [run, bind, hpeek, Option.bind_some, hrun]; rfl⟩

end PeekableN

/-! ### The functions -/

/-- Whether a code unit is in the `unescapedSet` (`is_unescaped`). -/
def isUnescaped (cp : UInt16) : Bool :=
  cp < 256 && ((Char.ofNat cp.toNat).isAlphanum || "_@*+-./".toList.contains (Char.ofNat cp.toNat))

/-- The code units that `escape` writes for a code unit. -/
def escapeUnit (cp : UInt16) : List UInt16 :=
  if isUnescaped cp then [cp]
  else if cp < 256 then 0x25 :: paddedUpperHex 2 cp.toNat
  else 0x25 :: 0x75 :: paddedUpperHex 4 cp.toNat

/-- The `escape` function on a string. -/
def escape (string : List UInt16) : List UInt16 := string.flatMap escapeUnit

/-- The value of a hexadecimal digit (`to_hex_digit`). -/
def toHexDigit (cp : UInt16) : Option UInt16 := (hexDigitValue cp).map .ofNat

/-- The code unit that two digits escape, and the number of units to take. -/
def escapedByte (n1 n2 : UInt16) : Option (UInt16 × ℕ) := do
  let n1 ← toHexDigit n1
  let n2 ← toHexDigit n2
  return ((n1 <<< 4) + n2, 2)

/-- The code unit that the peeked units escape, and the number of units to take. -/
def escapedUnit : List UInt16 → Option (UInt16 × ℕ)
  | [u, n1, n2, n3, n4] =>
      if u = 0x75 then do
        let n1 ← toHexDigit n1
        let n2 ← toHexDigit n2
        let n3 ← toHexDigit n3
        let n4 ← toHexDigit n4
        return ((n1 <<< 12) + (n2 <<< 8) + (n3 <<< 4) + n4, 5)
      else escapedByte u n1
  | n1 :: n2 :: _ => escapedByte n1 n2
  | _ => none

/-- The loop of `unescape`; no result is a panic, or a loop that has not ended. -/
def unescapeLoop : ℕ → PeekableN UInt16 6 → List UInt16 → Option (List UInt16)
  | 0, _, _ => none
  | fuel + 1, codepoints, vec =>
      match codepoints.next with
      | (none, _) => some vec
      | (some cp, codepoints) =>
          if cp ≠ 0x25 then unescapeLoop fuel codepoints (vec ++ [cp])
          else
            match codepoints.peekN 5 with
            | none => none
            | some (peeked, codepoints) =>
                match escapedUnit peeked with
                | none => unescapeLoop fuel codepoints (vec ++ [0x25])
                | some (cp, count) =>
                    unescapeLoop fuel (codepoints.advance count) (vec ++ [cp])

/-- The `unescape` function on a string: a round of the loop takes a code unit, and the last one
finds that there are none. -/
def unescape (string : List UInt16) : Option (List UInt16) :=
  unescapeLoop (string.length + 1) (.new string) []

/-! ### What is replaced -/

/-- The escape sequences `%uXXXX` and `%XX`, and the code units they stand for. -/
inductive EscapeSequence : List UInt16 → UInt16 → Prop
  | long {n1 n2 n3 n4 : UInt16} {d1 d2 d3 d4 : ℕ} :
      hexDigitValue n1 = some d1 → hexDigitValue n2 = some d2 → hexDigitValue n3 = some d3 →
        hexDigitValue n4 = some d4 → EscapeSequence [0x25, 0x75, n1, n2, n3, n4]
          (.ofNat (d1 * 0x1000 + d2 * 0x100 + d3 * 0x10 + d4))
  | short {n1 n2 : UInt16} {d1 d2 : ℕ} :
      hexDigitValue n1 = some d1 → hexDigitValue n2 = some d2 →
        EscapeSequence [0x25, n1, n2] (.ofNat (d1 * 0x10 + d2))

/-- A string with its escape sequences replaced, from left to right: behind a replaced sequence
the rest of the string goes on, and a code unit is copied where no sequence starts. -/
inductive Unescaped : List UInt16 → List UInt16 → Prop
  | nil : Unescaped [] []
  | replace {seq rest out : List UInt16} {cp : UInt16} :
      EscapeSequence seq cp → Unescaped rest out → Unescaped (seq ++ rest) (cp :: out)
  | copy {rest out : List UInt16} {cp : UInt16} :
      (∀ seq c, EscapeSequence seq c → ¬ seq <+: cp :: rest) →
        Unescaped rest out → Unescaped (cp :: rest) (cp :: out)

theorem shift_digits (d1 d2 d3 d4 : ℕ) :
    (UInt16.ofNat d1 <<< 12) + (UInt16.ofNat d2 <<< 8) + (UInt16.ofNat d3 <<< 4) +
      UInt16.ofNat d4 = .ofNat (d1 * 0x1000 + d2 * 0x100 + d3 * 0x10 + d4) := by
  apply UInt16.toNat.inj
  simp only [UInt16.toNat_add, UInt16.toNat_shiftLeft, UInt16.toNat_ofNat', Nat.shiftLeft_eq,
    UInt16.reduceToNat, Nat.reduceMod, Nat.reducePow]
  omega

theorem shift_byte (d1 d2 : ℕ) :
    (UInt16.ofNat d1 <<< 4) + UInt16.ofNat d2 = .ofNat (d1 * 0x10 + d2) := by
  simpa using shift_digits 0 0 d1 d2

theorem toHexDigit_eq_some_iff {cp n : UInt16} :
    toHexDigit cp = some n ↔ ∃ d, hexDigitValue cp = some d ∧ .ofNat d = n := by
  rw [toHexDigit, Option.map_eq_some_iff]

/-- Two digits escape a code unit when they are digits. -/
theorem escapedByte_eq_some_iff {n1 n2 cp : UInt16} {count : ℕ} :
    escapedByte n1 n2 = some (cp, count) ↔ EscapeSequence [0x25, n1, n2] cp ∧ count = 2 := by
  constructor
  · intro h
    simp only [escapedByte, bind, Option.bind_eq_some_iff, toHexDigit_eq_some_iff] at h
    obtain ⟨_, ⟨d1, h1, rfl⟩, _, ⟨d2, h2, rfl⟩, heq⟩ := h
    cases heq
    rw [shift_byte]
    exact ⟨.short h1 h2, rfl⟩
  · rintro ⟨hseq, rfl⟩
    cases hseq with
    | short h1 h2 =>
        simp [escapedByte, toHexDigit, h1, h2, shift_byte]

/-- Behind `u` four digits are read. -/
theorem escapedUnit_long_iff {n1 n2 n3 n4 cp : UInt16} {count : ℕ} :
    escapedUnit [0x75, n1, n2, n3, n4] = some (cp, count) ↔
      EscapeSequence [0x25, 0x75, n1, n2, n3, n4] cp ∧ count = 5 := by
  constructor
  · intro h
    simp only [escapedUnit, if_pos, bind, Option.bind_eq_some_iff, toHexDigit_eq_some_iff] at h
    obtain ⟨_, ⟨d1, h1, rfl⟩, _, ⟨d2, h2, rfl⟩, _, ⟨d3, h3, rfl⟩, _, ⟨d4, h4, rfl⟩, heq⟩ := h
    cases heq
    rw [shift_digits]
    exact ⟨.long h1 h2 h3 h4, rfl⟩
  · rintro ⟨hseq, rfl⟩
    cases hseq with
    | long h1 h2 h3 h4 =>
        simp [escapedUnit, toHexDigit, h1, h2, h3, h4, shift_digits]

/-- Everywhere else two digits are read. -/
theorem escapedUnit_short {n1 : UInt16} (h : n1 ≠ 0x75) (n2 : UInt16) (rest : List UInt16) :
    escapedUnit (n1 :: n2 :: rest) = escapedByte n1 n2 := by
  unfold escapedUnit
  split
  · next heq =>
      cases heq
      rw [if_neg h]
  · next heq =>
      cases heq
      rfl
  · next hno => exact absurd rfl (hno n1 n2 rest)

/-- `u` is not a digit. -/
theorem escapedByte_u (n2 : UInt16) : escapedByte 0x75 n2 = none := rfl

/-- **What is escaped** behind a percent sign: the sequence that starts there. -/
theorem escapedUnit_eq_some_iff {rest : List UInt16} {cp : UInt16} {count : ℕ} :
    escapedUnit (rest.take 5) = some (cp, count) ↔
      ∃ seq, EscapeSequence seq cp ∧ seq <+: 0x25 :: rest ∧ seq.length = count + 1 := by
  constructor
  · intro h
    match rest with
    | [] | [_] => cases h
    | n1 :: n2 :: rest =>
        by_cases hu : n1 = 0x75
        · subst hu
          match rest with
          | [] | [_] | [_, _] => cases (escapedByte_u n2).symm.trans h
          | n3 :: n4 :: n5 :: rest =>
              obtain ⟨hseq, rfl⟩ := escapedUnit_long_iff.mp h
              exact ⟨_, hseq, ⟨rest, rfl⟩, rfl⟩
        · rw [List.take_succ_cons, List.take_succ_cons, escapedUnit_short hu,
            escapedByte_eq_some_iff] at h
          obtain ⟨hseq, rfl⟩ := h
          exact ⟨_, hseq, ⟨rest, rfl⟩, rfl⟩
  · rintro ⟨seq, hseq, ⟨behind, hprefix⟩, hlength⟩
    cases hseq with
    | long h1 h2 h3 h4 =>
        cases hprefix
        cases hlength
        exact escapedUnit_long_iff.mpr ⟨.long h1 h2 h3 h4, rfl⟩
    | @short n1 n2 _ _ h1 h2 =>
        cases hprefix
        cases hlength
        have hu : n1 ≠ 0x75 := by
          rintro rfl
          cases h1
        exact (escapedUnit_short hu _ _).trans (escapedByte_eq_some_iff.mpr ⟨.short h1 h2, rfl⟩)

theorem EscapeSequence.exists_cons {seq : List UInt16} {cp : UInt16}
    (hseq : EscapeSequence seq cp) : ∃ units, seq = 0x25 :: units := by
  cases hseq <;> exact ⟨_, rfl⟩

/-- No sequence starts where no sequence is read. -/
theorem not_prefix_of_escapedUnit {rest : List UInt16} {cp : UInt16}
    (h : cp = 0x25 → escapedUnit (rest.take 5) = none) {seq : List UInt16} {c : UInt16}
    (hseq : EscapeSequence seq c) : ¬ seq <+: cp :: rest := by
  intro hprefix
  obtain ⟨units, rfl⟩ := hseq.exists_cons
  obtain ⟨rfl, _⟩ := List.cons_prefix_cons.mp hprefix
  have hread := escapedUnit_eq_some_iff.mpr ⟨_, hseq, hprefix, List.length_cons⟩
  cases (h rfl).symm.trans hread

/-- Every string can be unescaped. -/
theorem exists_unescaped (s : List UInt16) : ∃ out, Unescaped s out := by
  induction hn : s.length using Nat.strongRecOn generalizing s with
  | ind n ih =>
      cases s with
      | nil => exact ⟨[], .nil⟩
      | cons cp rest =>
          subst hn
          have copied (h : cp = 0x25 → escapedUnit (rest.take 5) = none) :
              ∃ out, Unescaped (cp :: rest) out := by
            obtain ⟨out, hout⟩ := ih rest.length (Nat.lt_succ_self _) rest rfl
            exact ⟨cp :: out, .copy (fun _ _ => not_prefix_of_escapedUnit h) hout⟩
          cases hread : escapedUnit (rest.take 5) with
          | none => exact copied fun _ => hread
          | some read =>
              by_cases hcp : cp = 0x25
              · obtain ⟨seq, hseq, ⟨behind, hprefix⟩, hlength⟩ := escapedUnit_eq_some_iff.mp hread
                have hlengths := congrArg List.length hprefix
                rw [List.length_append] at hlengths
                obtain ⟨out, hout⟩ := ih behind.length
                  (by rw [List.length_cons] at hlengths ⊢; omega) behind rfl
                exact ⟨read.1 :: out, by rw [hcp, ← hprefix]; exact .replace hseq hout⟩
              · exact copied fun h => absurd h hcp

/-- **One round of the loop** takes a code unit, or the sequence that it starts. -/
theorem unescapeLoop_succ {codepoints : PeekableN UInt16 6} {cp : UInt16} {rest : List UInt16}
    (h : codepoints.pending = cp :: rest) (fuel : ℕ) (vec : List UInt16) :
    ∃ codepoints' : PeekableN UInt16 6, codepoints'.pending = rest ∧
      unescapeLoop (fuel + 1) codepoints vec =
        match if cp = 0x25 then escapedUnit (rest.take 5) else none with
        | none => unescapeLoop fuel codepoints' (vec ++ [cp])
        | some (c, count) => unescapeLoop fuel (codepoints'.advance count) (vec ++ [c]) := by
  obtain ⟨hitem, hpending⟩ := codepoints.next_eq
  rw [h] at hitem hpending
  have hnext : codepoints.next = (some cp, codepoints.next.2) := Prod.ext hitem rfl
  rw [unescapeLoop, hnext]
  by_cases hcp : cp = 0x25
  · obtain ⟨self', hpeek, hkept⟩ := @PeekableN.exists_peekN _ _ 5 codepoints.next.2
      (Nat.le_trans (Nat.min_le_left _ _) (by decide))
    refine ⟨self', hkept.trans hpending, ?_⟩
    rw [hpending, List.tail_cons] at hpeek
    simp only [hcp, ne_eq, not_true_eq_false, if_false, if_true, hpeek]
  · exact ⟨codepoints.next.2, hpending, by simp only [ne_eq, hcp, not_false_eq_true, if_true, if_false]⟩

/-- **The loop of `unescape`** appends the unescaped rest. -/
theorem unescapeLoop_eq {s out : List UInt16} (h : Unescaped s out) {fuel : ℕ}
    (hfuel : s.length < fuel) {codepoints : PeekableN UInt16 6} (hpending : codepoints.pending = s)
    (vec : List UInt16) : unescapeLoop fuel codepoints vec = some (vec ++ out) := by
  induction h generalizing fuel codepoints vec with
  | nil =>
      obtain ⟨fuel, rfl⟩ := Nat.exists_eq_add_of_lt hfuel
      have hnext : codepoints.next = (none, codepoints.next.2) :=
        Prod.ext (by rw [codepoints.next_eq.1, hpending]; rfl) rfl
      rw [unescapeLoop, hnext, List.append_nil]
  | @replace seq rest out cp hseq _ ih =>
      obtain ⟨fuel, rfl⟩ := Nat.exists_eq_add_of_lt hfuel
      obtain ⟨units, rfl⟩ := hseq.exists_cons
      have hread := escapedUnit_eq_some_iff.mpr
        ⟨_, hseq, ⟨rest, rfl⟩, List.length_cons⟩
      obtain ⟨codepoints', hpending', hround⟩ := unescapeLoop_succ hpending _ vec
      rw [if_pos rfl, hread] at hround
      dsimp only at hround
      have hrest : (codepoints'.advance units.length).pending = rest := by
        rw [codepoints'.pending_advance, hpending', List.append_eq, List.drop_left]
      rw [hround, ih (by simp only [List.cons_append, List.length_cons, List.length_append]; omega)
        hrest, List.append_assoc, List.singleton_append]
  | @copy rest out cp hnone _ ih =>
      obtain ⟨fuel, rfl⟩ := Nat.exists_eq_add_of_lt hfuel
      obtain ⟨codepoints', hpending', hround⟩ := unescapeLoop_succ hpending _ vec
      have hread : (if cp = 0x25 then escapedUnit (rest.take 5) else none) = none := by
        split
        · next hcp =>
            cases hread : escapedUnit (rest.take 5) with
            | none => rfl
            | some read =>
                obtain ⟨seq, hseq, hprefix, _⟩ := escapedUnit_eq_some_iff.mp hread
                exact absurd (hcp ▸ hprefix) (hnone seq _ hseq)
        · rfl
      rw [hread] at hround
      rw [hround, ih (by rw [List.length_cons]; omega) hpending', List.append_assoc,
        List.singleton_append]

/-- **`unescape`** replaces exactly the escape sequences. -/
theorem unescape_eq_some_iff {s out : List UInt16} : unescape s = some out ↔ Unescaped s out := by
  have hall {out : List UInt16} (h : Unescaped s out) : unescape s = some out :=
    unescapeLoop_eq h (Nat.lt_succ_self _) (PeekableN.pending_new s) []
  refine ⟨fun h => ?_, hall⟩
  obtain ⟨out', hout'⟩ := exists_unescaped s
  cases (hall hout').symm.trans h
  exact hout'

/-! ### What is written -/

/-- An escaped code unit is the unit itself, or a sequence that stands for it. -/
theorem escapeUnit_cases (cp : UInt16) :
    escapeUnit cp = [cp] ∧ cp ≠ 0x25 ∨ EscapeSequence (escapeUnit cp) cp := by
  have hlt : cp.toNat < 65536 := cp.toNat_lt
  rw [escapeUnit]
  split
  · next h =>
      refine .inl ⟨rfl, ?_⟩
      rintro rfl
      revert h
      decide
  · refine .inr ?_
    split
    · next hbyte =>
        have hbyte : cp.toNat < 256 := by simpa [UInt16.lt_iff_toNat_lt] using hbyte
        have hcp : cp = .ofNat (cp.toNat / 16 * 0x10 + cp.toNat % 16) := by
          rw [Nat.div_add_mod', UInt16.ofNat_toNat]
        conv => rw [paddedUpperHex_two hbyte]; rhs; rw [hcp]
        exact .short (hexDigitValue_upperDigit (by omega)) (hexDigitValue_upperDigit (by omega))
    · have hcp : cp = .ofNat (cp.toNat / 16 / 16 / 16 * 0x1000 + cp.toNat / 16 / 16 % 16 * 0x100 +
          cp.toNat / 16 % 16 * 0x10 + cp.toNat % 16) := by
        apply UInt16.toNat.inj
        rw [UInt16.toNat_ofNat']
        omega
      conv => rw [paddedUpperHex_four hlt]; rhs; rw [hcp]
      exact .long (hexDigitValue_upperDigit (by omega)) (hexDigitValue_upperDigit (by omega))
        (hexDigitValue_upperDigit (by omega)) (hexDigitValue_upperDigit (by omega))

/-- What is escaped unescapes to what it was. -/
theorem unescaped_escape (s : List UInt16) : Unescaped (escape s) s := by
  induction s with
  | nil => exact .nil
  | cons cp s ih =>
      rw [escape, List.flatMap_cons, ← escape]
      rcases escapeUnit_cases cp with ⟨hcopy, hcp⟩ | hseq
      · rw [hcopy]
        exact .copy (fun _ _ => not_prefix_of_escapedUnit fun h => absurd h hcp) ih
      · exact .replace hseq ih

/-- **Legacy escaping**: `unescape` undoes `escape` on every string, and on every string it
replaces exactly the escape sequences, from left to right; and the iterator that it looks ahead
with delivers every item once and in order, whatever is peeked between. -/
theorem legacy_escaping :
    (∀ s, unescape (escape s) = some s) ∧
    (∀ s, ∃ out, unescape s = some out) ∧
    (∀ s out, unescape s = some out ↔ Unescaped s out) ∧
    ∀ {α : Type} [Inhabited α] (N : ℕ) (items : List α) (calls : List PeekableN.Call),
      ((∀ count, .peekN count ∈ calls → count ≤ N) →
        ((PeekableN.new items : PeekableN α N).run calls).isSome) ∧
      ∀ deliveries last, (PeekableN.new items : PeekableN α N).run calls = some (deliveries, last) →
        (deliveries, last.pending) = PeekableN.expected calls items ∧
        PeekableN.delivered deliveries ++ last.pending = items := by
  refine ⟨fun s => unescape_eq_some_iff.mpr (unescaped_escape s), fun s => ?_,
    fun _ _ => unescape_eq_some_iff, fun N items calls => ⟨fun h => ?_, fun deliveries last h => ?_⟩⟩
  · obtain ⟨out, hout⟩ := exists_unescaped s
    exact ⟨out, unescape_eq_some_iff.mpr hout⟩
  · obtain ⟨deliveries, last, hrun⟩ := PeekableN.exists_run h (.new items)
    rw [hrun]
    rfl
  · have hexpected := PeekableN.run_eq_expected h
    rw [PeekableN.pending_new] at hexpected
    have hdelivered := PeekableN.delivered_expected calls items
    rw [← hexpected] at hdelivered
    exact ⟨hexpected, hdelivered⟩

end BoaLigero
