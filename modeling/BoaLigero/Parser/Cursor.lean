import Mathlib.Data.Nat.Notation
import Mathlib.Tactic.Common

/-!
# The Cursor of the Lexer

The cursor over the code points of a source text (`lexer/cursor.rs`), the errors of the lexer
(`lexer/error.rs`), and what an operation delivers and leaves.

A line feed behind a carriage return is never delivered. The characters that are peeked and not yet
delivered are the first of those that are left.

## Main results

* `Cursor.rest_advance_of_ne` — what a character leaves.
* `Cursor.takeUntil_sound`, `Cursor.takeUntil_complete` — the characters up to a stop character.
-/

namespace BoaLigero.Lexer

/-- `Position`. -/
structure Position where
  lineNumber : ℕ
  columnNumber : ℕ
  deriving DecidableEq

/-- `Error`: an unexpected end of the source, or a syntax error. -/
inductive Error where
  | unexpectedEof (message : String)
  | syntaxError (message : String) (pos : Position)
  deriving DecidableEq

/-- `Cursor`. -/
structure Cursor where
  /-- The code points that are not yet delivered. -/
  rest : List ℕ
  pos : Position
  strict : Bool
  deriving DecidableEq

namespace Cursor

/-- What a character leaves: a line feed goes with a carriage return in front of it. -/
def behind (ch : ℕ) (rest : List ℕ) : List ℕ :=
  if ch = 0x0D ∧ rest.head? = some 0x0A then rest.tail else rest

/-- The cursor behind the next character. -/
def advance (cursor : Cursor) : Cursor :=
  match cursor.rest with
  | [] => cursor
  | ch :: rest =>
      { cursor with
        rest := behind ch rest
        pos :=
          if ch = 0x0D ∨ ch = 0x0A ∨ ch = 0x2028 ∨ ch = 0x2029 then
            { lineNumber := cursor.pos.lineNumber + 1, columnNumber := 1 }
          else { cursor.pos with columnNumber := cursor.pos.columnNumber + 1 } }

/-- Peeks the next character (`peek_char`). -/
def peekChar (cursor : Cursor) : Option ℕ := cursor.rest.head?

/-- Retrieves the next character (`next_char`). -/
def nextChar (cursor : Cursor) : Option ℕ × Cursor := (cursor.peekChar, cursor.advance)

/-- Retrieves the next character if it is this one (`next_if`). -/
def nextIf (cursor : Cursor) (c : ℕ) : Bool × Cursor :=
  if cursor.peekChar = some c then (true, cursor.advance) else (false, cursor)

/-- Applies the predicate to the next character, if it is ASCII (`next_is_ascii_pred`). -/
def nextIsAsciiPred (cursor : Cursor) (pred : Char → Bool) : Bool :=
  match cursor.peekChar with
  | some byte => decide (byte ≤ 0x7F) && pred (Char.ofNat byte)
  | none => false

/-- Behind a code point there is no more than was there. -/
theorem length_behind_le (ch : ℕ) (rest : List ℕ) : (behind ch rest).length ≤ rest.length := by
  rw [behind]
  split
  · rw [List.length_tail]
    exact Nat.sub_le _ _
  · exact Nat.le_refl _

/-- Only a carriage return takes a line feed with it. -/
theorem behind_of_ne {ch : ℕ} (h : ch ≠ 0x0D) (rest : List ℕ) : behind ch rest = rest :=
  if_neg fun hboth => h hboth.1

/-- The cursor moves on behind the code point, and a line feed that belongs to it. -/
theorem rest_advance {cursor : Cursor} {ch : ℕ} {rest : List ℕ} (h : cursor.rest = ch :: rest) :
    cursor.advance.rest = behind ch rest := by
  rw [advance, h]

/-- A character that is no carriage return leaves all others. -/
theorem rest_advance_of_ne {cursor : Cursor} {ch : ℕ} {rest : List ℕ} (h : cursor.rest = ch :: rest)
    (hne : ch ≠ 0x0D) : cursor.advance.rest = rest := by
  rw [rest_advance h, behind_of_ne hne]

/-- Moving on makes the input shorter. -/
theorem length_advance_lt {cursor : Cursor} {ch : ℕ} (h : cursor.peekChar = some ch) :
    cursor.advance.rest.length < cursor.rest.length := by
  obtain ⟨rest, hrest⟩ := List.head?_eq_some_iff.mp h
  rw [rest_advance hrest, hrest, List.length_cons]
  exact Nat.lt_succ_of_le (length_behind_le ch rest)

/-- Fills the buffer with all characters until the stop character (`take_until`). -/
def takeUntil (stop : ℕ) (buf : List ℕ) (cursor : Cursor) : Except Error (List ℕ × Cursor) :=
  match _h : cursor.peekChar with
  | none =>
      .error (.unexpectedEof s!"Unexpected end of file when looking for character {stop}")
  | some c =>
      if c = stop then .ok (buf, cursor.advance) else takeUntil stop (buf ++ [c]) cursor.advance
termination_by cursor.rest.length
decreasing_by exact length_advance_lt _h

end Cursor

/-- An operation succeeds with a value, and leaves these characters. -/
def Delivers {ε α : Type} (result : Except ε (α × Cursor)) (value : α) (rest : List ℕ) : Prop :=
  ∃ cursor, result = .ok (value, cursor) ∧ cursor.rest = rest

/-- A result with a cursor delivers its value, and what is left behind the cursor. -/
theorem delivers_ok {ε α : Type} {value value' : α} {cursor : Cursor} {rest : List ℕ} :
    Delivers (.ok (value, cursor) : Except ε (α × Cursor)) value' rest ↔
      value = value' ∧ cursor.rest = rest := by
  constructor
  · rintro ⟨cursor', hok, hrest⟩
    cases hok
    exact ⟨rfl, hrest⟩
  · rintro ⟨rfl, hrest⟩
    exact ⟨cursor, rfl, hrest⟩

/-- A result delivers one value and leaves one rest. -/
theorem Delivers.unique {ε α : Type} {result : Except ε (α × Cursor)} {value value' : α}
    {rest rest' : List ℕ} (h : Delivers result value rest) (h' : Delivers result value' rest') :
    value = value' ∧ rest = rest' := by
  obtain ⟨cursor, rfl, rfl⟩ := h
  exact delivers_ok.mp h'

/-- An error delivers nothing. -/
@[simp] theorem not_delivers_error {ε α : Type} {error : ε} {value : α} {rest : List ℕ} :
    ¬ Delivers (.error error : Except ε (α × Cursor)) value rest := by
  rintro ⟨cursor, hok, -⟩
  cases hok

namespace Cursor

variable {stop : ℕ} {buf cs rest : List ℕ} {cursor : Cursor}

/-- A code point that is peeked comes next. -/
theorem exists_rest_of_peekChar {ch : ℕ} (h : cursor.peekChar = some ch) :
    ∃ rest, cursor.rest = ch :: rest := List.head?_eq_some_iff.mp h

/-- What is taken stands in front of the stop character, if there is no carriage return in it. -/
theorem takeUntil_sound (h : Delivers (takeUntil stop buf cursor) cs rest) (hcr : 0x0D ∉ cs)
    (hstop : stop ≠ 0x0D) :
    ∃ taken, cs = buf ++ taken ∧ cursor.rest = taken ++ stop :: rest ∧ stop ∉ taken := by
  induction buf, cursor using takeUntil.induct stop with
  | case1 buf cursor hpeek =>
      rw [takeUntil] at h
      split at h
      · exact absurd h not_delivers_error
      · next c hc => rw [hpeek] at hc; cases hc
  | case2 buf cursor hpeek =>
      obtain ⟨after, hafter⟩ := exists_rest_of_peekChar hpeek
      rw [takeUntil] at h
      split at h
      · exact absurd h not_delivers_error
      · next c hc =>
          rw [hpeek] at hc
          cases hc
          rw [if_pos rfl, delivers_ok, rest_advance_of_ne hafter hstop] at h
          obtain ⟨rfl, rfl⟩ := h
          exact ⟨[], (List.append_nil _).symm, hafter, List.not_mem_nil⟩
  | case3 buf cursor c hpeek hne ih =>
      obtain ⟨after, hafter⟩ := exists_rest_of_peekChar hpeek
      rw [takeUntil] at h
      split at h
      · exact absurd h not_delivers_error
      · next c' hc =>
          rw [hpeek] at hc
          cases hc
          rw [if_neg hne] at h
          obtain ⟨taken, rfl, hrest, hnot⟩ := ih h
          have hc : c ≠ 0x0D := fun heq => hcr (by simp [heq])
          rw [rest_advance_of_ne hafter hc] at hrest
          refine ⟨c :: taken, by simp, by rw [hafter, hrest, List.cons_append], ?_⟩
          rw [List.mem_cons, not_or]
          exact ⟨Ne.symm hne, hnot⟩

/-- What comes before the first stop is taken, if neither is a carriage return. -/
theorem takeUntil_complete {taken : List ℕ} (hrest : cursor.rest = taken ++ stop :: rest)
    (hnot : stop ∉ taken) (hcr : 0x0D ∉ taken) (hstop : stop ≠ 0x0D) (buf : List ℕ) :
    Delivers (takeUntil stop buf cursor) (buf ++ taken) rest := by
  induction taken generalizing buf cursor with
  | nil =>
      have hpeek : cursor.peekChar = some stop := by rw [peekChar, hrest]; rfl
      rw [takeUntil]
      split
      · next hnone => rw [hpeek] at hnone; cases hnone
      · next c hc =>
          rw [hpeek] at hc
          cases hc
          rw [if_pos rfl, delivers_ok, rest_advance_of_ne hrest hstop]
          exact ⟨(List.append_nil _).symm, rfl⟩
  | cons d taken ih =>
      have hpeek : cursor.peekChar = some d := by rw [peekChar, hrest]; rfl
      rw [List.mem_cons, not_or] at hnot hcr
      rw [takeUntil]
      split
      · next hnone => rw [hpeek] at hnone; cases hnone
      · next c hc =>
          rw [hpeek] at hc
          cases hc
          have hadvance := rest_advance_of_ne hrest (Ne.symm hcr.1)
          have htail := ih hadvance hnot.2 hcr.2 (buf ++ [d])
          rwa [if_neg (Ne.symm hnot.1), List.append_cons buf d taken]

end Cursor

end BoaLigero.Lexer
