import Mathlib.Algebra.Ring.Nat
import BoaLigero.Util.RingWindow
import Mathlib.Data.List.Chain
import Mathlib.Data.List.ReduceOption

/-!
# Buffered Token Lookahead

The buffer between the parser and the lexer (`parser/cursor/buffered_lexer/mod.rs`), over the
tokens that the lexer delivers.

## Main results

* `BufferedLexer.fill_spec` — a token is written behind the unread ones.
* `BufferedLexer.Inv.next`, `BufferedLexer.Inv.peek` — a call does what it does on a queue of the
  tokens.
* `BufferedLexer.buffered_lookahead` — so does any order of calls.
-/

namespace BoaLigero.Parser

/-! ### Tokens -/

/-- `TokenKind`, as far as the buffer looks at it. -/
inductive TokenKind (α : Type) where
  | lineTerminator
  | comment
  | other (data : α)

/-- A token of the lexer: its kind, and where it ends in the source text. -/
structure Token (α : Type) where
  kind : TokenKind α
  linearSpanEnd : ℕ

/-- Whether a token is a line terminator. -/
def Token.isLineTerminator {α : Type} (token : Token α) : Bool :=
  match token.kind with
  | .lineTerminator => true
  | _ => false

/-- Whether a token is a comment, which no reader of the buffer ever sees. -/
def Token.isComment {α : Type} (token : Token α) : Bool :=
  match token.kind with
  | .comment => true
  | _ => false

/-- What is next in the source text: a token, or `-->`. That is a comment up to the end of its
line where it is skipped as one, and otherwise the start of other tokens. -/
inductive InputItem (α : Type) where
  | token (token : Token α)
  | htmlClose (first : Token α) (line : List (Token α))

/-- The lexer: what is left of the source text. -/
abbrev Lexer (α : Type) := List (InputItem α)

variable {α : Type}

namespace Lexer

/-- `skip_html_close`. -/
def skipHtmlClose : Lexer α → Lexer α
  | .htmlClose _ _ :: items => items
  | items => items

/-- `Lexer::next_no_skip`. -/
def nextNoSkip : Lexer α → Option (Token α) × Lexer α
  | [] => (none, [])
  | .token token :: items => (some token, items)
  | .htmlClose first line :: items => (some first, line.map .token ++ items)

/-- The number of tokens. -/
def weight (lexer : Lexer α) : ℕ :=
  (lexer.map fun
    | .token _ => 1
    | .htmlClose _ line => line.length + 1).sum

/-- Tokens put in front of a lexer add as much to its weight as they are. -/
theorem weight_map_token (tokens : List (Token α)) (items : Lexer α) :
    weight (tokens.map .token ++ items) = tokens.length + weight items := by
  induction tokens with
  | nil => simp
  | cons token tokens ih =>
      simp only [weight, List.map_cons, List.cons_append, List.sum_cons] at ih ⊢
      rw [ih, List.length_cons]
      omega

/-- A token that is read takes weight off the lexer, so that reading ends. -/
theorem weight_nextNoSkip {lexer rest : Lexer α} {token : Token α}
    (h : lexer.nextNoSkip = (some token, rest)) : rest.weight < lexer.weight := by
  match lexer with
  | [] => cases h
  | .token _ :: items =>
      cases h
      simp only [weight, List.map_cons, List.sum_cons]
      omega
  | .htmlClose first line :: items =>
      cases h
      rw [weight_map_token]
      simp only [weight, List.map_cons, List.sum_cons]
      omega

/-- Skipping an HTML-like comment never adds to the weight. -/
theorem weight_skipHtmlClose_le (lexer : Lexer α) : lexer.skipHtmlClose.weight ≤ lexer.weight := by
  match lexer with
  | [] | .token _ :: items => exact Nat.le_refl _
  | .htmlClose _ _ :: items =>
      simp only [skipHtmlClose, weight, List.map_cons, List.sum_cons]
      omega

/-- `Lexer::next`: the next token that is not a comment. -/
def next (lexer : Lexer α) : Option (Token α) × Lexer α :=
  match _h : lexer.nextNoSkip with
  | (none, rest) => (none, rest)
  | (some token, rest) => if token.isComment then next rest else (some token, rest)
termination_by lexer.weight
decreasing_by exact weight_nextNoSkip _h

/-- The loop of `fill` behind a line terminator: the next token that is neither a comment nor
another line terminator. -/
def nextBehindLineTerminator (lexer : Lexer α) : Option (Token α) × Lexer α :=
  match _h : lexer.skipHtmlClose.nextNoSkip with
  | (none, rest) => (none, rest)
  | (some token, rest) =>
      if token.isLineTerminator then nextBehindLineTerminator rest
      else if token.isComment then nextBehindLineTerminator rest.skipHtmlClose
      else (some token, rest)
termination_by lexer.weight
decreasing_by
  · exact Nat.lt_of_lt_of_le (weight_nextNoSkip _h) (weight_skipHtmlClose_le _)
  · exact Nat.lt_of_le_of_lt (weight_skipHtmlClose_le _)
      (Nat.lt_of_lt_of_le (weight_nextNoSkip _h) (weight_skipHtmlClose_le _))

end Lexer

/-! ### What the tokens are read from -/

/-- The tokens that are read from a source text, behind a line terminator or not: comments are
left out, a line terminator may be merged with the one in front of it, and behind a line
terminator `-->` may be a comment. -/
inductive Reads : Bool → Lexer α → List (Token α) → Prop
  | nil {behind : Bool} : Reads behind [] []
  | token {behind : Bool} {token : Token α} {items : Lexer α} {tokens : List (Token α)} :
      token.isComment = false → Reads token.isLineTerminator items tokens →
        Reads behind (.token token :: items) (token :: tokens)
  | comment {behind : Bool} {token : Token α} {items : Lexer α} {tokens : List (Token α)} :
      token.isComment = true → Reads behind items tokens →
        Reads behind (.token token :: items) tokens
  | merge {token : Token α} {items : Lexer α} {tokens : List (Token α)} :
      token.isLineTerminator = true → Reads true items tokens →
        Reads true (.token token :: items) tokens
  | htmlClose {first : Token α} {line : List (Token α)} {items : Lexer α}
      {tokens : List (Token α)} : Reads true items tokens →
        Reads true (.htmlClose first line :: items) tokens
  | notHtmlClose {behind : Bool} {first : Token α} {line : List (Token α)} {items : Lexer α}
      {tokens : List (Token α)} :
        Reads behind (.token first :: (line.map .token ++ items)) tokens →
          Reads behind (.htmlClose first line :: items) tokens

/-- Behind a line terminator more may be left out. -/
theorem Reads.behind {behind : Bool} {lexer : Lexer α} {tokens : List (Token α)}
    (h : Reads behind lexer tokens) : Reads true lexer tokens := by
  induction h with
  | nil => exact .nil
  | token hcomment hrest _ => exact .token hcomment hrest
  | comment hcomment _ ih => exact .comment hcomment ih
  | merge hline _ ih => exact .merge hline ih
  | htmlClose _ ih => exact .htmlClose ih
  | notHtmlClose _ ih => exact .notHtmlClose ih

/-- What may be read anywhere may be read behind a line terminator or not. -/
theorem Reads.of_false {lexer : Lexer α} {tokens : List (Token α)} (h : Reads false lexer tokens)
    (behind : Bool) : Reads behind lexer tokens := by
  cases behind with
  | false => exact h
  | true => exact h.behind

/-- A lexer without input reads no tokens at all. -/
theorem reads_nil_iff {behind : Bool} {tokens : List (Token α)} :
    Reads behind ([] : Lexer α) tokens ↔ tokens = [] := by
  constructor
  · intro h
    cases h
    rfl
  · rintro rfl
    exact .nil

/-- Every source text can be read. -/
theorem exists_reads (behind : Bool) (lexer : Lexer α) : ∃ tokens, Reads behind lexer tokens := by
  induction hn : lexer.weight using Nat.strongRecOn generalizing lexer behind with
  | ind n ih =>
      have hfirst (token : Token α) (items : Lexer α) (hlt : items.weight < n) :
          ∃ tokens, Reads behind (.token token :: items) tokens := by
        cases hcomment : token.isComment with
        | true =>
            obtain ⟨tokens, h⟩ := ih _ hlt behind items rfl
            exact ⟨tokens, .comment hcomment h⟩
        | false =>
            obtain ⟨tokens, h⟩ := ih _ hlt token.isLineTerminator items rfl
            exact ⟨token :: tokens, .token hcomment h⟩
      match lexer with
      | [] => exact ⟨[], .nil⟩
      | .token token :: items =>
          exact hfirst token items (by rw [← hn]; exact Lexer.weight_nextNoSkip rfl)
      | .htmlClose first line :: items =>
          obtain ⟨tokens, h⟩ := hfirst first (line.map .token ++ items)
            (by rw [← hn]; exact Lexer.weight_nextNoSkip rfl)
          exact ⟨tokens, .notHtmlClose h⟩

/-- What is taken first is read first. -/
theorem Lexer.reads_of_nextNoSkip {behind : Bool} {lexer rest : Lexer α} {token : Token α}
    {tokens : List (Token α)} (h : lexer.nextNoSkip = (some token, rest))
    (hreads : Reads behind (.token token :: rest) tokens) : Reads behind lexer tokens := by
  match lexer with
  | [] => cases h
  | .token _ :: _ =>
      cases h
      exact hreads
  | .htmlClose _ _ :: _ =>
      cases h
      exact .notHtmlClose hreads

/-- A lexer that has no token left has no input left. -/
theorem Lexer.eq_nil_of_nextNoSkip {lexer rest : Lexer α} (h : lexer.nextNoSkip = (none, rest)) :
    lexer = [] ∧ rest = [] := by
  match lexer with
  | [] =>
      cases h
      exact ⟨rfl, rfl⟩
  | .token _ :: _ => cases h
  | .htmlClose _ _ :: _ => cases h

/-- What is read behind a skipped HTML-like comment is read with the comment in place, too. -/
theorem Lexer.reads_of_skipHtmlClose {lexer : Lexer α} {tokens : List (Token α)}
    (h : Reads true lexer.skipHtmlClose tokens) : Reads true lexer tokens := by
  match lexer with
  | [] | .token _ :: _ => exact h
  | .htmlClose _ _ :: _ => exact .htmlClose h

/-- What a call of the lexer delivers is read from the source text, and nothing is delivered only
at its end. -/
def Delivers (behind : Bool) (lexer : Lexer α) (result : Option (Token α) × Lexer α) : Prop :=
  match result with
  | (some token, rest) => token.isComment = false ∧
      ∀ tokens, Reads token.isLineTerminator rest tokens → Reads behind lexer (token :: tokens)
  | (none, rest) => rest = [] ∧ Reads behind lexer []

/-- At the end of the input the filtered lexer has no token either. -/
theorem Lexer.next_of_none {lexer rest : Lexer α} (h : lexer.nextNoSkip = (none, rest)) :
    lexer.next = (none, rest) := by
  rw [next]
  split
  · next h' => exact h'.symm.trans h
  · next h' => cases h.symm.trans h'

/-- A comment is read over, and any other token is handed out. -/
theorem Lexer.next_of_some {lexer rest : Lexer α} {token : Token α}
    (h : lexer.nextNoSkip = (some token, rest)) :
    lexer.next = if token.isComment then rest.next else (some token, rest) := by
  rw [next]
  split
  · next h' => cases h.symm.trans h'
  · next h' =>
      cases h.symm.trans h'
      rfl

/-- What is delivered behind something that is left out. -/
theorem Delivers.imp {behind behind' : Bool} {lexer lexer' : Lexer α}
    {result : Option (Token α) × Lexer α} (h : Delivers behind' lexer' result)
    (himp : ∀ tokens, Reads behind' lexer' tokens → Reads behind lexer tokens) :
    Delivers behind lexer result := by
  match result with
  | (none, rest) => exact ⟨h.1, himp _ h.2⟩
  | (some token, rest) => exact ⟨h.1, fun tokens hreads => himp _ (h.2 tokens hreads)⟩

/-- **The lexer** delivers the next token that is not a comment. -/
theorem Lexer.next_spec (behind : Bool) (lexer : Lexer α) : Delivers behind lexer lexer.next := by
  induction hn : lexer.weight using Nat.strongRecOn generalizing lexer with
  | ind n ih =>
      match h : lexer.nextNoSkip with
      | (none, rest) =>
          rw [next_of_none h]
          obtain ⟨rfl, rfl⟩ := eq_nil_of_nextNoSkip h
          exact ⟨rfl, .nil⟩
      | (some token, rest) =>
          rw [next_of_some h]
          cases hcomment : token.isComment with
          | false => exact ⟨hcomment, fun tokens hrest =>
              reads_of_nextNoSkip h (.token hcomment hrest)⟩
          | true =>
              rw [if_pos rfl]
              exact (ih _ (hn ▸ weight_nextNoSkip h) rest rfl).imp fun tokens hreads =>
                reads_of_nextNoSkip h (.comment hcomment hreads)

/-- At the end of the input nothing follows a line terminator. -/
theorem Lexer.nextBehindLineTerminator_of_none {lexer rest : Lexer α}
    (h : lexer.skipHtmlClose.nextNoSkip = (none, rest)) :
    lexer.nextBehindLineTerminator = (none, rest) := by
  rw [nextBehindLineTerminator]
  split
  · next h' => exact h'.symm.trans h
  · next h' => cases h.symm.trans h'

/-- Behind a line terminator further ones and comments are read over, until another token comes. -/
theorem Lexer.nextBehindLineTerminator_of_some {lexer rest : Lexer α} {token : Token α}
    (h : lexer.skipHtmlClose.nextNoSkip = (some token, rest)) :
    lexer.nextBehindLineTerminator =
      if token.isLineTerminator then rest.nextBehindLineTerminator
      else if token.isComment then rest.skipHtmlClose.nextBehindLineTerminator
      else (some token, rest) := by
  rw [nextBehindLineTerminator]
  split
  · next h' => cases h.symm.trans h'
  · next h' =>
      cases h.symm.trans h'
      rfl

/-- **Behind a line terminator** the lexer delivers the next token that is not a comment either,
and no line terminator. -/
theorem Lexer.nextBehindLineTerminator_spec (lexer : Lexer α) :
    Delivers true lexer lexer.nextBehindLineTerminator ∧
      ∀ token, lexer.nextBehindLineTerminator.1 = some token → token.isLineTerminator = false := by
  induction hn : lexer.weight using Nat.strongRecOn generalizing lexer with
  | ind n ih =>
      match h : lexer.skipHtmlClose.nextNoSkip with
      | (none, rest) =>
          rw [nextBehindLineTerminator_of_none h]
          obtain ⟨hskip, rfl⟩ := eq_nil_of_nextNoSkip h
          exact ⟨⟨rfl, reads_of_skipHtmlClose (hskip ▸ .nil)⟩, fun _ heq => nomatch heq⟩
      | (some token, rest) =>
          have hlt : rest.weight < n :=
            hn ▸ Nat.lt_of_lt_of_le (weight_nextNoSkip h) (weight_skipHtmlClose_le _)
          have hfirst {tokens : List (Token α)} (hreads : Reads true (.token token :: rest) tokens) :
              Reads true lexer tokens := reads_of_skipHtmlClose (reads_of_nextNoSkip h hreads)
          rw [nextBehindLineTerminator_of_some h]
          cases hline : token.isLineTerminator with
          | true =>
              rw [if_pos rfl]
              obtain ⟨hdelivers, hnone⟩ := ih _ hlt rest rfl
              exact ⟨hdelivers.imp fun tokens hreads => hfirst (.merge hline hreads), hnone⟩
          | false =>
              rw [if_neg Bool.false_ne_true]
              cases hcomment : token.isComment with
              | true =>
                  rw [if_pos rfl]
                  obtain ⟨hdelivers, hnone⟩ := ih _
                    (Nat.lt_of_le_of_lt (weight_skipHtmlClose_le rest) hlt) rest.skipHtmlClose rfl
                  exact ⟨hdelivers.imp fun tokens hreads =>
                    hfirst (.comment hcomment (reads_of_skipHtmlClose hreads)), hnone⟩
              | false =>
                  rw [if_neg Bool.false_ne_true]
                  exact ⟨⟨hcomment, fun tokens hrest => hfirst (.token hcomment hrest)⟩,
                    fun _ heq => by cases heq; exact hline⟩

/-! ### The buffer -/

/-- The maximum number of tokens which can be peeked ahead (`MAX_PEEK_SKIP`). -/
def maxPeekSkip : ℕ := 3

/-- The fixed size of the buffer (`PEEK_BUF_SIZE`). -/
def peekBufSize : ℕ := (maxPeekSkip + 1) * 2 + 1

/-- `BufferedLexer`: the ring of peeked tokens, where reading and writing stand in it, and the
lexer. -/
structure BufferedLexer (α : Type) where
  lexer : Lexer α
  peeked : Vector (Option (Token α)) peekBufSize
  readIndex : Fin peekBufSize
  writeIndex : Fin peekBufSize
  lastLinearPos : ℕ

namespace BufferedLexer

open RingWindow

/-- `From<Lexer>`. -/
def ofLexer (lexer : Lexer α) : BufferedLexer α where
  lexer
  peeked := .replicate peekBufSize none
  readIndex := ⟨0, Nat.zero_lt_succ _⟩
  writeIndex := ⟨0, Nat.zero_lt_succ _⟩
  lastLinearPos := 0

/-- Fills the peeking buffer with the next token; nothing is a failed assertion: the write index
has reached the read index. -/
def fill (self : BufferedLexer α) : Option (BufferedLexer α) :=
  let (next, lexer) :=
    match self.peeked.get (pred self.writeIndex) with
    | some token =>
        if token.isLineTerminator then self.lexer.nextBehindLineTerminator else self.lexer.next
    | none => self.lexer.next
  let writeIndex := succ self.writeIndex
  if self.readIndex = writeIndex then none
  else
    some
      { self with
        lexer
        peeked := self.peeked.set self.writeIndex next
        writeIndex }

/-- Fills the buffer if an index has reached the write index. -/
def fillAt (index : Fin peekBufSize) (self : BufferedLexer α) : Option (BufferedLexer α) :=
  if index = self.writeIndex then self.fill else some self

/-- Takes the token out of the slot at the read index, and moves the index. -/
def take (self : BufferedLexer α) : Option (Token α) × BufferedLexer α :=
  let tok := self.peeked.get self.readIndex
  (tok,
    { self with
      peeked := self.peeked.set self.readIndex none
      readIndex := succ self.readIndex
      lastLinearPos := (tok.map Token.linearSpanEnd).getD self.lastLinearPos })

/-- Moves the cursor to the next token and returns the token (`next`). -/
def next (skipLineTerminators : Bool) (self : BufferedLexer α) :
    Option (Option (Token α) × BufferedLexer α) := do
  let self ← self.fillAt self.readIndex
  match self.peeked.get self.readIndex with
  | none => some (none, self)
  | some token =>
      (if skipLineTerminators && token.isLineTerminator then
        fillAt (succ self.readIndex) { self with readIndex := succ self.readIndex }
      else some self).map take

/-- The loop of `peek` from an index on; `left` is the number of tokens that are still skipped. -/
def peekLoop (skipLineTerminators : Bool) :
    ℕ → Fin peekBufSize → BufferedLexer α → Option (Option (Token α) × BufferedLexer α)
  | left, readIndex, self => do
      let self ← self.fillAt readIndex
      match self.peeked.get readIndex with
      | none => some (none, self)
      | some token =>
          let skips := skipLineTerminators && token.isLineTerminator
          let readIndex := if skips then succ readIndex else readIndex
          (if skips then self.fillAt readIndex else some self).bind fun self =>
            match left with
            | 0 => some (self.peeked.get readIndex, self)
            | left + 1 => peekLoop skipLineTerminators left (succ readIndex) self

/-- Peeks the `n`th token after the next token (`peek`). -/
def peek (skipN : ℕ) (skipLineTerminators : Bool) (self : BufferedLexer α) :
    Option (Option (Token α) × BufferedLexer α) :=
  if maxPeekSkip < skipN then none
  else if skipN = 0 then do
    let self ← self.fillAt self.readIndex
    let shouldSkipLineTerminator := skipLineTerminators &&
      (self.peeked.get self.readIndex).any Token.isLineTerminator
    if !shouldSkipLineTerminator then return (self.peeked.get self.readIndex, self)
    else
      let nextIndex := succ self.readIndex
      let self ← self.fillAt nextIndex
      return (self.peeked.get nextIndex, self)
  else peekLoop skipLineTerminators skipN self.readIndex self

/-! ### The unread tokens -/

/-- What is in the buffer and has not been read. -/
def unread (self : BufferedLexer α) : List (Option (Token α)) :=
  between self.peeked self.readIndex self.writeIndex

/-- The last slot that was written is a line terminator. -/
def behind (self : BufferedLexer α) : Bool :=
  (self.peeked.get (pred self.writeIndex)).any Token.isLineTerminator

/-- The tokens from the current one on, as they will be read: those in the buffer, and what is
read from the source text behind them. -/
def Stands (self : BufferedLexer α) (queue : List (Token α)) : Prop :=
  ∃ tokens, queue = self.unread.reduceOption ++ tokens ∧ Reads self.behind self.lexer tokens

/-- What is unread are tokens, no two line terminators next to each other, and behind them the
end of the input any number of times. -/
structure Inv (buffered : BufferedLexer α) (tokens : List (Token α)) (ends : ℕ) : Prop where
  unread_eq : buffered.unread = tokens.map some ++ List.replicate ends none
  lexer_eq_nil : 0 < ends → buffered.lexer = []
  isChain : tokens.IsChain fun a b => a.isLineTerminator = true → b.isLineTerminator = false

variable {self self' : BufferedLexer α} {tokens : List (Token α)} {ends : ℕ}

/-- The last of the unread slots is the one before the write index. -/
theorem unread_getLast? (h : self.unread ≠ []) :
    self.unread.getLast? = some (self.peeked.get (pred self.writeIndex)) :=
  getLast?_between (mt between_eq_nil_iff.mpr h)

/-- What `fill` takes from the lexer. -/
theorem fill_eq (hroom : succ self.writeIndex ≠ self.readIndex) {result : Option (Token α)}
    {lexer : Lexer α} (hpulled : (if self.behind then self.lexer.nextBehindLineTerminator
      else self.lexer.next) = (result, lexer)) :
    self.fill =
      some
        { self with
          lexer
          peeked := self.peeked.set self.writeIndex result
          writeIndex := succ self.writeIndex } := by
  rw [behind] at hpulled
  rw [fill]
  cases hget : self.peeked.get (pred self.writeIndex) with
  | none =>
      rw [hget, Option.any_none, if_neg Bool.false_ne_true] at hpulled
      dsimp only
      rw [hpulled, if_neg hroom.symm]
  | some token =>
      rw [hget, Option.any_some] at hpulled
      dsimp only
      rw [hpulled, if_neg hroom.symm]

/-- **A token is written** behind the unread ones, if there is a slot left. -/
theorem fill_spec (h : self.unread.length + 1 < peekBufSize) :
    ∃ self' result, self.fill = some self' ∧
      Delivers self.behind self.lexer (result, self'.lexer) ∧
      (self.behind = true → ∀ token, result = some token → token.isLineTerminator = false) ∧
      self'.unread = self.unread ++ [result] ∧ self'.behind = result.any Token.isLineTerminator ∧
      self'.readIndex = self.readIndex ∧ self'.lastLinearPos = self.lastLinearPos := by
  rw [unread, length_between] at h
  have hroom : succ self.writeIndex ≠ self.readIndex := succ_ne_of_lt h
  obtain ⟨result, lexer, hpulled, hdelivers, hline⟩ : ∃ result lexer,
      (if self.behind then self.lexer.nextBehindLineTerminator else self.lexer.next) =
        (result, lexer) ∧ Delivers self.behind self.lexer (result, lexer) ∧
      (self.behind = true → ∀ token, result = some token → token.isLineTerminator = false) := by
    cases self.behind with
    | false => exact ⟨_, _, rfl, self.lexer.next_spec false, fun h => nomatch h⟩
    | true =>
        obtain ⟨hdelivers, hline⟩ := self.lexer.nextBehindLineTerminator_spec
        exact ⟨_, _, rfl, hdelivers, fun _ => hline⟩
  refine ⟨_, result, fill_eq hroom hpulled, hdelivers, hline, between_push hroom result, ?_, rfl, rfl⟩
  rw [behind]
  dsimp only
  rw [pred_succ]
  exact congrArg _ (Vector.getElem_set_self _)

/-! ### Filling -/

/-- The unread slots hold the buffered tokens; the others mark the end of the input. -/
theorem Inv.reduceOption_unread (hinv : self.Inv tokens ends) :
    self.unread.reduceOption = tokens := by
  rw [hinv.unread_eq, List.reduceOption_append, List.reduceOption_replicate_none,
    List.append_nil]
  clear hinv
  induction tokens with
  | nil => rfl
  | cons token tokens ih => rw [List.map_cons, List.reduceOption_cons_of_some, ih]

/-- The last unread token tells whether the lexer stands behind a line terminator. -/
theorem Inv.behind_eq (hinv : self.Inv tokens 0) {token : Token α}
    (hlast : tokens.getLast? = some token) : self.behind = token.isLineTerminator := by
  have hunread : self.unread = tokens.map some := by
    rw [hinv.unread_eq, List.replicate_zero, List.append_nil]
  have hlast' : self.unread.getLast? = some (some token) := by
    rw [hunread, List.getLast?_map, hlast]
    rfl
  have hne : self.unread ≠ [] := by
    intro hnil
    rw [hnil] at hlast'
    cases hlast'
  rw [unread_getLast? hne] at hlast'
  rw [behind, Option.some.inj hlast', Option.any_some]

/-- A buffer with more unread tokens: what is read from it was to be read before. -/
structure Extends (buffered buffered' : BufferedLexer α) : Prop where
  exists_unread_eq : ∃ more, buffered'.unread = buffered.unread ++ more
  readIndex_eq : buffered'.readIndex = buffered.readIndex
  lastLinearPos_eq : buffered'.lastLinearPos = buffered.lastLinearPos
  stands : ∀ queue, buffered'.Stands queue → buffered.Stands queue

/-- Filling nothing extends the buffer by nothing. -/
theorem Extends.refl (buffered : BufferedLexer α) : Extends buffered buffered :=
  ⟨⟨[], (List.append_nil _).symm⟩, rfl, rfl, fun _ h => h⟩

/-- What is extended twice is extended. -/
theorem Extends.trans {a b c : BufferedLexer α} (hab : Extends a b) (hbc : Extends b c) :
    Extends a c := by
  obtain ⟨more, hmore⟩ := hab.exists_unread_eq
  obtain ⟨more', hmore'⟩ := hbc.exists_unread_eq
  exact ⟨⟨more ++ more', by rw [hmore', hmore, List.append_assoc]⟩,
    hbc.readIndex_eq.trans hab.readIndex_eq, hbc.lastLinearPos_eq.trans hab.lastLinearPos_eq,
    fun queue h => hab.stands queue (hbc.stands queue h)⟩

/-- **Filling** keeps the invariant. -/
theorem Inv.fill (hinv : self.Inv tokens ends) (h : self.unread.length + 1 < peekBufSize) :
    ∃ self' tokens' ends', self.fill = some self' ∧ self'.Inv tokens' ends' ∧
      self'.unread.length = self.unread.length + 1 ∧ Extends self self' := by
  obtain ⟨self', result, hfill, hdelivers, hline, hunread, hbehind, hread, hpos⟩ := fill_spec h
  cases result with
  | none =>
      obtain ⟨hlexer, hreads⟩ := hdelivers
      refine ⟨self', tokens, ends + 1, hfill, ⟨?_, fun _ => hlexer, hinv.isChain⟩,
        by rw [hunread]; simp, ⟨[none], hunread⟩, hread, hpos, ?_⟩
      · rw [hunread, hinv.unread_eq, List.append_assoc, ← List.replicate_succ']
      · rintro queue ⟨rest, rfl, hrest⟩
        rw [hlexer, reads_nil_iff] at hrest
        refine ⟨[], ?_, hreads⟩
        rw [hrest, hunread, List.reduceOption_append, List.reduceOption_singleton,
          Option.toList_none, List.append_nil]
  | some token =>
      obtain ⟨hcomment, hreads⟩ := hdelivers
      have hends : ends = 0 := by
        by_contra hne
        obtain ⟨rest, hrest⟩ := exists_reads token.isLineTerminator self'.lexer
        have hnil := hreads rest hrest
        rw [hinv.lexer_eq_nil (Nat.pos_of_ne_zero hne), reads_nil_iff] at hnil
        cases hnil
      subst hends
      refine ⟨self', tokens ++ [token], 0, hfill, ⟨?_, fun h => absurd h (Nat.lt_irrefl 0), ?_⟩,
        by rw [hunread]; simp, ⟨[some token], hunread⟩, hread, hpos, ?_⟩
      · rw [hunread, hinv.unread_eq]
        simp
      · refine List.isChain_append.mpr ⟨hinv.isChain, List.isChain_singleton _, ?_⟩
        intro last hlast next hnext hline'
        cases hnext
        exact hline ((hinv.behind_eq hlast).trans hline') token rfl
      · rintro queue ⟨rest, rfl, hrest⟩
        rw [hbehind, Option.any_some] at hrest
        refine ⟨token :: rest, ?_, hreads rest hrest⟩
        rw [hunread, List.reduceOption_append, List.reduceOption_singleton, List.append_assoc]
        rfl

/-- An index that is `offset` steps behind the read index is filled. -/
theorem Inv.fillAt (hinv : self.Inv tokens ends) {offset : ℕ}
    (hoffset : offset ≤ self.unread.length) (hroom : offset + 1 < peekBufSize) :
    ∃ self' tokens' ends', self.fillAt (succ^[offset] self.readIndex) = some self' ∧
      self'.Inv tokens' ends' ∧ offset < self'.unread.length ∧ Extends self self' := by
  have hreached : succ^[offset] self.readIndex = self.writeIndex ↔
      offset = self.unread.length := by
    have hlength : self.unread.length = dist self.readIndex self.writeIndex := length_between ..
    rw [hlength] at hoffset
    have hdrop : self.unread.drop offset = _ := drop_between hoffset
    rw [← between_eq_nil_iff, ← hdrop, List.drop_eq_nil_iff]
    omega
  rw [BufferedLexer.fillAt]
  by_cases hend : offset = self.unread.length
  · rw [if_pos (hreached.mpr hend)]
    obtain ⟨self', tokens', ends', hfill, hinv', hlength, hextends⟩ := hinv.fill (hend ▸ hroom)
    exact ⟨self', tokens', ends', hfill, hinv', by omega, hextends⟩
  · rw [if_neg (mt hreached.mp hend)]
    exact ⟨self, tokens, ends, rfl, hinv, by omega, .refl self⟩

/-- The unread slot at an offset is found that many places behind the read index, around the ring.
-/
theorem unread_getElem? {offset : ℕ} (h : offset < self.unread.length) :
    self.unread[offset]? = some (self.peeked.get (succ^[offset] self.readIndex)) := by
  rw [unread, length_between] at h
  exact getElem?_between h

/-! ### The reference queue -/

/-- What is left of a queue from the current token on. -/
def current (skipLineTerminators : Bool) (queue : List (Token α)) : List (Token α) :=
  if skipLineTerminators then queue.dropWhile Token.isLineTerminator else queue

/-- The next token of a queue, and the queue without it. -/
def queueNext (skipLineTerminators : Bool) (queue : List (Token α)) :
    Option (Token α) × List (Token α) :=
  ((current skipLineTerminators queue).head?, (current skipLineTerminators queue).tail)

/-- The token that `n` calls of `queueNext` followed by one more return. -/
def queuePeek (skipLineTerminators : Bool) : ℕ → List (Token α) → Option (Token α)
  | 0, queue => (queueNext skipLineTerminators queue).1
  | n + 1, queue => queuePeek skipLineTerminators n (queueNext skipLineTerminators queue).2

/-- Peeking into an empty queue finds nothing. -/
theorem queuePeek_nil (skip : Bool) (n : ℕ) : queuePeek skip n ([] : List (Token α)) = none := by
  have hcurrent : current skip ([] : List (Token α)) = [] := by cases skip <;> rfl
  induction n with
  | zero => rw [queuePeek, queueNext, hcurrent, List.head?_nil]
  | succ n ih => rw [queuePeek, queueNext, hcurrent, List.tail_nil, ih]

/-- A slot with the end of the input is behind the queue. -/
theorem Inv.drop_of_none (hinv : self.Inv tokens ends) {queue : List (Token α)}
    (hstands : self.Stands queue) {offset : ℕ} (hget : self.unread[offset]? = some none) :
    queue.drop offset = [] := by
  obtain ⟨rest, rfl, hrest⟩ := hstands
  rw [hinv.unread_eq] at hget
  have hge : tokens.length ≤ offset := by
    by_contra hlt
    rw [List.getElem?_append_left (by simpa using hlt), List.getElem?_map] at hget
    cases htoken : tokens[offset]? with
    | none =>
        rw [htoken] at hget
        cases hget
    | some token =>
        rw [htoken] at hget
        cases hget
  have hends : 0 < ends := by
    by_contra hzero
    obtain rfl : ends = 0 := by omega
    rw [List.replicate_zero, List.append_nil, List.getElem?_map, List.getElem?_eq_none hge] at hget
    cases hget
  rw [hinv.lexer_eq_nil hends, reads_nil_iff] at hrest
  rw [hrest, List.append_nil, hinv.reduceOption_unread, List.drop_eq_nil_of_le hge]

/-- A slot with a token is that token of the queue. -/
theorem Inv.drop_of_some (hinv : self.Inv tokens ends) {queue : List (Token α)}
    (hstands : self.Stands queue) {offset : ℕ} {token : Token α}
    (hget : self.unread[offset]? = some (some token)) :
    tokens[offset]? = some token ∧ queue.drop offset = token :: queue.drop (offset + 1) := by
  have htoken : tokens[offset]? = some token := by
    rw [hinv.unread_eq] at hget
    rcases Nat.lt_or_ge offset tokens.length with hlt | hge
    · rw [List.getElem?_append_left (by simpa using hlt), List.getElem?_map] at hget
      simpa using hget
    · rw [List.getElem?_append_right (by simpa using hge), List.getElem?_replicate] at hget
      split at hget <;> cases hget
  obtain ⟨rest, rfl, hrest⟩ := hstands
  rw [hinv.reduceOption_unread]
  obtain ⟨hlt, heq⟩ := List.getElem?_eq_some_iff.mp htoken
  refine ⟨htoken, ?_⟩
  rw [List.drop_append_of_le_length (Nat.le_of_lt hlt), List.drop_append_of_le_length hlt,
    List.drop_eq_getElem_cons hlt, heq, List.cons_append]

/-- Behind a line terminator there is no other one in the buffer. -/
theorem Inv.not_lineTerminator (hinv : self.Inv tokens ends) {offset : ℕ} {token next : Token α}
    (htoken : tokens[offset]? = some token) (hline : token.isLineTerminator = true)
    (hnext : tokens[offset + 1]? = some next) : next.isLineTerminator = false := by
  obtain ⟨hlt, rfl⟩ := List.getElem?_eq_some_iff.mp htoken
  obtain ⟨hlt', rfl⟩ := List.getElem?_eq_some_iff.mp hnext
  exact (List.isChain_iff_getElem.mp hinv.isChain) offset (by omega) hline

/-- The queue from a slot on, where no line terminator is skipped. -/
theorem Inv.current_of_some (hinv : self.Inv tokens ends) {queue : List (Token α)}
    (hstands : self.Stands queue) {offset : ℕ} {token : Token α} {skip : Bool}
    (hget : self.unread[offset]? = some (some token))
    (hkept : (skip && token.isLineTerminator) = false) :
    current skip (queue.drop offset) = queue.drop offset := by
  rw [(hinv.drop_of_some hstands hget).2, current]
  cases skip with
  | false => rfl
  | true =>
      rw [Bool.true_and] at hkept
      rw [if_pos rfl, List.dropWhile_cons_of_neg (by rw [hkept]; exact Bool.false_ne_true)]

/-- The queue from a slot on, where its line terminator is skipped: it goes on with the next
slot, which has none. -/
theorem Inv.current_of_skipped (hinv : self.Inv tokens ends) {queue : List (Token α)}
    (hstands : self.Stands queue) {offset : ℕ} {token : Token α} {next : Option (Token α)}
    (hget : self.unread[offset]? = some (some token)) (hline : token.isLineTerminator = true)
    (hnext : self.unread[offset + 1]? = some next) :
    current true (queue.drop offset) = queue.drop (offset + 1) ∧
      queue.drop (offset + 1) = next.toList ++ (queue.drop (offset + 2)) ∧
      next.any Token.isLineTerminator = false := by
  obtain ⟨htoken, hdrop⟩ := hinv.drop_of_some hstands hget
  rw [hdrop, current, if_pos rfl, List.dropWhile_cons_of_pos hline]
  cases next with
  | none =>
      have hnil := hinv.drop_of_none hstands hnext
      have hnil' : queue.drop (offset + 2) = [] := by
        rw [show offset + 2 = offset + 1 + 1 from rfl, ← List.drop_drop, hnil, List.drop_nil]
      rw [hnil, hnil']
      exact ⟨rfl, rfl, rfl⟩
  | some next =>
      obtain ⟨htoken', hdrop'⟩ := hinv.drop_of_some hstands hnext
      have hnot := hinv.not_lineTerminator htoken hline htoken'
      rw [hdrop', List.dropWhile_cons_of_neg (by rw [hnot]; exact Bool.false_ne_true)]
      exact ⟨rfl, rfl, hnot⟩

/-- A slot shows the token of the queue. -/
theorem Inv.get_eq_head? (hinv : self.Inv tokens ends) {queue : List (Token α)}
    (hstands : self.Stands queue) {offset : ℕ} (hoffset : offset < self.unread.length) :
    self.peeked.get (succ^[offset] self.readIndex) = (queue.drop offset).head? := by
  have hget := unread_getElem? hoffset
  cases hslot : self.peeked.get (succ^[offset] self.readIndex) with
  | none =>
      rw [hslot] at hget
      rw [hinv.drop_of_none hstands hget]
      rfl
  | some token =>
      rw [hslot] at hget
      rw [(hinv.drop_of_some hstands hget).2]
      rfl

/-- **Where a call lands** that starts from a slot and may skip a line terminator. -/
theorem Inv.land (skip : Bool) {offset : ℕ} {token : Token α} (hinv : self.Inv tokens ends)
    (hoffset : offset < self.unread.length) (hroom : offset + 2 < peekBufSize)
    (hget : self.peeked.get (succ^[offset] self.readIndex) = some token) :
    ∃ offset' self' tokens' ends',
      (if skip && token.isLineTerminator then succ (succ^[offset] self.readIndex)
        else succ^[offset] self.readIndex) = succ^[offset'] self.readIndex ∧
      (if skip && token.isLineTerminator then
        BufferedLexer.fillAt (succ (succ^[offset] self.readIndex)) self
        else some self) = some self' ∧
      offset' ≤ offset + 1 ∧ offset' < self'.unread.length ∧ self'.Inv tokens' ends' ∧
      Extends self self' ∧ ∀ queue, self'.Stands queue →
        current skip (queue.drop offset) = queue.drop offset' := by
  have hslot : self.unread[offset]? = some (some token) := by
    rw [unread_getElem? hoffset, hget]
  cases hskips : skip && token.isLineTerminator with
  | false =>
      exact ⟨offset, self, tokens, ends, rfl, rfl, Nat.le_succ _, hoffset, hinv, .refl self,
        fun queue hstands => hinv.current_of_some hstands hslot hskips⟩
  | true =>
      obtain ⟨rfl, hline⟩ := Bool.and_eq_true_iff.mp hskips
      obtain ⟨self', tokens', ends', hfill, hinv', hlt, hextends⟩ :=
        hinv.fillAt (Nat.succ_le_of_lt hoffset) hroom
      rw [Function.iterate_succ_apply'] at hfill
      refine ⟨offset + 1, self', tokens', ends', by rw [if_pos rfl, Function.iterate_succ_apply'],
        hfill, Nat.le_refl _, hlt, hinv', hextends, fun queue hstands => ?_⟩
      have hslot' : self'.unread[offset]? = some (some token) := by
        obtain ⟨more, hmore⟩ := hextends.exists_unread_eq
        rw [hmore, List.getElem?_append_left hoffset, hslot]
      exact (hinv'.current_of_skipped hstands hslot' hline (unread_getElem? hlt)).1

/-- **The loop of `peek`** returns what the reference queue shows, and it writes to no unread
slot. -/
theorem Inv.peekLoop (skip : Bool) (left : ℕ) {offset : ℕ} (hinv : self.Inv tokens ends)
    (hoffset : offset ≤ self.unread.length) (hroom : offset + 2 * left + 2 < peekBufSize) :
    ∃ out self' tokens' ends',
      peekLoop skip left (succ^[offset] self.readIndex) self = some (out, self') ∧
      self'.Inv tokens' ends' ∧ Extends self self' ∧
      ∀ queue, self'.Stands queue → out = queuePeek skip left (queue.drop offset) := by
  induction left using Nat.strongRecOn generalizing self tokens ends offset with
  | ind left ih =>
      obtain ⟨self₁, tokens₁, ends₁, hfill, hinv₁, hlt, hextends₁⟩ :=
        hinv.fillAt hoffset (by omega)
      rw [peekLoop.eq_def]
      simp only [hfill, bind, Option.bind_some]
      have hread := hextends₁.readIndex_eq
      rw [← hread]
      cases hget : self₁.peeked.get (succ^[offset] self₁.readIndex) with
      | none =>
          refine ⟨none, self₁, tokens₁, ends₁, rfl, hinv₁, hextends₁, fun queue hstands => ?_⟩
          have hnil := hinv₁.drop_of_none hstands (by rw [unread_getElem? hlt, hget])
          rw [hnil, queuePeek_nil]
      | some token =>
          obtain ⟨offset', self₂, tokens₂, ends₂, hindex, hfill₂, hle, hlt₂, hinv₂, hextends₂,
            hcurrent⟩ := hinv₁.land skip hlt (by omega) hget
          have hread₂ := hextends₂.readIndex_eq
          have hfill₂' : (if skip && token.isLineTerminator then
              BufferedLexer.fillAt (succ^[offset'] self₁.readIndex) self₁ else some self₁) =
                some self₂ := by
            rw [← hindex]
            cases hskips : skip && token.isLineTerminator <;> rw [hskips] at hfill₂ <;> exact hfill₂
          simp only [hindex, hfill₂', Option.bind_some]
          rw [← hread₂]
          cases left with
          | zero =>
              refine ⟨_, self₂, tokens₂, ends₂, rfl, hinv₂, hextends₁.trans hextends₂,
                fun queue hstands => ?_⟩
              rw [hinv₂.get_eq_head? hstands hlt₂, queuePeek, queueNext, hcurrent queue hstands]
          | succ left =>
              rw [← Function.iterate_succ_apply' succ offset']
              obtain ⟨out, self', tokens', ends', hloop, hinv', hextends', hout⟩ :=
                ih left (Nat.lt_succ_self left) hinv₂ (Nat.succ_le_of_lt hlt₂) (by omega)
              refine ⟨out, self', tokens', ends', hloop, hinv',
                (hextends₁.trans hextends₂).trans hextends', fun queue hstands => ?_⟩
              rw [hout queue hstands, queuePeek, queueNext,
                hcurrent queue (hextends'.stands queue hstands), List.tail_drop]

/-- Filling writes behind what was peeked and leaves the place of reading alone. -/
theorem readIndex_of_fillAt {index : Fin peekBufSize} (h : self.fillAt index = some self') :
    self'.readIndex = self.readIndex := by
  rw [BufferedLexer.fillAt, BufferedLexer.fill] at h
  split at h
  · dsimp only at h
    split at h
    · cases h
    · cases h
      rfl
  · cases h
    rfl

/-- The short path of `peek` is the loop. -/
theorem peek_eq {skipN : ℕ} (h : skipN ≤ maxPeekSkip) (skip : Bool) :
    self.peek skipN skip = peekLoop skip skipN self.readIndex self := by
  rw [peek, if_neg (Nat.not_lt_of_le h)]
  split
  · next hzero =>
      subst hzero
      rw [peekLoop.eq_def]
      simp only [bind]
      cases hfill : self.fillAt self.readIndex with
      | none => rfl
      | some self' =>
          simp only [Option.bind_some, readIndex_of_fillAt hfill]
          cases hget : self'.peeked.get self.readIndex with
          | none => simp
          | some token =>
              simp only [Option.any_some]
              by_cases hskips : (skip && token.isLineTerminator) = true
              · simp only [hskips, if_true, Bool.not_true, if_false, Bool.false_eq_true]
                rfl
              · rw [Bool.not_eq_true] at hskips
                simp [hskips, hget]
  · rfl

/-- **`peek`** returns what the reference queue shows. -/
theorem Inv.peek (hinv : self.Inv tokens ends) {skipN : ℕ} (h : skipN ≤ maxPeekSkip) (skip : Bool) :
    ∃ out self' tokens' ends', self.peek skipN skip = some (out, self') ∧
      self'.Inv tokens' ends' ∧
      ∀ queue, self'.Stands queue → self.Stands queue ∧ queuePeek skip skipN queue = out := by
  obtain ⟨out, self', tokens', ends', hloop, hinv', hextends, hout⟩ :=
    hinv.peekLoop skip skipN (Nat.zero_le _) (by rw [peekBufSize]; omega)
  exact ⟨out, self', tokens', ends', (peek_eq h skip).trans hloop, hinv',
    fun queue hstands => ⟨hextends.stands queue hstands, (hout queue hstands).symm⟩⟩

/-! ### Taking a token -/

/-- The invariant behind the first unread slot. -/
theorem Inv.tail (hinv : self.Inv tokens ends) (hunread : self'.unread = self.unread.tail)
    (hlexer : self'.lexer = self.lexer) : ∃ tokens' ends', self'.Inv tokens' ends' := by
  cases tokens with
  | nil =>
      refine ⟨[], ends - 1, ⟨?_, fun h => ?_, .nil⟩⟩
      · rw [hunread, hinv.unread_eq, List.map_nil, List.nil_append, List.nil_append,
          List.tail_replicate]
      · rw [hlexer, hinv.lexer_eq_nil (by omega)]
  | cons token tokens =>
      refine ⟨tokens, ends, ⟨?_, fun h => hlexer.trans (hinv.lexer_eq_nil h), hinv.isChain.tail⟩⟩
      rw [hunread, hinv.unread_eq]
      rfl

/-- An unread slot is at the read index, and the others follow in the ring. -/
theorem unread_of_cons {slot : Option (Token α)} {rest : List (Option (Token α))}
    (h : self.unread = slot :: rest) :
    self.readIndex ≠ self.writeIndex ∧ self.peeked.get self.readIndex = slot ∧
      between self.peeked (succ self.readIndex) self.writeIndex = rest := by
  have hne : self.readIndex ≠ self.writeIndex := fun heq => by
    rw [unread, heq, between_self] at h
    cases h
  rw [unread, between_of_ne hne] at h
  cases h
  exact ⟨hne, rfl, rfl⟩

/-- **A token is skipped**: the read index moves over it. -/
theorem Inv.skip (hinv : self.Inv tokens ends) {token : Token α}
    {rest : List (Option (Token α))} (hunread : self.unread = some token :: rest) :
    unread { self with readIndex := succ self.readIndex } = rest ∧
      (∃ tokens' ends', Inv { self with readIndex := succ self.readIndex } tokens' ends') ∧
      ∀ queue, Stands { self with readIndex := succ self.readIndex } queue →
        self.Stands (token :: queue) := by
  obtain ⟨_, _, hrest⟩ := unread_of_cons hunread
  have hunread' : unread { self with readIndex := succ self.readIndex } = rest := hrest
  refine ⟨hunread', hinv.tail (hunread'.trans (by rw [hunread]; rfl)) rfl, ?_⟩
  rintro queue ⟨more, rfl, hreads⟩
  refine ⟨more, ?_, hreads⟩
  rw [hunread', hunread, List.reduceOption_cons_of_some, List.cons_append]

/-- **A token is taken** out of its slot. -/
theorem Inv.take (hinv : self.Inv tokens ends) {slot : Option (Token α)}
    {rest : List (Option (Token α))} (hunread : self.unread = slot :: rest) :
    self.take.1 = slot ∧ (∃ tokens' ends', Inv self.take.2 tokens' ends') ∧
      ∀ queue, Stands self.take.2 queue → self.Stands (slot.toList ++ queue) := by
  obtain ⟨hne, hslot, hrest⟩ := unread_of_cons hunread
  have hunread' : unread self.take.2 = rest := (between_set_front hne none).trans hrest
  refine ⟨hslot, hinv.tail (hunread'.trans (by rw [hunread]; rfl)) rfl, ?_⟩
  rintro queue ⟨more, rfl, hreads⟩
  refine ⟨more, ?_, ?_⟩
  · rw [hunread', hunread]
    cases slot with
    | none => rfl
    | some token => rw [List.reduceOption_cons_of_some]; rfl
  · -- Only the slot of the token itself can be the last one that was written.
    by_cases hlast : self.readIndex = pred self.writeIndex
    · have hbehind : behind self.take.2 = false := by
        have hget : (self.peeked.set self.readIndex none).get (pred self.writeIndex) = none := by
          rw [← hlast]
          exact Vector.getElem_set_self _
        exact congrArg (Option.any Token.isLineTerminator) hget
      rw [hbehind] at hreads
      exact hreads.of_false _
    · have hbehind : behind self.take.2 = self.behind := by
        have hget : (self.peeked.set self.readIndex none).get (pred self.writeIndex) =
            self.peeked.get (pred self.writeIndex) :=
          Vector.getElem_set_ne _ _ (fun heq => hlast (Fin.ext heq))
        exact congrArg (Option.any Token.isLineTerminator) hget
      rw [hbehind] at hreads
      exact hreads

/-- Filling does not look at the read index, but for its assertion. -/
theorem fillAt_skip {index : Fin peekBufSize} (hindex : index = succ self.readIndex)
    (h : self.fillAt index = some self') :
    BufferedLexer.fillAt index { self with readIndex := index } =
      some { self' with readIndex := index } := by
  rw [BufferedLexer.fillAt] at h ⊢
  split at h
  · next hreached =>
      rw [if_pos hreached]
      rw [BufferedLexer.fill] at h ⊢
      dsimp only at h ⊢
      split at h
      · cases h
      · have hne : index ≠ succ self.writeIndex := by
          rw [hreached]
          intro heq
          have hval := congrArg Fin.val heq
          have hlt := self.writeIndex.isLt
          rw [val_succ] at hval
          split at hval
          · omega
          · have hsize : peekBufSize = 9 := rfl
            omega
        rw [if_neg hne]
        cases h
        rfl
  · next hreached =>
      rw [if_neg hreached]
      cases h
      rfl

/-- The next token of an empty queue is none. -/
theorem queueNext_nil (skip : Bool) : queueNext skip ([] : List (Token α)) = (none, []) := by
  cases skip <;> rfl

/-- **`next`** returns and removes what the reference queue shows. -/
theorem Inv.next (hinv : self.Inv tokens ends) (skip : Bool) :
    ∃ out self' tokens' ends', self.next skip = some (out, self') ∧ self'.Inv tokens' ends' ∧
      ∀ queue', self'.Stands queue' →
        ∃ queue, self.Stands queue ∧ queueNext skip queue = (out, queue') := by
  obtain ⟨self₁, tokens₁, ends₁, hfill, hinv₁, hlt, hextends⟩ :=
    hinv.fillAt (Nat.zero_le _) (by decide)
  rw [Function.iterate_zero_apply] at hfill
  simp only [BufferedLexer.next, bind, hfill, Option.bind_some]
  cases hunread : self₁.unread with
  | nil =>
      rw [hunread] at hlt
      exact absurd hlt (Nat.not_lt_zero _)
  | cons slot rest =>
      obtain ⟨_, hget, _⟩ := unread_of_cons hunread
      rw [hget]
      have hslot : self₁.unread[0]? = some slot := by rw [hunread]; rfl
      cases slot with
      | none =>
          refine ⟨none, self₁, tokens₁, ends₁, rfl, hinv₁, fun queue' hstands => ?_⟩
          have hnil : queue' = [] := hinv₁.drop_of_none hstands hslot
          exact ⟨queue', hextends.stands queue' hstands, by rw [hnil, queueNext_nil]⟩
      | some token =>
          dsimp only
          by_cases hskips : (skip && token.isLineTerminator) = true
          · -- The line terminator is skipped, and the slot behind it is filled and taken.
            obtain ⟨rfl, hline⟩ := Bool.and_eq_true_iff.mp hskips
            obtain ⟨self₂, tokens₂, ends₂, hfill₂, hinv₂, hlt₂, hextends₂⟩ :=
              hinv₁.fillAt (Nat.succ_le_of_lt hlt) (by decide)
            obtain ⟨more, hmore⟩ := hextends₂.exists_unread_eq
            rw [hunread, List.cons_append] at hmore
            cases hrest : rest ++ more with
            | nil =>
                rw [hmore, hrest] at hlt₂
                exact absurd hlt₂ (Nat.lt_irrefl 1)
            | cons slot₂ rest₂ =>
                rw [hrest] at hmore
                obtain ⟨hunread₃, ⟨tokens₃, ends₃, hinv₃⟩, hstands₃⟩ := hinv₂.skip hmore
                obtain ⟨hout, ⟨tokens₄, ends₄, hinv₄⟩, hstands₄⟩ := hinv₃.take hunread₃
                rw [hextends₂.readIndex_eq] at hout hinv₄ hstands₄ hstands₃
                have hfirst : self₂.unread[0]? = some (some token) := by rw [hmore]; rfl
                have hsecond : self₂.unread[1]? = some slot₂ := by rw [hmore]; rfl
                have hskipped : BufferedLexer.fillAt (succ self₁.readIndex)
                    { self₁ with readIndex := succ self₁.readIndex } =
                      some { self₂ with readIndex := succ self₁.readIndex } := fillAt_skip rfl hfill₂
                rw [if_pos hskips, hskipped, Option.map_some]
                refine ⟨slot₂, _, tokens₄, ends₄, congrArg some (Prod.ext hout rfl), hinv₄,
                  fun queue' hstands => ?_⟩
                have hqueue := hstands₃ _ (hstands₄ queue' hstands)
                refine ⟨_, hextends.stands _ (hextends₂.stands _ hqueue), ?_⟩
                have hcurrent : current true (token :: (slot₂.toList ++ queue')) =
                    slot₂.toList ++ queue' :=
                  (hinv₂.current_of_skipped hqueue hfirst hline hsecond).1
                rw [queueNext, hcurrent]
                cases slot₂ with
                | none =>
                    have hnil : queue' = [] := hinv₂.drop_of_none hqueue hsecond
                    rw [hnil]
                    rfl
                | some next => rfl
          · rw [Bool.not_eq_true] at hskips
            obtain ⟨hout, ⟨tokens', ends', hinv'⟩, hstands'⟩ := hinv₁.take hunread
            rw [hskips, if_neg Bool.false_ne_true, Option.map_some]
            refine ⟨some token, self₁.take.2, tokens', ends', congrArg some (Prod.ext hout rfl),
              hinv', fun queue' hstands => ?_⟩
            have hqueue := hstands' queue' hstands
            have hcurrent : current skip ((some token).toList ++ queue') = _ :=
              hinv₁.current_of_some hqueue hslot hskips
            refine ⟨_, hextends.stands _ hqueue, ?_⟩
            rw [queueNext, hcurrent]
            rfl

/-! ### Any order of calls -/

/-- A call of the parser. -/
inductive Call where
  | next (skipLineTerminators : Bool)
  | peek (skipN : ℕ) (skipLineTerminators : Bool)

/-- Whether a call asks for line terminators to be left out. -/
def Call.skipLineTerminators : Call → Bool
  | next skip => skip
  | peek _ skip => skip

/-- Performs a call on the buffer; it fails where the code would loop or index out of bounds. -/
def perform : Call → BufferedLexer α → Option (Option (Token α) × BufferedLexer α)
  | .next skip, self => self.next skip
  | .peek skipN skip, self => self.peek skipN skip

/-- The calls in order, and what they return; nothing is a failed assertion. -/
def run : List Call → BufferedLexer α → Option (List (Option (Token α)) × BufferedLexer α)
  | [], self => some ([], self)
  | call :: calls, self => do
      let (out, self) ← perform call self
      let (outs, self) ← run calls self
      return (out :: outs, self)

/-- A call of the reference queue. -/
def queuePerform : Call → List (Token α) → Option (Token α) × List (Token α)
  | .next skip, queue => queueNext skip queue
  | .peek skipN skip, queue => (queuePeek skip skipN queue, queue)

/-- What the calls return on the reference queue. -/
def queueRun : List Call → List (Token α) → List (Option (Token α))
  | [], _ => []
  | call :: calls, queue =>
      (queuePerform call queue).1 :: queueRun calls (queuePerform call queue).2

/-- The calls that the assertion of `peek` allows. -/
def Call.IsAllowed : Call → Prop
  | next _ => True
  | peek skipN _ => skipN ≤ maxPeekSkip

/-- **A call** does what it does on the reference queue. -/
theorem Inv.perform (hinv : self.Inv tokens ends) {call : Call} (hallowed : call.IsAllowed) :
    ∃ out self' tokens' ends', perform call self = some (out, self') ∧ self'.Inv tokens' ends' ∧
      ∀ queue', self'.Stands queue' →
        ∃ queue, self.Stands queue ∧ queuePerform call queue = (out, queue') := by
  cases call with
  | next skip => exact hinv.next skip
  | peek skipN skip =>
      obtain ⟨out, self', tokens', ends', hpeek, hinv', hstands⟩ := hinv.peek hallowed skip
      refine ⟨out, self', tokens', ends', hpeek, hinv', fun queue' h => ⟨queue', ?_, ?_⟩⟩
      · exact (hstands queue' h).1
      · rw [queuePerform, (hstands queue' h).2]

/-- The order of the calls is that of the reference queue: the queue is the one that is left at
the end, with what every call before has taken. -/
theorem Inv.run (hinv : self.Inv tokens ends) {calls : List Call}
    (hallowed : ∀ call ∈ calls, call.IsAllowed) :
    ∃ outs self' queue, run calls self = some (outs, self') ∧
      (∃ tokens' ends', self'.Inv tokens' ends') ∧ self.Stands queue ∧
      queueRun calls queue = outs := by
  induction calls generalizing self tokens ends with
  | nil =>
      obtain ⟨rest, hrest⟩ := exists_reads self.behind self.lexer
      exact ⟨[], self, _, rfl, ⟨tokens, ends, hinv⟩, ⟨rest, rfl, hrest⟩, rfl⟩
  | cons call calls ih =>
      obtain ⟨out, self', tokens', ends', hperform, hinv', hstands⟩ :=
        hinv.perform (hallowed call List.mem_cons_self)
      obtain ⟨outs, last, queue', hrun, hlast, hqueue', houts⟩ :=
        ih hinv' fun call hmem => hallowed call (List.mem_cons_of_mem _ hmem)
      obtain ⟨queue, hqueue, heq⟩ := hstands queue' hqueue'
      refine ⟨out :: outs, last, queue, ?_, hlast, hqueue, ?_⟩
      · simp only [BufferedLexer.run, hperform, bind, Option.bind_some, hrun]
        rfl
      · rw [queueRun, heq, houts]

/-- A new buffer holds nothing and is in order. -/
theorem inv_ofLexer (lexer : Lexer α) : (ofLexer lexer).Inv [] 0 :=
  ⟨rfl, fun h => absurd h (Nat.lt_irrefl 0), .nil⟩

/-- A new buffer stands in front of all that its lexer reads. -/
theorem stands_ofLexer {lexer : Lexer α} {queue : List (Token α)} :
    (ofLexer lexer).Stands queue ↔ Reads false lexer queue := by
  constructor
  · rintro ⟨tokens, rfl, hreads⟩
    exact hreads
  · exact fun h => ⟨queue, rfl, h⟩

/-- A skipping call returns no line terminator. -/
theorem queuePerform_skips {call : Call} (h : call.skipLineTerminators = true)
    (queue : List (Token α)) :
    (queuePerform call queue).1.any Token.isLineTerminator = false := by
  have hnext (queue : List (Token α)) :
      (queueNext true queue).1.any Token.isLineTerminator = false := by
    rw [queueNext, current, if_pos rfl]
    cases hhead : (queue.dropWhile Token.isLineTerminator).head? with
    | none => rfl
    | some token =>
        have hnot := List.head?_dropWhile_not Token.isLineTerminator queue
        rw [hhead] at hnot
        simpa using hnot
  cases call with
  | next skip =>
      obtain rfl : skip = true := h
      exact hnext queue
  | peek skipN skip =>
      obtain rfl : skip = true := h
      rw [queuePerform]
      induction skipN generalizing queue with
      | zero => exact hnext queue
      | succ skipN ih => exact ih _

/-- A call that leaves out line terminators never answers one. -/
theorem queueRun_skips (calls : List Call) (queue : List (Token α)) :
    ∀ result ∈ calls.zip (queueRun calls queue), result.1.skipLineTerminators = true →
      result.2.any Token.isLineTerminator = false := by
  induction calls generalizing queue with
  | nil => exact fun _ hmem => nomatch hmem
  | cons call calls ih =>
      intro result hmem hskips
      rw [queueRun, List.zip_cons_cons, List.mem_cons] at hmem
      rcases hmem with rfl | hmem
      · exact queuePerform_skips hskips queue
      · exact ih _ result hmem hskips

/-- A token that is peeked is the one that comes last when the tokens in front of it are taken. -/
theorem queueRun_replicate_next (skip : Bool) (n : ℕ) (queue : List (Token α)) :
    (queueRun (List.replicate (n + 1) (.next skip)) queue).getLast? =
      some (queuePeek skip n queue) := by
  induction n generalizing queue with
  | zero => rfl
  | succ n ih =>
      rw [List.replicate_succ, queueRun, List.getLast?_cons, queuePerform, ih]
      rfl

/-- **Buffered lookahead**: whatever the parser calls, no assertion fails, and the calls return
what they return on a queue of the tokens of the source text, with line terminators that are next
to each other merged or not; a skipping call returns no line terminator; and in every state that
is reached, what is peeked is returned again when it is the next token. -/
theorem buffered_lookahead (lexer : Lexer α) (calls : List Call)
    (hallowed : ∀ call ∈ calls, call.IsAllowed) :
    ∃ outs last queue, run calls (ofLexer lexer) = some (outs, last) ∧ Reads false lexer queue ∧
      queueRun calls queue = outs ∧
      (∀ result ∈ calls.zip outs, result.1.skipLineTerminators = true →
        result.2.any Token.isLineTerminator = false) ∧
      ∀ n ≤ maxPeekSkip, ∀ skip, ∃ out nexts last',
        run (.peek n skip :: List.replicate (n + 1) (.next skip)) last =
          some (out :: nexts, last') ∧ nexts.getLast? = some out := by
  obtain ⟨outs, last, queue, hrun, ⟨tokens, ends, hinv⟩, hstands, houts⟩ :=
    (inv_ofLexer lexer).run hallowed
  refine ⟨outs, last, queue, hrun, stands_ofLexer.mp hstands, houts, ?_, fun n hn skip => ?_⟩
  · rw [← houts]
    exact queueRun_skips calls queue
  · have hallowed' : ∀ call ∈ Call.peek n skip :: List.replicate (n + 1) (.next skip),
        call.IsAllowed := by
      intro call hmem
      rcases List.mem_cons.mp hmem with rfl | hmem
      · exact hn
      · rw [List.eq_of_mem_replicate hmem]
        exact trivial
    obtain ⟨outs', last', queue', hrun', _, _, rfl⟩ := hinv.run hallowed'
    exact ⟨_, _, last', hrun', queueRun_replicate_next skip n queue'⟩

/-- Two line terminators in the middle. The second one is merged with the first if that is in the
buffer, and else it is returned as a token of its own. -/
def linesLexer : Lexer ℕ :=
  [.token ⟨.other 0, 1⟩, .token ⟨.lineTerminator, 2⟩, .token ⟨.lineTerminator, 3⟩,
    .token ⟨.other 1, 4⟩]

/-- Calls with and without line terminators, a peek between them. -/
def linesCalls : List Call := [.next false, .peek 1 false, .next true, .peek 3 true]

/-- The calls of the example peek no further than the buffer is long. -/
theorem isAllowed_linesCalls : ∀ call ∈ linesCalls, call.IsAllowed := by
  intro call hmem
  simp only [linesCalls, List.mem_cons, List.not_mem_nil, or_false] at hmem
  rcases hmem with rfl | rfl | rfl | rfl <;> simp [Call.IsAllowed, maxPeekSkip]

/-- The calls of the example answer what the queue of the tokens of the text does. -/
theorem buffered_lookahead_lines :
    ∃ outs last queue, run linesCalls (ofLexer linesLexer) = some (outs, last) ∧
      Reads false linesLexer queue ∧ queueRun linesCalls queue = outs := by
  obtain ⟨outs, last, queue, hrun, hreads, houts, -, -⟩ :=
    buffered_lookahead linesLexer linesCalls isAllowed_linesCalls
  exact ⟨outs, last, queue, hrun, hreads, houts⟩

end BufferedLexer

end BoaLigero.Parser
