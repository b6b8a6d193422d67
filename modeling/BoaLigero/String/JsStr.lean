import BoaLigero.String.CodePoint
import BoaLigero.Util.Sequence

/-!
# String Slices

A string slice (`string/str.rs`) is a sequence of bytes, its Latin1 characters, or of UTF-16
code units. Each operation has its way of going through either, and through two strings of
different kinds.

What an operation is to answer depends on the code units only: each is shown to be a
function of `iter`, or for `index_of` to find the first occurrence.

## Main results

* `eq_iff`, `cmp_eq`, `hash_eq` — comparisons and hashes go by the code units.
* `isFirst_indexOf` — `index_of` finds the first occurrence.
-/

namespace BoaLigero

/-- A string slice (`JsStrVariant`). -/
inductive JsStr where
  | latin1 (v : List UInt8)
  | utf16 (v : List UInt16)
  deriving DecidableEq

/-- A range of indices (`SliceIndex`). -/
inductive SliceIndex where
  | range (start stop : ℕ)
  | rangeInclusive (start stop : ℕ)
  | rangeFrom (start : ℕ)
  | rangeTo (stop : ℕ)
  | rangeFull

/-- A part of a slice, if the range is in bounds (`slice::get`). -/
def SliceIndex.get {α : Type} (index : SliceIndex) (xs : List α) : Option (List α) :=
  let part (start stop : ℕ) :=
    if start ≤ stop ∧ stop ≤ xs.length then some (Sequence.slice start stop xs) else none
  match index with
  | range start stop => part start stop
  | rangeInclusive start stop => part start (stop + 1)
  | rangeFrom start => part start xs.length
  | rangeTo stop => part 0 stop
  | rangeFull => some xs

/-- What a hasher does with the numbers that strings are made of (`Hasher`). -/
structure Hasher (H : Type) where
  writeUsize : H → ℕ → H
  writeU16 : H → UInt16 → H

/-- Whether a character is trimmed (`is_trimmable_whitespace`). -/
def isTrimmableWhitespace (c : Char) : Bool :=
  let n := c.toNat
  n = 0x9 || n = 0xB || n = 0xC || n = 0x20 || n = 0xA0 || n = 0xFEFF || n = 0x1680 ||
    (0x2000 ≤ n && n ≤ 0x200A) || n = 0x202F || n = 0x205F || n = 0x3000 ||
    n = 0xA || n = 0xD || n = 0x2028 || n = 0x2029

/-- Whether a Latin1 character is trimmed (`is_trimmable_whitespace_latin1`). -/
def isTrimmableWhitespaceLatin1 (b : UInt8) : Bool :=
  b = 0x9 || b = 0xB || b = 0xC || b = 0x20 || b = 0xA0 || b = 0xA || b = 0xD

/-- Whether a code unit is a character that is trimmed. -/
def isTrimmableUnit (unit : UInt16) : Bool :=
  !isSurrogate unit && isTrimmableWhitespace (Char.ofNat unit.toNat)

namespace JsStr

/-- The number of code units. -/
def len : JsStr → ℕ
  | latin1 v => v.length
  | utf16 v => v.length

def isLatin1 : JsStr → Bool
  | latin1 _ => true
  | utf16 _ => false

/-- The bytes of a Latin1 string. -/
def asLatin1 : JsStr → Option (List UInt8)
  | latin1 v => some v
  | utf16 _ => none

/-- The code units. -/
def iter : JsStr → List UInt16
  | latin1 v => v.map UInt8.toUInt16
  | utf16 v => v

/-- The overlapping parts of a given length. -/
def windows (size : ℕ) : JsStr → List JsStr
  | latin1 v => (Sequence.windows size v).map latin1
  | utf16 v => (Sequence.windows size v).map utf16

/-- The code unit at an index. -/
def get (index : ℕ) : JsStr → Option UInt16
  | latin1 v => v[index]?.map UInt8.toUInt16
  | utf16 v => v[index]?

/-- The part of the string in a range. -/
def getSlice (index : SliceIndex) : JsStr → Option JsStr
  | latin1 v => (index.get v).map latin1
  | utf16 v => (index.get v).map utf16

/-- The part of the string in a range, which is in bounds (`get_unchecked`). -/
def getUnchecked (start stop : ℕ) : JsStr → JsStr
  | latin1 v => latin1 (Sequence.slice start stop v)
  | utf16 v => utf16 (Sequence.slice start stop v)

/-- Equality (`PartialEq`). -/
def eq : JsStr → JsStr → Bool
  | latin1 lhs, latin1 rhs => lhs == rhs
  | utf16 lhs, utf16 rhs => lhs == rhs
  | s, other =>
      if s.len ≠ other.len then false else (s.iter.zip other.iter).all fun (x, y) => x == y

/-- Comparison (`Ord`). -/
def cmp : JsStr → JsStr → Ordering
  | latin1 x, latin1 y => List.compareLex compare x y
  | utf16 x, utf16 y => List.compareLex compare x y
  | s, other => List.compareLex compare s.iter other.iter

/-- Hashing (`Hash`). -/
def hash {H : Type} (hasher : Hasher H) (state : H) : JsStr → H
  | latin1 s =>
      s.foldl (fun state elem => hasher.writeU16 state elem.toUInt16)
        (hasher.writeUsize state s.length)
  | utf16 s => s.foldl hasher.writeU16 (hasher.writeUsize state s.length)

/-- Comparison with a Rust string (`PartialEq<str>`). -/
def eqStr (s : JsStr) (other : String) : Bool :=
  match s with
  | latin1 v => v == asBytes other
  | utf16 v => ((encodeUtf16 other).zip v).all fun (a, b) => a == b

/-- Whether `needle` is a prefix; nothing is a panic. -/
def startsWith (s needle : JsStr) : Option Bool :=
  if needle.len ≤ s.len then (s.getSlice (.rangeTo needle.len)).map needle.eq else some false

/-- Whether `needle` is a suffix; nothing is a panic. -/
def endsWith (s needle : JsStr) : Option Bool :=
  if needle.len ≤ s.len then (s.getSlice (.rangeFrom (s.len - needle.len))).map needle.eq
  else some false

/-- The index of the first occurrence of `searchValue` (`index_of`). -/
def indexOf (s searchValue : JsStr) (fromIndex : ℕ) : Option ℕ :=
  if searchValue.len = 0 then if fromIndex ≤ s.len then some fromIndex else none
  else
    (((s.windows searchValue.len).drop fromIndex).findIdx? fun w => w.eq searchValue).map
      (· + fromIndex)

/-- The code point at a position (`code_point_at`); nothing is a failed assertion. -/
def codePointAt (s : JsStr) (position : ℕ) : Option CodePoint :=
  if position < s.len then
    match s with
    | latin1 v => v[position]?.map fun b => .unicode (Char.ofNat b.toNat)
    | utf16 v =>
        let units := ((SliceIndex.rangeInclusive position (position + 1)).get v <|>
          (SliceIndex.rangeInclusive position position).get v).getD []
        (decodeUtf16 units).head?.map .ofDecoded
  else none

/-- The code points (`code_points`). -/
def codePoints : JsStr → List CodePoint
  | latin1 v => v.map fun b => .unicode (Char.ofNat b.toNat)
  | utf16 v => (decodeUtf16 v).map .ofDecoded

variable {s t needle : JsStr}

@[simp] theorem iter_latin1 (v : List UInt8) : (latin1 v).iter = v.map UInt8.toUInt16 := rfl

@[simp] theorem iter_utf16 (v : List UInt16) : (utf16 v).iter = v := rfl

theorem len_eq (s : JsStr) : s.len = s.iter.length := by
  cases s <;> simp [len]

/-! ### Comparisons -/

theorem toUInt16_injective : Function.Injective UInt8.toUInt16 := fun a b h => by
  have hnat := congrArg UInt16.toNat h
  rw [UInt8.toNat_toUInt16, UInt8.toNat_toUInt16] at hnat
  exact UInt8.toNat_inj.mp hnat

/-- Two lists of one length are equal if all their elements are. -/
theorem all_zip_iff {xs ys : List UInt16} (h : xs.length = ys.length) :
    ((xs.zip ys).all fun (x, y) => x == y) = true ↔ xs = ys := by
  induction xs generalizing ys with
  | nil =>
      cases ys with
      | nil => simp
      | cons y ys => cases h
  | cons x xs ih =>
      cases ys with
      | nil => cases h
      | cons y ys => simpa using fun _ => by simpa using ih (Nat.succ.inj h)

/-- **Strings are equal** if their code units are. -/
theorem eq_iff : s.eq t = true ↔ s.iter = t.iter := by
  have hmixed : (if s.len ≠ t.len then false
      else (s.iter.zip t.iter).all fun (x, y) => x == y) = true ↔ s.iter = t.iter := by
    split
    · next hne =>
        refine iff_of_false Bool.false_ne_true fun heq => hne ?_
        rw [len_eq, len_eq, heq]
    · next heq =>
        rw [not_not, len_eq, len_eq] at heq
        exact all_zip_iff heq
  cases s with
  | latin1 v =>
      cases t with
      | latin1 w => simp [eq, (List.map_injective_iff.mpr toUInt16_injective).eq_iff]
      | utf16 w => exact hmixed
  | utf16 v =>
      cases t with
      | latin1 w => exact hmixed
      | utf16 w => simp [eq]

theorem compare_toUInt16 (x y : UInt8) : compare x.toUInt16 y.toUInt16 = compare x y := by
  simp only [compare, compareOfLessAndEq, UInt16.lt_iff_toNat_lt, UInt8.lt_iff_toNat_lt,
    UInt8.toNat_toUInt16, toUInt16_injective.eq_iff]

/-- **Strings are ordered** by their code units. -/
theorem cmp_eq (s t : JsStr) : s.cmp t = List.compareLex compare s.iter t.iter := by
  cases s with
  | latin1 v =>
      cases t with
      | latin1 w => exact (Sequence.compareLex_map compare_toUInt16 v w).symm
      | utf16 w => rfl
  | utf16 v => cases t <;> rfl

/-- **A hash** is that of the code units. -/
theorem hash_eq {H : Type} (hasher : Hasher H) (state : H) (s : JsStr) :
    s.hash hasher state =
      s.iter.foldl hasher.writeU16 (hasher.writeUsize state s.iter.length) := by
  cases s <;> simp [hash, List.foldl_map]

/-! ### Parts of a string -/

theorem get_eq (s : JsStr) (index : ℕ) : s.get index = s.iter[index]? := by
  cases s <;> simp [get]

theorem sliceIndex_get_map {α β : Type} (f : α → β) (index : SliceIndex) (xs : List α) :
    index.get (xs.map f) = (index.get xs).map (List.map f) := by
  cases index <;> simp only [SliceIndex.get, List.length_map, Sequence.slice_map] <;>
    first | rfl | (split <;> rfl)

/-- A part of a string has the code units of the range. -/
theorem getSlice_eq (s : JsStr) (index : SliceIndex) :
    (s.getSlice index).map iter = index.get s.iter := by
  cases s with
  | latin1 v =>
      rw [getSlice, iter_latin1, sliceIndex_get_map, Option.map_map]
      rfl
  | utf16 v =>
      rw [getSlice, iter_utf16, Option.map_map]
      exact Option.map_id'

theorem exists_getSlice {index : SliceIndex} {xs : List UInt16} (h : index.get s.iter = some xs) :
    ∃ part, s.getSlice index = some part ∧ part.iter = xs :=
  Option.map_eq_some_iff.mp ((getSlice_eq s index).trans h)

theorem iter_getUnchecked (s : JsStr) (start stop : ℕ) :
    (s.getUnchecked start stop).iter = Sequence.slice start stop s.iter := by
  cases s <;> simp [getUnchecked]

theorem windows_eq (s : JsStr) (size : ℕ) :
    (s.windows size).map iter = Sequence.windows size s.iter := by
  cases s with
  | latin1 v =>
      rw [windows, iter_latin1, Sequence.windows_map, List.map_map]
      rfl
  | utf16 v =>
      rw [windows, iter_utf16, List.map_map]
      exact List.map_id' _

/-- Whether the string begins with `needle`. -/
theorem startsWith_eq (s needle : JsStr) :
    s.startsWith needle = some (decide (needle.iter <+: s.iter)) := by
  rw [startsWith, len_eq, len_eq]
  split
  · next hle =>
      obtain ⟨part, hpart, hiter⟩ := exists_getSlice (s := s)
        (show (SliceIndex.rangeTo needle.iter.length).get s.iter = some _ from
          if_pos ⟨Nat.zero_le _, hle⟩)
      rw [hpart, Option.map_some, Option.some_inj, Bool.eq_iff_iff, eq_iff, decide_eq_true_iff,
        hiter, Sequence.slice_zero, List.prefix_iff_eq_take]
  · next hgt =>
      rw [Option.some_inj, eq_comm, decide_eq_false_iff_not]
      exact fun hprefix => hgt hprefix.length_le

/-- Whether the string ends with `needle`. -/
theorem endsWith_eq (s needle : JsStr) :
    s.endsWith needle = some (decide (needle.iter <:+ s.iter)) := by
  rw [endsWith, len_eq, len_eq]
  split
  · next hle =>
      obtain ⟨part, hpart, hiter⟩ := exists_getSlice (s := s)
        (show (SliceIndex.rangeFrom (s.iter.length - needle.iter.length)).get s.iter = some _ from
          if_pos ⟨Nat.sub_le _ _, le_rfl⟩)
      rw [hpart, Option.map_some, Option.some_inj, Bool.eq_iff_iff, eq_iff, decide_eq_true_iff,
        hiter, Sequence.slice_length, List.suffix_iff_eq_drop]
  · next hgt =>
      rw [Option.some_inj, eq_comm, decide_eq_false_iff_not]
      exact fun hsuffix => hgt hsuffix.length_le

/-- **The search** finds the first occurrence. -/
theorem isFirst_indexOf (s searchValue : JsStr) (fromIndex : ℕ) :
    Sequence.IsFirst (Sequence.OccursAt s.iter searchValue.iter) fromIndex
      (s.indexOf searchValue fromIndex) := by
  rw [indexOf, len_eq, len_eq]
  split
  · next hzero =>
      rw [List.length_eq_zero_iff.mp hzero]
      exact Sequence.isFirst_nil _ _
  · next hpos =>
      have hne : searchValue.iter ≠ [] := fun hnil => hpos (by rw [hnil, List.length_nil])
      have hfind := Sequence.isFirst_findWindow s.iter (fun w => decide_eq_true_iff) hne fromIndex
      rw [← windows_eq, ← List.map_drop, List.findIdx?_map] at hfind
      have hsame : (fun w => decide (w = searchValue.iter)) ∘ iter = fun w => w.eq searchValue := by
        funext w
        rw [Function.comp, Bool.eq_iff_iff, eq_iff, decide_eq_true_iff]
      rwa [hsame] at hfind

/-! ### Code points -/

/-- The code points are those of the code units. -/
theorem codePoints_eq (s : JsStr) : s.codePoints = (decodeUtf16 s.iter).map .ofDecoded := by
  cases s with
  | latin1 v =>
      rw [codePoints, iter_latin1, decodeUtf16_toUInt16, List.map_map]
      rfl
  | utf16 v => rfl

/-- The code units at a position and behind it, or the one at the position if it is the last. -/
theorem rangeInclusive_getD {v : List UInt16} {position : ℕ} (h : position < v.length) :
    ((SliceIndex.rangeInclusive position (position + 1)).get v <|>
      (SliceIndex.rangeInclusive position position).get v).getD [] =
        (v.drop position).take 2 := by
  simp only [SliceIndex.get, Sequence.slice, List.drop_take]
  by_cases htwo : position + 1 + 1 ≤ v.length
  · rw [if_pos ⟨by omega, htwo⟩, show position + 1 + 1 - position = 2 by omega]
    rfl
  · rw [if_neg (fun hle => htwo hle.2), if_pos ⟨by omega, h⟩]
    change (v.drop position).take (position + 1 - position) = _
    rw [List.take_of_length_le, List.take_of_length_le]
    · simp only [List.length_drop]
      omega
    · simp only [List.length_drop]
      omega

/-- The code point at a position is the first one of at most two code units. -/
theorem codePointAt_eq (s : JsStr) (position : ℕ) :
    s.codePointAt position =
      (decodeUtf16 ((s.iter.drop position).take 2)).head?.map .ofDecoded := by
  cases s with
  | latin1 v =>
      rw [iter_latin1, ← List.map_drop, ← List.map_take, decodeUtf16_toUInt16, List.head?_map,
        List.head?_take, List.head?_drop, Option.map_map, codePointAt]
      split
      · rfl
      · next hge =>
          rw [if_neg (by decide), List.getElem?_eq_none (Nat.le_of_not_lt hge)]
          rfl
  | utf16 v =>
      rw [iter_utf16, codePointAt]
      split
      · next hlt =>
          dsimp only
          rw [rangeInclusive_getD hlt]
      · next hge =>
          rw [List.drop_eq_nil_of_le (Nat.le_of_not_lt hge)]
          rfl

/-- A byte is trimmed if the character is. -/
theorem isTrimmableUnit_toUInt16 (b : UInt8) :
    isTrimmableUnit b.toUInt16 = isTrimmableWhitespaceLatin1 b := by
  have hb : b.toNat < 256 := b.toNat_lt
  have hnat : (Char.ofNat b.toUInt16.toNat).toNat = b.toNat := by
    rw [UInt8.toNat_toUInt16, toNat_charOfNat (.inl (by omega))]
  have hsurrogate : isSurrogate b.toUInt16 = false := by
    rw [isSurrogate, Bool.and_eq_false_iff, decide_eq_false_iff_not, UInt16.le_iff_toNat_le,
      UInt8.toNat_toUInt16]
    exact .inl (by simpa using by omega)
  -- bytes are none of the characters beyond Latin1
  have hother {n : ℕ} (hn : 256 ≤ n) : decide (b.toNat = n) = false := decide_eq_false (by omega)
  have hrange : decide (0x2000 ≤ b.toNat) = false := decide_eq_false (by omega)
  rw [isTrimmableUnit, hsurrogate, isTrimmableWhitespace, hnat, isTrimmableWhitespaceLatin1]
  simp [hother, hrange, ← UInt8.toNat_inj]

end JsStr

end BoaLigero
