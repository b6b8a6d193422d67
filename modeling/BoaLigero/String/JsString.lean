import BoaLigero.String.JsStr

/-!
# Strings

A string (`string/lib.rs`) is a sequence on the heap, a part of another string, or a static
one; each gives its length and the slice of its code units. The operations on parts, the
concatenation of slices and the builder of strings from segments (`string/builder.rs`) make
new strings.

The unchecked operations take the bounds that their callers have to ensure as hypotheses.
Memory and reference counts are left out: a part holds the slice and not the string it was
taken from, a builder the elements written so far. The table of static strings is a
parameter.

## Main results

* `iter_trim`, `iter_trimStart`, `iter_trimEnd` — trimming drops the whitespace at the ends.
* `concatArray_spec`, `build_spec` — joined strings have the code units of the parts.
-/

namespace BoaLigero

/-- The storage of a string (`JsStringKind`). -/
inductive JsStringKind where
  | latin1Sequence
  | utf16Sequence
  | slice
  | static
  deriving DecidableEq

/-- A string as its vtable has it: its storage, its length and its code units. -/
structure JsString where
  kind : JsStringKind
  len : ℕ
  asStr : JsStr
  len_eq : len = asStr.len

/-- An end of a range of indices (`Bound`). -/
inductive Bound where
  | included (index : ℕ)
  | excluded (index : ℕ)
  | unbounded

/-- The first index of a range, by its start. -/
def Bound.first : Bound → ℕ
  | included start => start
  | excluded start => start + 1
  | unbounded => 0

/-- The index behind a range in a string of length `len`, by its end. -/
def Bound.behind (len : ℕ) : Bound → ℕ
  | included stop => stop + 1
  | excluded stop => stop
  | unbounded => len

/-- The static strings (`RAW_STATICS`). -/
structure StaticJsStrings where
  rawStatics : List JsStr

namespace JsStr

/-- The index of the first code unit that is not trimmed. -/
def firstKept : JsStr → Option ℕ
  | latin1 v => v.findIdx? fun c => !isTrimmableWhitespaceLatin1 c
  | utf16 v => v.findIdx? fun r => !isTrimmableUnit r

/-- The index of the last code unit that is not trimmed. -/
def lastKept : JsStr → Option ℕ
  | latin1 v => Sequence.rposition (fun c => !isTrimmableWhitespaceLatin1 c) v
  | utf16 v => Sequence.rposition (fun r => !isTrimmableUnit r) v

/-- The first and the last index of what `trim` keeps. -/
def trimBounds (s : JsStr) : Option (ℕ × ℕ) :=
  s.firstKept.map fun start => (start, s.lastKept.getD start)

variable {s : JsStr}

theorem firstKept_eq (s : JsStr) : s.firstKept = s.iter.findIdx? fun r => !isTrimmableUnit r := by
  cases s with
  | latin1 v =>
      rw [iter_latin1, List.findIdx?_map, firstKept]
      congr 1
      funext c
      rw [Function.comp, isTrimmableUnit_toUInt16]
  | utf16 v => rfl

theorem lastKept_eq (s : JsStr) :
    s.lastKept = Sequence.rposition (fun r => !isTrimmableUnit r) s.iter := by
  cases s with
  | latin1 v =>
      rw [iter_latin1, Sequence.rposition_map, lastKept]
      congr 1
      funext c
      rw [Function.comp, isTrimmableUnit_toUInt16]
  | utf16 v => rfl

theorem firstKept_lt {start : ℕ} (h : s.firstKept = some start) : start < s.len := by
  rw [firstKept_eq] at h
  rw [len_eq]
  exact (Sequence.dropWhile_of_findIdx?_eq_some h).1

theorem lastKept_lt {stop : ℕ} (h : s.lastKept = some stop) : stop < s.len := by
  rw [lastKept_eq] at h
  rw [len_eq]
  exact (Sequence.rdropWhile_of_rposition_eq_some h).1

/-- What `trim` keeps is between the first and the last code unit to be kept. -/
theorem trimBounds_eq_some {start stop : ℕ} (h : s.trimBounds = some (start, stop)) :
    s.firstKept = some start ∧ s.lastKept = some stop ∧ start ≤ stop := by
  obtain ⟨first, hfirst, heq⟩ := Option.map_eq_some_iff.mp h
  obtain ⟨last, hlast⟩ := Sequence.exists_rposition (firstKept_eq s ▸ hfirst)
  rw [lastKept_eq, hlast, Option.getD_some] at heq
  obtain ⟨rfl, rfl⟩ := Prod.mk.inj heq
  exact ⟨hfirst, (lastKept_eq s).trans hlast,
    (Sequence.slice_trimmed (firstKept_eq s ▸ hfirst) hlast).1⟩

end JsStr

namespace JsString

/-- A sequence on the heap, of the length it was allocated with (`SequenceString`). -/
def sequence (len : ℕ) (data : JsStr) (h : len = data.len) : JsString where
  kind := if data.isLatin1 then .latin1Sequence else .utf16Sequence
  len := len
  asStr := data
  len_eq := h

/-- A static string (`from_static`). -/
def fromStatic (str : JsStr) : JsString := ⟨.static, str.len, str, rfl⟩

/-- The empty string (`EMPTY_STRING`, and the default string). -/
def emptyString : JsString := fromStatic (.latin1 [])

/-- The part of a string from `start` up to `stop` (`slice_unchecked`). -/
def sliceUnchecked (data : JsString) (start stop : ℕ) (_ : start ≤ stop) (h : stop ≤ data.len) :
    JsString where
  kind := .slice
  len := stop - start
  asStr := data.asStr.getUnchecked start stop
  len_eq := by
    rw [JsStr.len_eq, JsStr.iter_getUnchecked, Sequence.length_slice]
    rwa [← JsStr.len_eq, ← data.len_eq]

/-- The part of a string from `p1` up to `p2` (`slice`). -/
def slice (s : JsString) (p1 p2 : ℕ) : JsString :=
  let p2 := if p2 > s.len then s.len else p2
  if h : p1 ≥ p2 then emptyString
  else s.sliceUnchecked p1 p2 (by omega) (by unfold p2 at *; split <;> omega)

/-- The part of a string in a range of indices (`JsStringSliceIndex::get`). -/
def get (s : JsString) (startBound endBound : Bound) : Option JsString :=
  let start := startBound.first
  let stop := endBound.behind s.len
  if h : stop > s.len ∨ start > stop then none
  else some (s.sliceUnchecked start stop (by omega) (by omega))

/-- The code unit at an index. -/
def codeUnitAt (s : JsString) (index : ℕ) : Option UInt16 := s.asStr.get index

/-- The string without whitespace at its ends. -/
def trim (s : JsString) : JsString :=
  match h : s.asStr.trimBounds with
  | none => emptyString
  | some (start, stop) =>
      have hbounds := JsStr.trimBounds_eq_some h
      s.sliceUnchecked start (stop + 1) (Nat.le_succ_of_le hbounds.2.2)
        (s.len_eq ▸ JsStr.lastKept_lt hbounds.2.1)

/-- The string without whitespace at its start. -/
def trimStart (s : JsString) : JsString :=
  match h : s.asStr.firstKept with
  | none => emptyString
  | some start => s.sliceUnchecked start s.len (s.len_eq ▸ (JsStr.firstKept_lt h).le) le_rfl

/-- The string without whitespace at its end. -/
def trimEnd (s : JsString) : JsString :=
  match h : s.asStr.lastKept with
  | none => emptyString
  | some stop =>
      s.sliceUnchecked 0 (stop + 1) (Nat.zero_le _) (s.len_eq ▸ JsStr.lastKept_lt h)

end JsString

/-! ### Concatenation -/

namespace StaticJsStrings

/-- The length of the longest static string (`MAX_STATIC_LENGTH`). -/
def maxStaticLength (statics : StaticJsStrings) : ℕ :=
  statics.rawStatics.foldl (fun max s => if s.len > max then s.len else max) 0

/-- The static string with the code units of a slice (`get_string`). -/
def getString (statics : StaticJsStrings) (string : JsStr) : Option JsString :=
  if string.len > statics.maxStaticLength then none
  else (statics.rawStatics.find? fun s => s.eq string).map JsString.fromStatic

end StaticJsStrings

namespace JsString

/-- Whether all strings are Latin1, and how many code units they have together; nothing is
an overflow (the first loop of `concat_array`). -/
def measure (strings : List JsStr) : Option (Bool × ℕ) :=
  strings.foldlM (fun (latin1Encoding, fullCount) string =>
    if fullCount + string.len < 2 ^ 64 then
      some (latin1Encoding && string.isLatin1, fullCount + string.len)
    else none) (true, 0)

/-- The bytes of Latin1 strings, one after the other; nothing is a string of the other kind. -/
def writeLatin1 : List JsStr → Option (List UInt8)
  | [] => some []
  | .latin1 s :: strings => (writeLatin1 strings).map (s ++ ·)
  | .utf16 _ :: _ => none

/-- The code units of strings, one after the other. -/
def writeUtf16 : List JsStr → List UInt16
  | [] => []
  | .latin1 s :: strings => s.map UInt8.toUInt16 ++ writeUtf16 strings
  | .utf16 s :: strings => s ++ writeUtf16 strings

/-- The first loop counts the code units, and finds out whether all strings are Latin1. -/
theorem measure_eq_some {strings : List JsStr} {latin1Encoding : Bool} {fullCount : ℕ}
    (h : measure strings = some (latin1Encoding, fullCount)) :
    fullCount = (strings.flatMap JsStr.iter).length ∧
      latin1Encoding = strings.all JsStr.isLatin1 := by
  -- The accumulators hold what was found in the strings before.
  have hloop : ∀ (strings : List JsStr) (latin1 latin1' : Bool) (count count' : ℕ),
      strings.foldlM (fun (latin1Encoding, fullCount) (string : JsStr) =>
        if fullCount + string.len < 2 ^ 64 then
          some (latin1Encoding && string.isLatin1, fullCount + string.len)
        else none) (latin1, count) = some (latin1', count') →
      count' = count + (strings.flatMap JsStr.iter).length ∧
        latin1' = (latin1 && strings.all JsStr.isLatin1) := by
    intro strings
    induction strings with
    | nil =>
        rintro latin1 latin1' count count' heq
        obtain ⟨rfl, rfl⟩ := Prod.mk.inj (Option.some.inj heq)
        simp
    | cons string strings ih =>
        intro latin1 latin1' count count' heq
        rw [List.foldlM_cons] at heq
        dsimp only at heq
        split at heq
        · obtain ⟨hcount, hlatin1⟩ := ih _ _ _ _ heq
          rw [hcount, hlatin1, List.flatMap_cons, List.length_append, ← JsStr.len_eq]
          simp [Nat.add_assoc, Bool.and_assoc]
        · cases heq
  simpa using hloop strings true latin1Encoding 0 fullCount h

/-- It does not overflow if there are not too many. -/
theorem exists_measure {strings : List JsStr}
    (h : (strings.flatMap JsStr.iter).length < 2 ^ 64) :
    ∃ found, measure strings = some found := by
  have hloop : ∀ (strings : List JsStr) (latin1 : Bool) (count : ℕ),
      count + (strings.flatMap JsStr.iter).length < 2 ^ 64 →
      ∃ found, strings.foldlM (fun (latin1Encoding, fullCount) (string : JsStr) =>
        if fullCount + string.len < 2 ^ 64 then
          some (latin1Encoding && string.isLatin1, fullCount + string.len)
        else none) (latin1, count) = some found := by
    intro strings
    induction strings with
    | nil => exact fun latin1 count _ => ⟨_, rfl⟩
    | cons string strings ih =>
        intro latin1 count hlt
        rw [List.flatMap_cons, List.length_append, ← JsStr.len_eq] at hlt
        obtain ⟨found, hfound⟩ := ih (latin1 && string.isLatin1) (count + string.len) (by omega)
        refine ⟨found, ?_⟩
        rw [List.foldlM_cons]
        dsimp only
        rw [if_pos (by omega)]
        exact hfound
  exact hloop strings true 0 (by omega)

/-- Latin1 strings are written. -/
theorem exists_writeLatin1 {strings : List JsStr} (h : strings.all JsStr.isLatin1) :
    ∃ v, writeLatin1 strings = some v := by
  induction strings with
  | nil => exact ⟨[], rfl⟩
  | cons string strings ih =>
      rw [List.all_cons, Bool.and_eq_true] at h
      obtain ⟨v, hv⟩ := ih h.2
      cases string with
      | latin1 s => exact ⟨s ++ v, by rw [writeLatin1, hv, Option.map_some]⟩
      | utf16 s => exact absurd h.1 Bool.false_ne_true

theorem writeLatin1_eq_some {strings : List JsStr} {v : List UInt8}
    (h : writeLatin1 strings = some v) :
    v.map UInt8.toUInt16 = strings.flatMap JsStr.iter := by
  induction strings generalizing v with
  | nil =>
      cases h
      rfl
  | cons string strings ih =>
      cases string with
      | latin1 s =>
          obtain ⟨w, hw, rfl⟩ := Option.map_eq_some_iff.mp h
          rw [List.map_append, ih hw, List.flatMap_cons, JsStr.iter_latin1]
      | utf16 s => cases h

theorem writeUtf16_eq (strings : List JsStr) :
    writeUtf16 strings = strings.flatMap JsStr.iter := by
  induction strings with
  | nil => rfl
  | cons string strings ih => cases string <;> simp [writeUtf16, ih]

/-- The strings one after the other (`concat_array`); nothing is an overflow of their length,
or a panic. -/
def concatArray (statics : StaticJsStrings) (strings : List JsStr) : Option JsString :=
  match hmeasure : measure strings with
  | none => none
  | some (true, fullCount) =>
      match hwrite : writeLatin1 strings with
      | none => none
      | some v =>
          have hlen : fullCount = (JsStr.latin1 v).len := by
            rw [(measure_eq_some hmeasure).1, JsStr.len_eq, ← writeLatin1_eq_some hwrite,
              JsStr.iter_latin1]
          let string := sequence fullCount (.latin1 v) hlen
          some ((statics.getString string.asStr).getD string)
  | some (false, fullCount) =>
      have hlen : fullCount = (JsStr.utf16 (writeUtf16 strings)).len := by
        rw [(measure_eq_some hmeasure).1, JsStr.len_eq, ← writeUtf16_eq, JsStr.iter_utf16]
      let string := sequence fullCount (.utf16 (writeUtf16 strings)) hlen
      some ((statics.getString string.asStr).getD string)

end JsString

/-! ### The builder -/

/-- A segment of a string that is built (`Segment`). -/
inductive Segment where
  | string (s : JsString)
  | str (s : JsStr)
  | latin1 (b : UInt8)
  | codePoint (ch : Char)

namespace Segment

/-- Whether the segment consists of Latin1 characters. -/
def canBeLatin1 : Segment → Bool
  | string s => s.asStr.isLatin1
  | str s => s.isLatin1
  | latin1 _ => true
  | codePoint ch => ch.toNat ≤ 0xFF

/-- The code units of a segment. -/
def units : Segment → List UInt16
  | string s => s.asStr.iter
  | str s => s.iter
  | latin1 b => [b.toUInt16]
  | codePoint ch => encodeUtf16Char ch

/-- A segment is added to a Latin1 builder; nothing is a panic. -/
def pushLatin1 (builder : List UInt8) : Segment → Option (List UInt8)
  | string s => s.asStr.asLatin1.map (builder ++ ·)
  | str s => s.asLatin1.map (builder ++ ·)
  | latin1 b => some (builder ++ [b])
  | codePoint ch => some (builder ++ [.ofNat ch.toNat])

/-- A segment is added to a UTF-16 builder. -/
def pushUtf16 (builder : List UInt16) : Segment → List UInt16
  | string s =>
      match s.asStr with
      | .latin1 s => builder ++ s.map UInt8.toUInt16
      | .utf16 s => builder ++ s
  | str s =>
      match s with
      | .latin1 s => builder ++ s.map UInt8.toUInt16
      | .utf16 s => builder ++ s
  | latin1 b => builder ++ [b.toUInt16]
  | codePoint ch => builder ++ encodeUtf16Char ch

theorem pushLatin1_eq {segment : Segment} (h : segment.canBeLatin1) (builder : List UInt8) :
    ∃ builder', segment.pushLatin1 builder = some builder' ∧
      builder'.map UInt8.toUInt16 = builder.map UInt8.toUInt16 ++ segment.units := by
  have hstr : ∀ s : JsStr, s.isLatin1 → ∃ builder', s.asLatin1.map (builder ++ ·) = some builder' ∧
      builder'.map UInt8.toUInt16 = builder.map UInt8.toUInt16 ++ s.iter := by
    intro s hs
    cases s with
    | latin1 v => exact ⟨builder ++ v, rfl, List.map_append⟩
    | utf16 v => cases hs
  cases segment with
  | string s => exact hstr s.asStr h
  | str s => exact hstr s h
  | latin1 b => exact ⟨builder ++ [b], rfl, List.map_append⟩
  | codePoint ch =>
      refine ⟨_, rfl, ?_⟩
      have hlt : ch.toNat ≤ 0xFF := by simpa [canBeLatin1] using h
      have hunit : (UInt8.ofNat ch.toNat).toUInt16 = UInt16.ofNat ch.toNat := by
        rw [← UInt16.toNat_inj, UInt8.toNat_toUInt16, UInt8.toNat_ofNat', UInt16.toNat_ofNat']
        omega
      rw [List.map_append, units, encodeUtf16Char, if_pos (by omega), List.map_singleton, hunit]

theorem pushUtf16_eq (segment : Segment) (builder : List UInt16) :
    segment.pushUtf16 builder = builder ++ segment.units := by
  cases segment with
  | string s =>
      rw [pushUtf16, units]
      cases s.asStr <;> rfl
  | str s => cases s <;> rfl
  | latin1 b | codePoint ch => rfl

end Segment

namespace JsString

/-- The string that a builder has written (`build_inner`). -/
def buildInner (data : JsStr) : JsString :=
  if data.len = 0 then emptyString else sequence data.len data rfl

/-- The string of Latin1 segments; nothing is a panic. -/
def buildAsLatin1 (segments : List Segment) : Option JsString :=
  (segments.foldlM Segment.pushLatin1 []).map fun builder => buildInner (.latin1 builder)

/-- The string of any segments. -/
def buildFromUtf16 (segments : List Segment) : JsString :=
  buildInner (.utf16 (segments.foldl Segment.pushUtf16 []))

/-- The string of all segments (`CommonJsStringBuilder::build`); nothing is a panic. -/
def build (segments : List Segment) : Option JsString :=
  if segments.isEmpty then some emptyString
  else if segments.all Segment.canBeLatin1 then buildAsLatin1 segments
  else some (buildFromUtf16 segments)

theorem iter_buildInner (data : JsStr) : (buildInner data).asStr.iter = data.iter := by
  rw [buildInner]
  split
  · next hzero =>
      rw [JsStr.len_eq] at hzero
      exact (List.length_eq_zero_iff.mp hzero).symm
  · rfl

/-- **What is built** has the code units of the segments. -/
theorem build_spec (segments : List Segment) :
    ∃ s, build segments = some s ∧ s.asStr.iter = segments.flatMap Segment.units := by
  rw [build]
  split
  · next hempty =>
      rw [List.isEmpty_iff.mp hempty]
      exact ⟨emptyString, rfl, rfl⟩
  split
  · next hall =>
      have hloop : ∀ (segments : List Segment) (builder : List UInt8),
          segments.all Segment.canBeLatin1 →
          ∃ builder', segments.foldlM Segment.pushLatin1 builder = some builder' ∧
            builder'.map UInt8.toUInt16 =
              builder.map UInt8.toUInt16 ++ segments.flatMap Segment.units := by
        intro segments
        induction segments with
        | nil => exact fun builder _ => ⟨builder, rfl, by simp⟩
        | cons segment segments ih =>
            intro builder hall
            rw [List.all_cons, Bool.and_eq_true] at hall
            obtain ⟨builder₁, hpush, hunits⟩ := Segment.pushLatin1_eq hall.1 builder
            obtain ⟨builder', hfold, hrest⟩ := ih builder₁ hall.2
            refine ⟨builder', ?_, ?_⟩
            · rw [List.foldlM_cons, hpush]
              exact hfold
            · rw [hrest, hunits, List.flatMap_cons, List.append_assoc]
      obtain ⟨builder, hfold, hunits⟩ := hloop segments [] hall
      refine ⟨buildInner (.latin1 builder), by rw [buildAsLatin1, hfold, Option.map_some], ?_⟩
      rw [iter_buildInner, JsStr.iter_latin1, hunits]
      rfl
  · refine ⟨_, rfl, ?_⟩
    have hloop : ∀ (segments : List Segment) (builder : List UInt16),
        segments.foldl Segment.pushUtf16 builder = builder ++ segments.flatMap Segment.units := by
      intro segments
      induction segments with
      | nil => exact fun builder => by simp
      | cons segment segments ih =>
          intro builder
          rw [List.foldl_cons, ih, Segment.pushUtf16_eq, List.flatMap_cons, List.append_assoc]
    rw [buildFromUtf16, iter_buildInner, JsStr.iter_utf16, hloop, List.nil_append]

/-! ### Code units -/

/-- A static string has the code units it was found for. -/
theorem iter_of_getString {statics : StaticJsStrings} {string : JsStr} {s : JsString}
    (h : statics.getString string = some s) : s.asStr.iter = string.iter := by
  rw [StaticJsStrings.getString] at h
  split at h
  · cases h
  · obtain ⟨found, hfind, rfl⟩ := Option.map_eq_some_iff.mp h
    have hsame := List.find?_some hfind
    exact JsStr.eq_iff.mp hsame

theorem iter_getString_getD (statics : StaticJsStrings) (s : JsString) :
    ((statics.getString s.asStr).getD s).asStr.iter = s.asStr.iter := by
  cases h : statics.getString s.asStr with
  | none => rfl
  | some found => exact iter_of_getString h

/-- **A concatenation** has the code units of the strings, and is one if there are not too
many. -/
theorem concatArray_spec (statics : StaticJsStrings) (strings : List JsStr) :
    (∀ s, concatArray statics strings = some s → s.asStr.iter = strings.flatMap JsStr.iter) ∧
    ((strings.flatMap JsStr.iter).length < 2 ^ 64 → (concatArray statics strings).isSome) := by
  unfold concatArray
  split
  · next hmeasure =>
      refine ⟨fun s hs => (nomatch hs), fun hlt => ?_⟩
      obtain ⟨found, hfound⟩ := exists_measure hlt
      cases hmeasure.symm.trans hfound
  · next fullCount hmeasure =>
      obtain ⟨-, hall⟩ := measure_eq_some hmeasure
      split
      · next hwrite =>
          obtain ⟨v, hv⟩ := exists_writeLatin1 hall.symm
          cases hwrite.symm.trans hv
      · next v hwrite =>
          refine ⟨fun s hs => ?_, fun _ => rfl⟩
          cases hs
          rw [iter_getString_getD, ← writeLatin1_eq_some hwrite]
          rfl
  · next fullCount hmeasure =>
      refine ⟨fun s hs => ?_, fun _ => rfl⟩
      cases hs
      rw [iter_getString_getD, ← writeUtf16_eq]
      rfl

theorem iter_sliceUnchecked {s : JsString} {start stop : ℕ} (h : start ≤ stop)
    (h' : stop ≤ s.len) :
    (s.sliceUnchecked start stop h h').asStr.iter = Sequence.slice start stop s.asStr.iter :=
  JsStr.iter_getUnchecked _ _ _

/-- **Trimming** drops the whitespace at both ends. -/
theorem iter_trim (s : JsString) : s.trim.asStr.iter =
    (s.asStr.iter.dropWhile isTrimmableUnit).rdropWhile isTrimmableUnit := by
  unfold trim
  split
  · next hbounds =>
      have hnone := Option.map_eq_none_iff.mp hbounds
      rw [JsStr.firstKept_eq] at hnone
      rw [Sequence.dropWhile_of_findIdx?_eq_none hnone]
      rfl
  · next start stop hbounds =>
      obtain ⟨hfirst, hlast, -⟩ := JsStr.trimBounds_eq_some hbounds
      rw [JsStr.firstKept_eq] at hfirst
      rw [JsStr.lastKept_eq] at hlast
      rw [iter_sliceUnchecked, (Sequence.slice_trimmed hfirst hlast).2]

/-- Trimming drops the whitespace at the start. -/
theorem iter_trimStart (s : JsString) :
    s.trimStart.asStr.iter = s.asStr.iter.dropWhile isTrimmableUnit := by
  unfold trimStart
  split
  · next hnone =>
      rw [JsStr.firstKept_eq] at hnone
      rw [Sequence.dropWhile_of_findIdx?_eq_none hnone]
      rfl
  · next start hfirst =>
      rw [JsStr.firstKept_eq] at hfirst
      rw [iter_sliceUnchecked, s.len_eq, JsStr.len_eq, Sequence.slice_length,
        (Sequence.dropWhile_of_findIdx?_eq_some hfirst).2]

/-- Trimming drops the whitespace at the end. -/
theorem iter_trimEnd (s : JsString) :
    s.trimEnd.asStr.iter = s.asStr.iter.rdropWhile isTrimmableUnit := by
  unfold trimEnd
  split
  · next hnone =>
      rw [JsStr.lastKept_eq] at hnone
      rw [Sequence.rdropWhile_of_rposition_eq_none hnone]
      rfl
  · next stop hlast =>
      rw [JsStr.lastKept_eq] at hlast
      rw [iter_sliceUnchecked, Sequence.slice_zero,
        (Sequence.rdropWhile_of_rposition_eq_some hlast).2]

end JsString

end BoaLigero
