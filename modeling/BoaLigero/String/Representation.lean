import BoaLigero.String.JsString

/-!
# Operations do not Depend on the Representation

A sequence of code units has many representations: bytes or code units, on the heap, static
or a part of a longer string. The operations give the same answers for all of them, and
joining strings gives the joined code units.

The comparison with a Rust string does not: bytes are compared with the bytes of its UTF-8
encoding, code units up to the end of the shorter side only. It answers rightly where the
two cannot be mistaken for one another, which is `Comparable`.

## Main results

* `independent_of_representation_iff` — what holds of any two representations.
* `not_independent_of_representation` — a byte string and a code unit string that compare
  wrongly with a Rust string.
-/

namespace BoaLigero

namespace JsString

/-- The code units of a string. -/
def units (s : JsString) : List UInt16 := s.asStr.iter

/-- Two strings give the same answers, also about other strings of the same code units. -/
structure AnswersAlike (s t : JsString) : Prop where
  equal : s.asStr.eq t.asStr = true
  eq : ∀ x y : JsString, x.units = y.units → s.asStr.eq x.asStr = t.asStr.eq y.asStr
  cmp : ∀ x y : JsString, x.units = y.units → s.asStr.cmp x.asStr = t.asStr.cmp y.asStr
  hash : ∀ (H : Type) (hasher : Hasher H) (state : H),
    s.asStr.hash hasher state = t.asStr.hash hasher state
  len : s.len = t.len
  codeUnitAt : ∀ index, s.codeUnitAt index = t.codeUnitAt index
  get : ∀ startBound endBound,
    (s.get startBound endBound).map units = (t.get startBound endBound).map units
  getSlice : ∀ index,
    (s.asStr.getSlice index).map JsStr.iter = (t.asStr.getSlice index).map JsStr.iter
  indexOf : ∀ x y : JsString, x.units = y.units → ∀ fromIndex,
    s.asStr.indexOf x.asStr fromIndex = t.asStr.indexOf y.asStr fromIndex
  startsWith : ∀ x y : JsString, x.units = y.units →
    s.asStr.startsWith x.asStr = t.asStr.startsWith y.asStr
  endsWith : ∀ x y : JsString, x.units = y.units →
    s.asStr.endsWith x.asStr = t.asStr.endsWith y.asStr
  trim : s.trim.units = t.trim.units
  trimStart : s.trimStart.units = t.trimStart.units
  trimEnd : s.trimEnd.units = t.trimEnd.units
  codePointAt : ∀ position, s.asStr.codePointAt position = t.asStr.codePointAt position
  codePoints : s.asStr.codePoints = t.asStr.codePoints

/-- Joined strings have the code units of the parts; a concatenation is not too long. -/
structure JoinsUnits (statics : StaticJsStrings) : Prop where
  concatArray : ∀ (strings : List JsString), (strings.flatMap units).length < 2 ^ 64 →
    ∃ s, JsString.concatArray statics (strings.map asStr) = some s ∧ s.units = strings.flatMap units
  build : ∀ segments, ∃ s, JsString.build segments = some s ∧
    s.units = segments.flatMap Segment.units

/-- The comparison with a Rust string asks whether the code units are its UTF-16 encoding. -/
def ComparesUnits (s : JsString) (other : String) : Prop :=
  s.asStr.eqStr other = true ↔ encodeUtf16 other = s.units

/-- A string that is not mistaken for a Rust string, nor the other way around. Bytes are
compared with an ASCII string, or are neither the UTF-8 encoding nor the code units of the
other; of code units, neither side is the beginning of a longer other one. -/
def Comparable (s : JsString) (other : String) : Prop :=
  match s.asStr with
  | .latin1 v => isAscii other = true ∨ v ≠ asBytes other ∧ v.map UInt8.toUInt16 ≠ encodeUtf16 other
  | .utf16 v => encodeUtf16 other <+: v ∨ v <+: encodeUtf16 other →
      (encodeUtf16 other).length = v.length

variable {s t : JsString}

theorem length_units (s : JsString) : s.len = s.units.length := by
  rw [s.len_eq, JsStr.len_eq, units]

/-- A part of a string has the code units of the range. -/
theorem map_units_get (s : JsString) (startBound endBound : Bound) :
    (s.get startBound endBound).map units =
      (let stop := endBound.behind s.units.length
      if stop > s.units.length ∨ startBound.first > stop then none
      else some (Sequence.slice startBound.first stop s.units)) := by
  rw [← length_units]
  unfold get
  dsimp only
  split
  · rfl
  · rw [Option.map_some, units, iter_sliceUnchecked]
    rfl

/-- **The operations answer alike** for all representations. -/
theorem answersAlike (h : s.units = t.units) : s.AnswersAlike t where
  equal := JsStr.eq_iff.mpr h
  eq x y hxy := by
    rw [Bool.eq_iff_iff, JsStr.eq_iff, JsStr.eq_iff]
    exact ⟨fun heq => h.symm.trans (heq.trans hxy), fun heq => h.trans (heq.trans hxy.symm)⟩
  cmp x y hxy := by
    rw [JsStr.cmp_eq, JsStr.cmp_eq]
    exact congrArg₂ _ h hxy
  hash H hasher state := by
    rw [JsStr.hash_eq, JsStr.hash_eq]
    exact congrArg (fun us : List UInt16 =>
      us.foldl hasher.writeU16 (hasher.writeUsize state us.length)) h
  len := by rw [length_units, length_units, h]
  codeUnitAt index := by
    rw [codeUnitAt, codeUnitAt, JsStr.get_eq, JsStr.get_eq]
    exact congrArg (fun us : List UInt16 => us[index]?) h
  get startBound endBound := by rw [map_units_get, map_units_get, h]
  getSlice index := by
    rw [JsStr.getSlice_eq, JsStr.getSlice_eq]
    exact congrArg index.get h
  indexOf x y hxy fromIndex := by
    have hs := JsStr.isFirst_indexOf s.asStr x.asStr fromIndex
    have ht := JsStr.isFirst_indexOf t.asStr y.asStr fromIndex
    rw [show s.asStr.iter = t.asStr.iter from h, show x.asStr.iter = y.asStr.iter from hxy] at hs
    exact hs.unique ht
  startsWith x y hxy := by
    rw [JsStr.startsWith_eq, JsStr.startsWith_eq]
    exact congrArg₂ (fun xs us : List UInt16 => some (decide (xs <+: us))) hxy h
  endsWith x y hxy := by
    rw [JsStr.endsWith_eq, JsStr.endsWith_eq]
    exact congrArg₂ (fun xs us : List UInt16 => some (decide (xs <:+ us))) hxy h
  trim := by
    rw [units, units, iter_trim, iter_trim]
    exact congrArg (fun us : List UInt16 => (us.dropWhile _).rdropWhile _) h
  trimStart := by
    rw [units, units, iter_trimStart, iter_trimStart]
    exact congrArg (List.dropWhile _) h
  trimEnd := by
    rw [units, units, iter_trimEnd, iter_trimEnd]
    exact congrArg (List.rdropWhile _) h
  codePointAt position := by
    rw [JsStr.codePointAt_eq, JsStr.codePointAt_eq]
    exact congrArg (fun us : List UInt16 =>
      (decodeUtf16 ((us.drop position).take 2)).head?.map CodePoint.ofDecoded) h
  codePoints := by
    rw [JsStr.codePoints_eq, JsStr.codePoints_eq]
    exact congrArg (fun us => (decodeUtf16 us).map CodePoint.ofDecoded) h

/-- **Joined strings** have the code units of the parts. -/
theorem joinsUnits (statics : StaticJsStrings) : JoinsUnits statics where
  concatArray strings hlt := by
    have hflat : (strings.map asStr).flatMap JsStr.iter = strings.flatMap units :=
      List.flatMap_map ..
    obtain ⟨hunits, hsome⟩ := concatArray_spec statics (strings.map asStr)
    rw [hflat] at hunits hsome
    obtain ⟨s, hs⟩ := Option.isSome_iff_exists.mp (hsome hlt)
    exact ⟨s, hs, hunits s hs⟩
  build := build_spec

/-- Two lists agree up to the end of the shorter one if it is a prefix of the other. -/
theorem all_zip_iff_isPrefixOf (xs ys : List UInt16) :
    ((xs.zip ys).all fun (a, b) => a == b) = true ↔ xs <+: ys ∨ ys <+: xs := by
  induction xs generalizing ys with
  | nil => simp
  | cons x xs ih =>
      cases ys with
      | nil => simp
      | cons y ys =>
          rw [List.zip_cons_cons, List.all_cons, Bool.and_eq_true, ih, List.cons_prefix_cons,
            List.cons_prefix_cons, beq_iff_eq]
          constructor
          · rintro ⟨rfl, hxs | hys⟩
            · exact .inl ⟨rfl, hxs⟩
            · exact .inr ⟨rfl, hys⟩
          · rintro (⟨rfl, hxs⟩ | ⟨rfl, hys⟩)
            · exact ⟨rfl, .inl hxs⟩
            · exact ⟨rfl, .inr hys⟩

/-- Bytes compare rightly unless they are mistaken for a string that is not ASCII. -/
theorem comparesBytes_iff (v : List UInt8) (other : String) :
    ((JsStr.latin1 v).eqStr other = true ↔ encodeUtf16 other = v.map UInt8.toUInt16) ↔
      isAscii other = true ∨ v ≠ asBytes other ∧ v.map UInt8.toUInt16 ≠ encodeUtf16 other := by
  rw [JsStr.eqStr, beq_iff_eq]
  cases hascii : isAscii other with
  | true =>
      refine iff_of_true ?_ (.inl rfl)
      rw [encodeUtf16_eq_asBytes hascii, (List.map_injective_iff.mpr JsStr.toUInt16_injective).eq_iff,
        eq_comm]
  | false =>
      have hlt := length_encodeUtf16_lt hascii
      constructor
      · intro hiff
        refine .inr ⟨fun heq => ?_, fun heq => ?_⟩
        · have hlen := congrArg List.length (hiff.mp heq)
          rw [List.length_map, heq] at hlen
          omega
        · have hlen := congrArg List.length heq
          rw [List.length_map, hiff.mpr heq.symm] at hlen
          omega
      · rintro (hfalse | ⟨hbytes, hunits⟩)
        · cases hfalse
        · exact iff_of_false hbytes (Ne.symm hunits)

/-- Code units compare rightly unless one side is the beginning of the other. -/
theorem comparesCodeUnits_iff (v : List UInt16) (other : String) :
    ((JsStr.utf16 v).eqStr other = true ↔ encodeUtf16 other = v) ↔
      (encodeUtf16 other <+: v ∨ v <+: encodeUtf16 other →
        (encodeUtf16 other).length = v.length) := by
  rw [JsStr.eqStr, all_zip_iff_isPrefixOf]
  constructor
  · intro hiff hstart
    rw [hiff.mp hstart]
  · intro hlength
    constructor
    · intro hstart
      rcases hstart with hstart | hstart
      · exact hstart.eq_of_length (hlength (.inl hstart))
      · exact (hstart.eq_of_length (hlength (.inr hstart)).symm).symm
    · intro heq
      exact .inl (heq ▸ List.prefix_refl _)

/-- **The representation of a string** does not matter, but for the comparison with a Rust
string that it may be mistaken for. -/
theorem independent_of_representation_iff (statics : StaticJsStrings) (s t : JsString)
    (h : s.units = t.units) (other : String) :
    (s.AnswersAlike t ∧ JoinsUnits statics ∧ s.ComparesUnits other) ↔ s.Comparable other := by
  have hcompares : s.ComparesUnits other ↔ s.Comparable other := by
    rw [ComparesUnits, Comparable, units]
    cases s.asStr with
    | latin1 v => exact comparesBytes_iff v other
    | utf16 v => exact comparesCodeUnits_iff v other
  rw [← hcompares]
  exact ⟨fun hall => hall.2.2, fun hc => ⟨answersAlike h, joinsUnits statics, hc⟩⟩

/-- A letter as a code unit, and as a part of a byte string. -/
theorem independent_of_representation_letter :
    let s := sequence 1 (.utf16 [0x61]) rfl
    let t := (sequence 2 (.latin1 [0x62, 0x61]) rfl).sliceUnchecked 1 2 (by decide) (by decide)
    s.AnswersAlike t ∧ JoinsUnits ⟨[.latin1 []]⟩ ∧ s.ComparesUnits "a" := by
  intro s t
  refine (independent_of_representation_iff ⟨[.latin1 []]⟩ s t (by decide) "a").mpr ?_
  exact fun _ => by decide

/-- **The representation matters** for the comparison with a Rust string: a byte string is not
equal to the string of its one letter that is not ASCII, and a code unit string is equal to
its first letter. -/
theorem not_independent_of_representation :
    (¬ (sequence 1 (.latin1 [0xE9]) rfl).ComparesUnits "é" ∧
      ¬ (sequence 2 (.utf16 [0x61, 0x62]) rfl).ComparesUnits "a") ∧
    ¬ ∀ (statics : StaticJsStrings) (s t : JsString), s.units = t.units → ∀ other,
      s.AnswersAlike t ∧ JoinsUnits statics ∧ s.ComparesUnits other := by
  have hbytes : ¬ (sequence 1 (.latin1 [0xE9]) rfl).ComparesUnits "é" := fun h =>
    absurd (h.mpr (by decide)) (by decide)
  have hunits : ¬ (sequence 2 (.utf16 [0x61, 0x62]) rfl).ComparesUnits "a" := fun h =>
    absurd (h.mp (by decide)) (by decide)
  exact ⟨⟨hbytes, hunits⟩, fun hall => hbytes (hall ⟨[]⟩ _ _ rfl "é").2.2⟩

end JsString

end BoaLigero
