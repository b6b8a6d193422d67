import BoaLigero.Runtime.Text.Standard
import BoaLigero.String.JsStr

/-!
# Text Decoders

`TextDecoder` and `TextEncoder` (`text/mod.rs`, `text/encodings.rs`), on bytes in memory. Strings
are their code units. The machine is little endian, and `from_utf8_lossy` is a parameter.

## Main results

* `decodeSlice_iff` — the slices that are decoded as the standard says.
* `decode_encode_iff` — the strings that are decoded again after they were encoded.
* `text_decoding` — both.
-/

namespace BoaLigero.Text

/-! ### The functions -/

/-- How a call fails. -/
inductive Failure where
  | panic
  | typeError (message : String)
  | rangeError (message : String)
  deriving DecidableEq

/-- A slice of bytes in memory. -/
structure Slice where
  address : ℕ
  bytes : List UInt8

/-- `bytemuck::cast_slice` from bytes to 16-bit integers. -/
def castSlice (slice : Slice) : Except Failure (List UInt16) :=
  if slice.address % 2 ≠ 0 ∨ slice.bytes.length % 2 ≠ 0 then .error .panic
  else .ok (unitsOf false slice.bytes)

/-- `strip_prefix`. -/
def stripPrefix (mark input : List UInt8) : Option (List UInt8) :=
  if mark.isPrefixOf input then some (input.drop mark.length) else none

/-- `u16::swap_bytes`. -/
def swapBytes (unit : UInt16) : UInt16 := .ofNat (unit.toNat % 0x100 * 0x100 + unit.toNat / 0x100)

/-- `utf8::encode`. -/
def utf8EncodeString (input : JsStr) : List UInt8 :=
  input.codePoints.flatMap fun
    | .unicode c => String.utf8EncodeChar c
    | .unpairedSurrogate _ => String.utf8EncodeChar replacement

/-- `utf8::decode`. -/
def utf8DecodeBytes (fromUtf8Lossy : List UInt8 → List Char) (input : List UInt8)
    (stripBom : Bool) : List UInt16 :=
  let input := if stripBom then (stripPrefix [0xEF, 0xBB, 0xBF] input).getD input else input
  (fromUtf8Lossy input).flatMap encodeUtf16Char

/-- The slice without a dangling byte, and whether there was one. -/
def splitDangling (slice : Slice) : Slice × Bool :=
  if slice.bytes.length % 2 = 0 then (slice, false)
  else ({ slice with bytes := slice.bytes.take (slice.bytes.length - 1) }, true)

/-- `utf16le::decode`. -/
def utf16leDecode (input : Slice) (stripBom : Bool) : Except Failure (List UInt16) :=
  let input : Slice :=
    if stripBom then
      match stripPrefix [0xFF, 0xFE] input.bytes with
      | some rest => ⟨input.address + 2, rest⟩
      | none => input
    else input
  let (input, dangling) := splitDangling input
  (castSlice input).map fun units => if dangling then units ++ [0xFFFD] else units

/-- `utf16be::decode`, of an owned vector: what is drained moves the other bytes. -/
def utf16beDecode (input : Slice) (stripBom : Bool) : Except Failure (List UInt16) :=
  let input : Slice :=
    if stripBom && [0xFE, 0xFF].isPrefixOf input.bytes then
      { input with bytes := input.bytes.drop 2 }
    else input
  let (input, dangling) := splitDangling input
  (castSlice input).map fun units =>
    let units := units.map swapBytes
    if dangling then units ++ [0xFFFD] else units

/-- The encodings (`Encoding`). -/
inductive Encoding where
  | utf8
  | utf16Le
  | utf16Be
  deriving DecidableEq

/-- `TextDecoder`. -/
structure TextDecoder where
  encoding : Encoding
  ignoreBom : Bool

/-- The bytes of a buffer (`AlignedVec`). -/
structure AlignedVec where
  address : ℕ
  bytes : List UInt8
  aligned : address % 64 = 0

/-- What is passed to a decoder; a buffer that is detached has no bytes. -/
inductive BufferSource where
  | undefined
  | arrayBuffer (data : Option AlignedVec)
  /-- A `TypedArray` or a `DataView`. -/
  | view (data : Option AlignedVec) (offset length : ℕ)
  | other

section Decoder

variable (fromUtf8Lossy : List UInt8 → List Char) (copyAddress : ℕ)

/-- The decoding of a slice, which is copied to `copyAddress` for `utf-16be`. -/
def TextDecoder.decodeSlice (decoder : TextDecoder) (data : Slice) :
    Except Failure (List UInt16) :=
  let stripBom := !decoder.ignoreBom
  match decoder.encoding with
  | .utf8 => .ok (utf8DecodeBytes fromUtf8Lossy data.bytes stripBom)
  | .utf16Le => utf16leDecode data stripBom
  | .utf16Be => utf16beDecode ⟨copyAddress, data.bytes⟩ stripBom

/-- `TextDecoder::decode`. -/
def TextDecoder.decode (decoder : TextDecoder) (buffer : BufferSource) :
    Except Failure (List UInt16) :=
  let detached : Failure := .typeError "cannot decode a detached ArrayBuffer"
  match buffer with
  | .undefined => .ok []
  | .arrayBuffer data =>
      match data with
      | some data => decoder.decodeSlice fromUtf8Lossy copyAddress ⟨data.address, data.bytes⟩
      | none => .error detached
  | .view data offset length =>
      match data with
      | some data =>
          if offset + length ≤ data.bytes.length then
            decoder.decodeSlice fromUtf8Lossy copyAddress
              ⟨data.address + offset, (data.bytes.drop offset).take length⟩
          else
            .error (.rangeError
              "The range for the underlying ArrayBuffer can not be accessed.")
      | none => .error detached
  | .other =>
      .error (.typeError "Argument 1 must be an ArrayBuffer, TypedArray or DataView.")

end Decoder

/-! ### The standard -/

/-- The decoder of the standard for an encoding. -/
def standardDecode (encoding : Encoding) (ignoreBom : Bool) (bytes : List UInt8) : List UInt16 :=
  let chars :=
    match encoding with
    | .utf8 => utf8Decode {} bytes
    | .utf16Le => utf16Decode false {} bytes
    | .utf16Be => utf16Decode true {} bytes
  (serialize ignoreBom chars).flatMap encodeUtf16Char

/-- The code units have no unpaired surrogate. -/
def WellFormed (units : List UInt16) : Prop :=
  ∃ chars : List Char, decodeUtf16 units = chars.map .ok

/-- A slice that is read without a panic, and has no unpaired surrogate that would be kept. -/
def Readable (encoding : Encoding) (copyAddress : ℕ) (slice : Slice) : Prop :=
  match encoding with
  | .utf8 => True
  | .utf16Le => slice.address % 2 = 0 ∧ WellFormed (unitsOf false slice.bytes)
  | .utf16Be => copyAddress % 2 = 0 ∧ WellFormed (unitsOf true slice.bytes)

/-- The slice that is decoded, if there is one. -/
def BufferSource.slice : BufferSource → Option Slice
  | .arrayBuffer (some data) => some ⟨data.address, data.bytes⟩
  | .view (some data) offset length =>
      if offset + length ≤ data.bytes.length then
        some ⟨data.address + offset, (data.bytes.drop offset).take length⟩
      else none
  | _ => none

/-- The code units with unpaired surrogates replaced. -/
def replaced (units : List UInt16) : List UInt16 :=
  ((decodeUtf16 units).map fun
    | .ok c => c
    | .error _ => replacement).flatMap encodeUtf16Char

/-! ### Code units -/

theorem stripPrefix_eq_some_iff {mark input rest : List UInt8} :
    stripPrefix mark input = some rest ↔ input = mark ++ rest := by
  rw [stripPrefix]
  split
  · next h =>
      obtain ⟨rest', rfl⟩ := List.isPrefixOf_iff_prefix.mp h
      rw [Option.some.injEq, List.drop_left]
      exact ⟨fun h => by rw [h], fun h => List.append_cancel_left h⟩
  · next h =>
      refine iff_of_false (by simp) ?_
      rintro rfl
      exact h (List.isPrefixOf_iff_prefix.mpr (List.prefix_append mark rest))

/-- The bytes of the byte order mark. -/
def markBytes (bigEndian : Bool) : List UInt8 := if bigEndian then [0xFE, 0xFF] else [0xFF, 0xFE]

theorem codeUnit_eq_mark {bigEndian : Bool} {lead byte : UInt8} {rest : List UInt8}
    (h : (codeUnit bigEndian lead byte).toNat = 0xFEFF) :
    lead :: byte :: rest = markBytes bigEndian ++ rest := by
  have hlead := lead.toNat_lt
  have hbyte := byte.toNat_lt
  cases bigEndian with
  | false =>
      have hunit : (UInt16.ofNat (byte.toNat * 0x100 + lead.toNat)).toNat = 0xFEFF := h
      rw [UInt16.toNat_ofNat', Nat.mod_eq_of_lt (by omega)] at hunit
      have hl : lead = 0xFF := UInt8.toNat_inj.mp (show lead.toNat = 0xFF by omega)
      have hb : byte = 0xFE := UInt8.toNat_inj.mp (show byte.toNat = 0xFE by omega)
      rw [hl, hb]
      rfl
  | true =>
      have hunit : (UInt16.ofNat (lead.toNat * 0x100 + byte.toNat)).toNat = 0xFEFF := h
      rw [UInt16.toNat_ofNat', Nat.mod_eq_of_lt (by omega)] at hunit
      have hl : lead = 0xFE := UInt8.toNat_inj.mp (show lead.toNat = 0xFE by omega)
      have hb : byte = 0xFF := UInt8.toNat_inj.mp (show byte.toNat = 0xFF by omega)
      rw [hl, hb]
      rfl

theorem unitsOf_mark (bigEndian : Bool) (rest : List UInt8) :
    unitsOf bigEndian (markBytes bigEndian ++ rest) = 0xFEFF :: unitsOf bigEndian rest := by
  cases bigEndian <;> rfl

theorem map_swapBytes_unitsOf (bytes : List UInt8) :
    (unitsOf false bytes).map swapBytes = unitsOf true bytes := by
  match bytes with
  | [] => rfl
  | [_] => rfl
  | lead :: byte :: rest =>
      have hlead := lead.toNat_lt
      have hbyte := byte.toNat_lt
      have hswap : swapBytes (codeUnit false lead byte) = codeUnit true lead byte := by
        rw [← UInt16.toNat_inj]
        simp only [swapBytes, codeUnit, Bool.false_eq_true, if_false, if_true,
          UInt16.toNat_ofNat']
        rw [Nat.mod_eq_of_lt (show byte.toNat * 256 + lead.toNat < 2 ^ 16 by omega),
          show (byte.toNat * 256 + lead.toNat) % 256 = lead.toNat by omega,
          show (byte.toNat * 256 + lead.toNat) / 256 = byte.toNat by omega]
      rw [unitsOf, List.map_cons, hswap, map_swapBytes_unitsOf rest, unitsOf]

/-- A dangling byte is in no code unit. -/
theorem unitsOf_take (bigEndian : Bool) {bytes : List UInt8} (h : bytes.length % 2 = 1) :
    unitsOf bigEndian (bytes.take (bytes.length - 1)) = unitsOf bigEndian bytes := by
  match bytes with
  | [] => cases h
  | [_] => rfl
  | [_, _] => simp at h
  | lead :: byte :: third :: rest =>
      simp only [List.length_cons] at h ⊢
      rw [show rest.length + 1 + 1 + 1 - 1 = (third :: rest).length - 1 + 1 + 1 from rfl,
        List.take_succ_cons, List.take_succ_cons, unitsOf, unitsOf,
        @unitsOf_take bigEndian (third :: rest) (by rw [List.length_cons]; omega)]

/-! ### Decoding UTF-16 -/

section Utf16

variable {bigEndian : Bool} {bytes : List UInt8}

/-- What is read after the byte order mark, and what stands for a dangling byte. -/
def readUnits (bigEndian ignoreBom : Bool) (bytes : List UInt8) : List UInt16 :=
  let input := if !ignoreBom then (stripPrefix (markBytes bigEndian) bytes).getD bytes else bytes
  if input.length % 2 = 0 then unitsOf bigEndian input else unitsOf bigEndian input ++ [0xFFFD]

theorem wellFormed_mark_iff (units : List UInt16) :
    WellFormed (0xFEFF :: units) ↔ WellFormed units := by
  have hcons : decodeUtf16 (0xFEFF :: units) = .ok byteOrderMark :: decodeUtf16 units :=
    decodeUtf16_cons (by decide) units
  constructor
  · rintro ⟨chars, h⟩
    rw [hcons] at h
    obtain ⟨_, chars, rfl, -, hrest⟩ := List.map_eq_cons_iff.mp h.symm
    exact ⟨chars, hrest.symm⟩
  · rintro ⟨chars, h⟩
    exact ⟨byteOrderMark :: chars, by rw [hcons, h]; rfl⟩

theorem wellFormed_concat_iff (units : List UInt16) :
    WellFormed (units ++ [0xFFFD]) ↔ WellFormed units := by
  have hconcat : decodeUtf16 (units ++ [0xFFFD]) = decodeUtf16 units ++ [.ok replacement] :=
    decodeUtf16_concat units (by decide)
  constructor
  · rintro ⟨chars, h⟩
    rw [hconcat] at h
    obtain ⟨front, _, -, hfront, -⟩ := List.map_eq_append_iff.mp h.symm
    exact ⟨front, hfront.symm⟩
  · rintro ⟨chars, h⟩
    exact ⟨chars ++ [replacement], by rw [hconcat, h, List.map_append]; rfl⟩

/-- The mark is decoded first only from its bytes. -/
theorem exists_mark_of_head {chars : List Char}
    (hunits : decodeUtf16 (unitsOf bigEndian bytes) = chars.map .ok)
    (h : (utf16Decode bigEndian {} bytes).head? = some byteOrderMark) :
    ∃ rest, bytes = markBytes bigEndian ++ rest := by
  rw [utf16Decode_of_paired hunits] at h
  cases chars with
  | nil =>
      exfalso
      rw [List.nil_append] at h
      split at h
      · cases h
      · rw [List.head?_cons, Option.some.injEq] at h
        exact replacement_ne_byteOrderMark h
  | cons c chars =>
      rw [List.cons_append, List.head?_cons, Option.some.injEq] at h
      subst h
      have hdecodes := decodesUtf16 (unitsOf bigEndian bytes)
      rw [hunits, List.map_cons] at hdecodes
      generalize hu : unitsOf bigEndian bytes = units at hdecodes
      generalize hmark : Except.ok byteOrderMark = mark at hdecodes
      cases hdecodes with
      | scalar hunit _ =>
          obtain ⟨lead, byte, rest, rfl, rfl, -⟩ := exists_bytes_of_unitsOf hu
          injection hmark with hmark
          have hnat := toNat_ofNat_of_not_surrogate hunit
          rw [← hmark] at hnat
          exact ⟨rest, codeUnit_eq_mark hnat.symm⟩
      | pair hleading hlt htrailing _ =>
          injection hmark with hmark
          have hnat := toNat_ofSurrogates hleading hlt htrailing
          rw [← hmark, show byteOrderMark.toNat = 0xFEFF from by decide] at hnat
          omega
      | unpaired => cases hmark

/-- **Code units** are read as the standard says if and only if none of them is an unpaired
surrogate. -/
theorem readUnits_eq_iff (bigEndian ignoreBom : Bool) (bytes : List UInt8) :
    readUnits bigEndian ignoreBom bytes =
        (serialize ignoreBom (utf16Decode bigEndian {} bytes)).flatMap encodeUtf16Char ↔
      WellFormed (unitsOf bigEndian bytes) := by
  have htail (rest : List UInt8) (units : List UInt16) :
      (if rest.length % 2 = 0 then units else units ++ [0xFFFD]) =
        units ++ (if rest.length % 2 = 0 then [] else [replacement]).flatMap encodeUtf16Char := by
    split
    · exact (List.append_nil _).symm
    · rfl
  constructor
  · intro h
    have hread : WellFormed (readUnits bigEndian ignoreBom bytes) :=
      ⟨_, by rw [h]; exact decodeUtf16_flatMap _⟩
    have hinput (input : List UInt8)
        (hinput : WellFormed (if input.length % 2 = 0 then unitsOf bigEndian input
          else unitsOf bigEndian input ++ [0xFFFD])) : WellFormed (unitsOf bigEndian input) := by
      split at hinput
      · exact hinput
      · exact (wellFormed_concat_iff _).mp hinput
    have hstripped := hinput _ hread
    split at hstripped
    · cases hmark : stripPrefix (markBytes bigEndian) bytes with
      | none => rwa [hmark] at hstripped
      | some rest =>
          rw [hmark] at hstripped
          rw [stripPrefix_eq_some_iff.mp hmark, unitsOf_mark, wellFormed_mark_iff]
          exact hstripped
    · exact hstripped
  · rintro ⟨chars, hunits⟩
    have hdecoded := utf16Decode_of_paired hunits
    have hencoded := flatMap_encodeUtf16Char_of_decodeUtf16 hunits
    by_cases hmark : ignoreBom = false ∧ ∃ rest, bytes = markBytes bigEndian ++ rest
    · obtain ⟨rfl, rest, rfl⟩ := hmark
      have hstrip : stripPrefix (markBytes bigEndian) (markBytes bigEndian ++ rest) = some rest :=
        stripPrefix_eq_some_iff.mpr rfl
      rw [unitsOf_mark, decodeUtf16_cons (by decide)] at hunits
      obtain ⟨mark, chars, rfl, hc, hrest⟩ := List.map_eq_cons_iff.mp hunits.symm
      injection hc with hc
      have hlength : (markBytes bigEndian ++ rest).length % 2 = rest.length % 2 := by
        cases bigEndian <;> simp only [markBytes, List.length_append] <;> simp
      have hserialize : serialize false (utf16Decode bigEndian {} (markBytes bigEndian ++ rest)) =
          chars ++ if rest.length % 2 = 0 then [] else [replacement] := by
        rw [hdecoded, serialize, hc, if_pos ⟨rfl, rfl⟩, hlength]
        rfl
      rw [hserialize, List.flatMap_append, flatMap_encodeUtf16Char_of_decodeUtf16 hrest.symm,
        ← htail, readUnits, hstrip]
      rfl
    · have hnone : stripPrefix (markBytes bigEndian) bytes = none ∨ ignoreBom = true := by
        cases ignoreBom with
        | true => exact .inr rfl
        | false =>
            left
            rw [Option.eq_none_iff_forall_ne_some]
            exact fun rest h => hmark ⟨rfl, rest, stripPrefix_eq_some_iff.mp h⟩
      have hserialize : serialize ignoreBom (utf16Decode bigEndian {} bytes) =
          utf16Decode bigEndian {} bytes :=
        if_neg fun h => hmark ⟨h.1, exists_mark_of_head hunits h.2⟩
      have hread : readUnits bigEndian ignoreBom bytes =
          if bytes.length % 2 = 0 then unitsOf bigEndian bytes
          else unitsOf bigEndian bytes ++ [0xFFFD] := by
        rw [readUnits]
        rcases hnone with hnone | rfl
        · rw [hnone, Option.getD_none, ite_self]
        · rfl
      rw [hserialize, hdecoded, List.flatMap_append, hencoded, hread, htail]

end Utf16

/-! ### Slices -/

section Slices

variable {fromUtf8Lossy : List UInt8 → List Char} {copyAddress : ℕ}

theorem castSlice_splitDangling (address : ℕ) (bytes : List UInt8) :
    castSlice (splitDangling ⟨address, bytes⟩).1 =
      if address % 2 = 0 then .ok (unitsOf false bytes) else .error .panic := by
  rw [splitDangling]
  split
  · next heven =>
      change bytes.length % 2 = 0 at heven
      simp only [castSlice]
      by_cases h : address % 2 = 0
      · rw [if_neg (by omega), if_pos h]
      · rw [if_pos (by omega), if_neg h]
  · next hodd =>
      change ¬ bytes.length % 2 = 0 at hodd
      have hlength : (bytes.take (bytes.length - 1)).length % 2 = 0 := by
        rw [List.length_take]
        omega
      have hunits := unitsOf_take false (show bytes.length % 2 = 1 by omega)
      simp only [castSlice, hlength, hunits]
      by_cases h : address % 2 = 0
      · rw [if_neg (by omega), if_pos h]
      · rw [if_pos (by omega), if_neg h]

theorem splitDangling_snd (address : ℕ) (bytes : List UInt8) :
    (splitDangling ⟨address, bytes⟩).2 = decide (bytes.length % 2 ≠ 0) := by
  rw [splitDangling]
  split
  · next h => exact (decide_eq_false (not_not.mpr h)).symm
  · next h => exact (decide_eq_true h).symm

theorem utf16leDecode_eq (input : Slice) (ignoreBom : Bool) :
    utf16leDecode input (!ignoreBom) =
      if input.address % 2 = 0 then .ok (readUnits false ignoreBom input.bytes)
      else .error .panic := by
  obtain ⟨address, bytes⟩ := input
  have hread (address' : ℕ) (input : List UInt8) (haddress : address' % 2 = address % 2) :
      (castSlice (splitDangling ⟨address', input⟩).1).map (fun units =>
          if (splitDangling ⟨address', input⟩).2 then units ++ [0xFFFD] else units) =
        if address % 2 = 0 then
          .ok (if input.length % 2 = 0 then unitsOf false input
            else unitsOf false input ++ [0xFFFD])
        else .error .panic := by
    rw [castSlice_splitDangling, splitDangling_snd, haddress]
    by_cases heven : address % 2 = 0
    · rw [if_pos heven, if_pos heven]
      by_cases hlength : input.length % 2 = 0
      · simp [Except.map, hlength]
      · simp [Except.map, hlength]
    · rw [if_neg heven, if_neg heven]
      rfl
  rw [utf16leDecode, readUnits, show markBytes false = [0xFF, 0xFE] from rfl]
  cases ignoreBom with
  | true => exact hread address bytes rfl
  | false =>
      simp only [Bool.not_false, if_true]
      cases stripPrefix [0xFF, 0xFE] bytes with
      | none => exact hread address bytes rfl
      | some rest => exact hread (address + 2) rest (Nat.add_mod_right address 2)

theorem utf16beDecode_eq (input : Slice) (ignoreBom : Bool) :
    utf16beDecode input (!ignoreBom) =
      if input.address % 2 = 0 then .ok (readUnits true ignoreBom input.bytes)
      else .error .panic := by
  obtain ⟨address, bytes⟩ := input
  have hread (input : List UInt8) :
      (castSlice (splitDangling ⟨address, input⟩).1).map (fun units =>
          if (splitDangling ⟨address, input⟩).2 then units.map swapBytes ++ [0xFFFD]
          else units.map swapBytes) =
        if address % 2 = 0 then
          .ok (if input.length % 2 = 0 then unitsOf true input
            else unitsOf true input ++ [0xFFFD])
        else .error .panic := by
    rw [castSlice_splitDangling, splitDangling_snd]
    by_cases heven : address % 2 = 0
    · rw [if_pos heven, if_pos heven]
      by_cases hlength : input.length % 2 = 0
      · simp [Except.map, hlength, map_swapBytes_unitsOf]
      · simp [Except.map, hlength, map_swapBytes_unitsOf]
    · rw [if_neg heven, if_neg heven]
      rfl
  rw [utf16beDecode, readUnits, show markBytes true = [0xFE, 0xFF] from rfl, stripPrefix]
  cases ignoreBom with
  | true => exact hread bytes
  | false =>
      simp only [Bool.not_false, if_true, Bool.true_and]
      split
      · exact hread (bytes.drop 2)
      · exact hread bytes

theorem utf8DecodeBytes_eq (hlossy : ∀ bytes, fromUtf8Lossy bytes = utf8Decode {} bytes)
    (bytes : List UInt8) (ignoreBom : Bool) :
    utf8DecodeBytes fromUtf8Lossy bytes (!ignoreBom) = standardDecode .utf8 ignoreBom bytes := by
  rw [utf8DecodeBytes, standardDecode, hlossy]
  congr 1
  cases ignoreBom with
  | true => exact (if_neg fun h => Bool.noConfusion h.1).symm
  | false =>
      simp only [Bool.not_false, if_true]
      cases hmark : stripPrefix [0xEF, 0xBB, 0xBF] bytes with
      | none =>
          refine (if_neg fun h => ?_).symm
          obtain ⟨rest, hrest⟩ := eq_bom_of_head h.2
          rw [stripPrefix_eq_some_iff.mpr hrest] at hmark
          cases hmark
      | some rest =>
          rw [stripPrefix_eq_some_iff.mp hmark]
          exact (if_pos ⟨rfl, rfl⟩).symm

/-- **The slices that are decoded** as the standard says: where a UTF-16 decoder reads code units,
they are aligned and have no unpaired surrogate. -/
theorem decodeSlice_iff (hlossy : ∀ bytes, fromUtf8Lossy bytes = utf8Decode {} bytes)
    (decoder : TextDecoder) (data : Slice) :
    decoder.decodeSlice fromUtf8Lossy copyAddress data =
        .ok (standardDecode decoder.encoding decoder.ignoreBom data.bytes) ↔
      Readable decoder.encoding copyAddress data := by
  obtain ⟨encoding, ignoreBom⟩ := decoder
  have hunits (bigEndian : Bool) (address : ℕ) :
      ((if address % 2 = 0 then .ok (readUnits bigEndian ignoreBom data.bytes)
        else .error .panic : Except Failure (List UInt16)) =
          .ok ((serialize ignoreBom (utf16Decode bigEndian {} data.bytes)).flatMap
            encodeUtf16Char)) ↔
        address % 2 = 0 ∧ WellFormed (unitsOf bigEndian data.bytes) := by
    rw [← readUnits_eq_iff bigEndian ignoreBom data.bytes]
    split
    · next h => rw [Except.ok.injEq, and_iff_right h]
    · next h => exact iff_of_false (by simp) fun hand => h hand.1
  cases encoding with
  | utf8 => exact iff_of_true (congrArg Except.ok (utf8DecodeBytes_eq hlossy _ _)) trivial
  | utf16Le =>
      simp only [TextDecoder.decodeSlice, utf16leDecode_eq]
      exact hunits false data.address
  | utf16Be =>
      simp only [TextDecoder.decodeSlice, utf16beDecode_eq]
      exact hunits true copyAddress

theorem decode_of_slice (decoder : TextDecoder) {buffer : BufferSource} {data : Slice}
    (h : buffer.slice = some data) :
    decoder.decode fromUtf8Lossy copyAddress buffer =
      decoder.decodeSlice fromUtf8Lossy copyAddress data := by
  match buffer with
  | .undefined | .other | .arrayBuffer none | .view none _ _ => cases h
  | .arrayBuffer (some _) =>
      cases h
      rfl
  | .view (some vec) offset length =>
      rw [BufferSource.slice] at h
      split at h
      · next hrange =>
          cases h
          exact if_pos hrange
      · cases h

/-- Where there is no slice, the call fails with an error of its own. -/
theorem decode_of_no_slice (decoder : TextDecoder) {buffer : BufferSource}
    (h : buffer.slice = none) (hdefined : buffer ≠ .undefined) :
    ∃ failure, decoder.decode fromUtf8Lossy copyAddress buffer = .error failure ∧
      failure ≠ .panic := by
  match buffer with
  | .undefined => exact absurd rfl hdefined
  | .other | .arrayBuffer none | .view none _ _ => exact ⟨_, rfl, nofun⟩
  | .arrayBuffer (some _) => cases h
  | .view (some vec) offset length =>
      rw [BufferSource.slice] at h
      split at h
      · cases h
      · next hrange => exact ⟨_, if_neg hrange, nofun⟩

/-! ### Round trips -/

/-- The characters of code units, with replacements. -/
theorem utf8EncodeString_eq (s : JsStr) :
    utf8EncodeString s = ((decodeUtf16 s.iter).map fun
      | .ok c => c
      | .error _ => replacement).flatMap String.utf8EncodeChar := by
  rw [utf8EncodeString, JsStr.codePoints_eq, List.flatMap_map, List.flatMap_map]
  congr 1
  funext decoded
  cases decoded <;> rfl

/-- A string begins with the mark if and only if its characters do. -/
theorem head_mark_iff (units : List UInt16) :
    ((decodeUtf16 units).map fun
      | .ok c => c
      | .error _ => replacement).head? = some byteOrderMark ↔ units.head? = some 0xFEFF := by
  have hdecodes := decodesUtf16 units
  generalize decodeUtf16 units = decoded at hdecodes
  cases hdecodes with
  | nil => simp
  | @scalar unit _ _ hunit _ =>
      simp only [List.map_cons, List.head?_cons, Option.some.injEq]
      constructor
      · intro h
        have hnat := toNat_ofNat_of_not_surrogate hunit
        rw [h] at hnat
        exact UInt16.toNat_inj.mp hnat.symm
      · rintro rfl
        rfl
  | pair hleading hlt htrailing _ =>
      simp only [List.map_cons, List.head?_cons, Option.some.injEq]
      refine iff_of_false (fun h => ?_) ?_
      · have hnat := toNat_ofSurrogates hleading hlt htrailing
        rw [h, show byteOrderMark.toNat = 0xFEFF from by decide] at hnat
        omega
      · rintro rfl
        exact absurd hleading (by decide)
  | unpaired hunit _ _ =>
      simp only [List.map_cons, List.head?_cons, Option.some.injEq]
      refine iff_of_false replacement_ne_byteOrderMark ?_
      rintro rfl
      exact absurd hunit (by decide)

/-- **The strings that are decoded again** after they were encoded, with their unpaired surrogates
replaced: all that do not begin with a byte order mark, unless it is ignored. -/
theorem decode_encode_iff (hlossy : ∀ bytes, fromUtf8Lossy bytes = utf8Decode {} bytes) (s : JsStr)
    (ignoreBom : Bool) :
    utf8DecodeBytes fromUtf8Lossy (utf8EncodeString s) (!ignoreBom) = replaced s.iter ↔
      ignoreBom = true ∨ s.iter.head? ≠ some 0xFEFF := by
  rw [utf8DecodeBytes_eq hlossy, standardDecode, utf8EncodeString_eq, replaced,
    utf8Decode_flatMap, serialize, ne_eq, ← head_mark_iff]
  generalize (decodeUtf16 s.iter).map _ = chars
  split
  · next h =>
      obtain ⟨rfl, hhead⟩ := h
      refine iff_of_false (fun h => ?_) (by simp [hhead])
      cases chars with
      | nil => cases hhead
      | cons c chars =>
          have hlength := congrArg List.length h
          rw [List.flatMap_cons, List.length_append, List.tail_cons] at hlength
          have hpos : 0 < (encodeUtf16Char c).length := by
            rw [encodeUtf16Char]
            split <;> exact Nat.succ_pos _
          omega
  · next h =>
      refine iff_of_true rfl ?_
      cases ignoreBom with
      | true => exact .inl rfl
      | false => exact .inr fun hhead => h ⟨rfl, hhead⟩

/-- **Text decoding**: the buffers that are decoded as the standard says, and the strings that are
decoded again after they were encoded. -/
theorem text_decoding (hlossy : ∀ bytes, fromUtf8Lossy bytes = utf8Decode {} bytes)
    (copyAddress : ℕ) :
    (∀ (decoder : TextDecoder) (buffer : BufferSource) (data : Slice), buffer.slice = some data →
      (decoder.decode fromUtf8Lossy copyAddress buffer =
          .ok (standardDecode decoder.encoding decoder.ignoreBom data.bytes) ↔
        Readable decoder.encoding copyAddress data)) ∧
    ∀ (s : JsStr) (ignoreBom : Bool) (buffer : BufferSource) (data : Slice),
      buffer.slice = some data → data.bytes = utf8EncodeString s →
        (TextDecoder.decode fromUtf8Lossy copyAddress ⟨.utf8, ignoreBom⟩ buffer =
            .ok (replaced s.iter) ↔
          ignoreBom = true ∨ s.iter.head? ≠ some 0xFEFF) := by
  constructor
  · intro decoder buffer data hslice
    rw [decode_of_slice decoder hslice]
    exact decodeSlice_iff hlossy decoder data
  · intro s ignoreBom buffer data hslice hbytes
    rw [decode_of_slice _ hslice, TextDecoder.decodeSlice]
    dsimp only
    rw [hbytes, Except.ok.injEq]
    exact decode_encode_iff hlossy s ignoreBom

/-- The bytes of an `A`, at an even offset of a buffer. -/
theorem text_decoding_even :
    TextDecoder.decode (utf8Decode {}) 1 ⟨.utf16Le, false⟩
        (.view (some ⟨64, [0, 0, 0x41, 0], rfl⟩) 2 2) = .ok [0x41] :=
  ((text_decoding (fun _ => rfl) 1).1 ⟨.utf16Le, false⟩
    (.view (some ⟨64, [0, 0, 0x41, 0], rfl⟩) 2 2) ⟨66, [0x41, 0]⟩ rfl).mpr
      ⟨rfl, ['A'], rfl⟩

/-- The same bytes at an odd offset are a panic, and an unpaired surrogate is kept. -/
theorem not_decoded_as_standard :
    TextDecoder.decode (utf8Decode {}) 0 ⟨.utf16Le, false⟩
        (.view (some ⟨64, [0, 0x41, 0, 0], rfl⟩) 1 2) = .error .panic ∧
      standardDecode .utf16Le false [0x41, 0] = [0x41] ∧
    TextDecoder.decode (utf8Decode {}) 0 ⟨.utf16Le, false⟩
        (.view (some ⟨64, [0x00, 0xD8], rfl⟩) 0 2) = .ok [0xD800] ∧
      standardDecode .utf16Le false [0x00, 0xD8] = [0xFFFD] :=
  ⟨rfl, by decide, rfl, by decide⟩

end Slices

end BoaLigero.Text
