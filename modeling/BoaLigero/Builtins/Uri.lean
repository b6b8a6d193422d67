import BoaLigero.String.HexDigit
import BoaLigero.String.JsStr
import BoaLigero.String.Utf8

/-!
# URI Handling Functions

The encoding and decoding of URIs (`builtins/uri/mod.rs`, `builtins/uri/consts.rs`).

## Main results

* `Uri.encode_spec` — a string is encoded unless it has an unpaired surrogate.
* `Uri.decode_eq_ok_iff`, `Uri.decode_eq_error_iff` — what is decoded to what, and what is not.
* `Uri.uri_functions` — both pairs of functions: what they do, and that decoding undoes encoding.
-/

namespace BoaLigero

/-- The number of code units of a code point (`code_unit_count`). -/
def CodePoint.codeUnitCount : CodePoint → ℕ
  | unicode c => (encodeUtf16Char c).length
  | unpairedSurrogate _ => 1

namespace Uri

/-! ### The sets -/

/-- The `uriMark` code points (`URI_MARK`). -/
def uriMark : List UInt16 := [0x2D, 0x5F, 0x2E, 0x21, 0x7E, 0x2A, 0x27, 0x28, 0x29]

/-- The `uriReserved` code points (`URI_RESERVED`). -/
def uriReserved : List UInt16 :=
  [0x3B, 0x2F, 0x3F, 0x3A, 0x40, 0x26, 0x3D, 0x2B, 0x24, 0x2C]

/-- The number sign (`NUMBER_SIGN`). -/
def numberSign : UInt16 := 0x23

/-- `is_uri_unescaped`. -/
def isUriUnescaped (codePoint : UInt16) : Bool :=
  (0x61 ≤ codePoint && codePoint ≤ 0x7A) || (0x41 ≤ codePoint && codePoint ≤ 0x5A) ||
    (0x30 ≤ codePoint && codePoint ≤ 0x39) || uriMark.contains codePoint

/-- `is_uri_reserved_or_number_sign`. -/
def isUriReservedOrNumberSign (codePoint : UInt16) : Bool :=
  codePoint == numberSign || uriReserved.contains codePoint

/-- `is_uri_reserved_or_uri_unescaped_or_number_sign`. -/
def isUriReservedOrUriUnescapedOrNumberSign (codePoint : UInt16) : Bool :=
  codePoint == numberSign || isUriUnescaped codePoint || uriReserved.contains codePoint

/-! ### The functions -/

/-- What a function returns: a value, or the message of a `URIError`. Nothing is a panic, a read
outside of the string, or a loop that has not ended. -/
abbrev UriResult (α : Type) := Option (Except String α)

/-- An octet as an escape. -/
def escapeOctet (octet : UInt8) : List UInt16 := 0x25 :: paddedUpperHex 2 octet.toNat

/-- The loop of `encode`. -/
def encodeLoop (unescapedSet : UInt16 → Bool) (string : JsStr) :
    ℕ → ℕ → List UInt16 → UriResult (List UInt16)
  | 0, _, _ => none
  | fuel + 1, k, r =>
      if k = string.len then some (.ok r)
      else
        match string.get k with
        | none => none
        | some c =>
            if unescapedSet c then encodeLoop unescapedSet string fuel (k + 1) (r ++ [c])
            else
              match string.codePointAt k with
              | none => none
              | some (.unpairedSurrogate _) => some (.error "trying to encode an invalid string")
              | some (.unicode ch) =>
                  encodeLoop unescapedSet string fuel (k + (CodePoint.unicode ch).codeUnitCount)
                    (r ++ (String.utf8EncodeChar ch).flatMap escapeOctet)

/-- The `Encode ( string, unescapedSet )` abstract operation. -/
def encode (string : JsStr) (unescapedSet : UInt16 → Bool) : UriResult (List UInt16) :=
  encodeLoop unescapedSet string (string.len + 1) 0 []

/-- Decodes a byte from two unicode code units (`decode_hex_byte`). -/
def decodeHexByte (high low : UInt16) : Option UInt8 :=
  match charFromU32 high.toNat, charFromU32 low.toNat with
  | some high, some low =>
      match toDigit 16 high, toDigit 16 low with
      | some high, some low => some ((UInt8.ofNat high <<< 4) + UInt8.ofNat low)
      | _, _ => none
  | _, _ => none

/-- The byte of the two digits behind index `k`, which are read unchecked. -/
def readHexByte (string : JsStr) (k : ℕ) : UriResult UInt8 :=
  match string.get (k + 1), string.get (k + 2) with
  | some high, some low =>
      match decodeHexByte high low with
      | some b => some (.ok b)
      | none => some (.error "invalid hexadecimal digit found")
  | _, _ => none

/-- The loop over the continuation bytes: the index of the last digit, and the octets. -/
def decodeOctets (string : JsStr) : ℕ → ℕ → List UInt8 → UriResult (ℕ × List UInt8)
  | 0, k, octets => some (.ok (k, octets))
  | count + 1, k, octets =>
      if string.get (k + 1) ≠ some 0x25 then
        some (.error "escape characters must be preceded with a % sign")
      else
        match readHexByte string (k + 1) with
        | some (.ok b) => decodeOctets string count (k + 1 + 2) (octets ++ [b])
        | some (.error message) => some (.error message)
        | none => none

/-- What an escape at index `k` is replaced by, the index of its last digit, and what is left of
the octets. -/
def decodeEscape (string : JsStr) (reservedSet : UInt16 → Bool) (k : ℕ) (octets : List UInt8) :
    UriResult (List UInt16 × ℕ × List UInt8) :=
  let start := k
  if string.len ≤ k + 2 then some (.error "invalid escape character found")
  else
    match readHexByte string k with
    | none => none
    | some (.error message) => some (.error message)
    | some (.ok b) =>
        let k := k + 2
        let n := leadingOnes b
        if n = 0 then
          let c := b.toUInt16
          if !reservedSet c then some (.ok ([c], k, octets))
          else
            match string.getSlice (.rangeInclusive start k) with
            | some s => some (.ok (s.iter, k, octets))
            | none => none
        else if n = 1 ∨ 4 < n then some (.error "invalid escaped character found")
        else if string.len ≤ k + 3 * (n - 1) then
          some (.error "non-terminated escape character found")
        else
          match decodeOctets string (n - 1) k (octets ++ [b]) with
          | none => none
          | some (.error message) => some (.error message)
          | some (.ok (k, octets)) =>
              if octets.length ≠ n then none
              else
                match fromUtf8 octets with
                | none => some (.error "invalid UTF-8 encoding found")
                | some v => some (.ok (encodeUtf16 v, k, []))

/-- The loop of `decode`. -/
def decodeLoop (reservedSet : UInt16 → Bool) (string : JsStr) :
    ℕ → ℕ → List UInt8 → List UInt16 → UriResult (List UInt16)
  | 0, _, _, _ => none
  | fuel + 1, k, octets, r =>
      match string.get k with
      | none => some (.ok r)
      | some c =>
          match if c ≠ 0x25 then some (.ok ([c], k, octets))
            else decodeEscape string reservedSet k octets with
          | none => none
          | some (.error message) => some (.error message)
          | some (.ok (s, k, octets)) =>
              decodeLoop reservedSet string fuel (k + 1) octets (r ++ s)

/-- The `Decode ( string, reservedSet )` abstract operation. -/
def decode (string : JsStr) (reservedSet : UInt16 → Bool) : UriResult (List UInt16) :=
  decodeLoop reservedSet string (string.len + 1) 0 [] []

/-- `decodeURI` of a string. -/
def decodeUri (uriString : JsStr) : UriResult (List UInt16) :=
  decode uriString isUriReservedOrNumberSign

/-- `decodeURIComponent` of a string. -/
def decodeUriComponent (componentString : JsStr) : UriResult (List UInt16) :=
  decode componentString fun _ => false

/-- `encodeURI` of a string. -/
def encodeUri (uriString : JsStr) : UriResult (List UInt16) :=
  encode uriString isUriReservedOrUriUnescapedOrNumberSign

/-- `encodeURIComponent` of a string. -/
def encodeUriComponent (componentString : JsStr) : UriResult (List UInt16) :=
  encode componentString isUriUnescaped

/-! ### Escapes -/

/-- Octets, each written as a percent sign and two hexadecimal digits. -/
inductive EscapedOctets : List UInt16 → List UInt8 → Prop
  | nil : EscapedOctets [] []
  | cons {high low : UInt16} {d1 d2 : ℕ} {seq : List UInt16} {octets : List UInt8} :
      hexDigitValue high = some d1 → hexDigitValue low = some d2 → EscapedOctets seq octets →
        EscapedOctets (0x25 :: high :: low :: seq) (.ofNat (d1 * 0x10 + d2) :: octets)

/-- A run of escapes that is the UTF-8 encoding of a character. -/
def EscapeRun (seq : List UInt16) (c : Char) : Prop := EscapedOctets seq (String.utf8EncodeChar c)

/-- What a run is replaced by: a character of the reserved set is left as it was written. -/
def replacement (reservedSet : UInt16 → Bool) (seq : List UInt16) (c : Char) : List UInt16 :=
  if c.toNat < 0x80 ∧ reservedSet (.ofNat c.toNat) then seq else encodeUtf16Char c

/-- A string and what it is decoded to: the runs of escapes are replaced, and every other code
unit is copied. -/
inductive Decoded (reservedSet : UInt16 → Bool) : List UInt16 → List UInt16 → Prop
  | nil : Decoded reservedSet [] []
  | copy {c : UInt16} {rest out : List UInt16} : c ≠ 0x25 → Decoded reservedSet rest out →
      Decoded reservedSet (c :: rest) (c :: out)
  | run {seq rest out : List UInt16} {c : Char} : EscapeRun seq c → Decoded reservedSet rest out →
      Decoded reservedSet (seq ++ rest) (replacement reservedSet seq c ++ out)

/-- A string with a percent sign that is not followed by two hexadecimal digits, or whose run of
escapes is not the encoding of a character. -/
inductive Malformed : List UInt16 → Prop
  | digits {rest : List UInt16} : (∀ high low behind, rest = high :: low :: behind →
      hexDigitValue high = none ∨ hexDigitValue low = none) → Malformed (0x25 :: rest)
  | encoding {rest : List UInt16} : (∀ seq c, EscapeRun seq c → ¬ seq <+: 0x25 :: rest) →
      Malformed (0x25 :: rest)
  | copy {c : UInt16} {rest : List UInt16} : c ≠ 0x25 → Malformed rest → Malformed (c :: rest)
  | run {seq rest : List UInt16} {c : Char} : EscapeRun seq c → Malformed rest →
      Malformed (seq ++ rest)

theorem EscapedOctets.length_eq {seq : List UInt16} {octets : List UInt8}
    (h : EscapedOctets seq octets) : seq.length = 3 * octets.length := by
  induction h with
  | nil => rfl
  | cons _ _ _ ih =>
      simp only [List.length_cons, ih]
      omega

/-- The digits of an octet are read. -/
theorem decodeHexByte_eq_some_iff {high low : UInt16} {b : UInt8} :
    decodeHexByte high low = some b ↔ ∃ d1 d2, hexDigitValue high = some d1 ∧
      hexDigitValue low = some d2 ∧ b = .ofNat (d1 * 0x10 + d2) := by
  have hvalue (d1 d2 : ℕ) : (UInt8.ofNat d1 <<< 4) + UInt8.ofNat d2 = .ofNat (d1 * 0x10 + d2) := by
    apply UInt8.toNat.inj
    simp only [UInt8.toNat_add, UInt8.toNat_shiftLeft, UInt8.toNat_ofNat', Nat.shiftLeft_eq,
      UInt8.reduceToNat, Nat.reduceMod, Nat.reducePow]
    omega
  rw [decodeHexByte, hexDigitValue, hexDigitValue]
  cases charFromU32 high.toNat with
  | none => simp
  | some high =>
      cases charFromU32 low.toNat with
      | none => simp
      | some low =>
          simp only [Option.bind_some]
          cases toDigit 16 high with
          | none => simp
          | some d1 =>
              cases toDigit 16 low with
              | none => simp
              | some d2 => simp [hvalue, eq_comm]

/-- Octets of as many escapes in front of the same string are the same. -/
theorem EscapedOctets.unique {seq seq' units : List UInt16} {octets octets' : List UInt8}
    (h : EscapedOctets seq octets) (h' : EscapedOctets seq' octets') (hinit : seq <+: units)
    (hinit' : seq' <+: units) (hlength : octets.length = octets'.length) :
    seq = seq' ∧ octets = octets' := by
  induction h generalizing seq' units octets' with
  | nil =>
      cases h' with
      | nil => exact ⟨rfl, rfl⟩
      | cons => cases hlength
  | cons h1 h2 _ ih =>
      cases h' with
      | nil => cases hlength
      | cons h1' h2' hrest' =>
          obtain ⟨behind, rfl⟩ := hinit
          obtain ⟨behind', hbehind⟩ := hinit'
          simp only [List.cons_append, List.cons.injEq] at hbehind
          obtain ⟨-, rfl, rfl, hbehind⟩ := hbehind
          obtain ⟨rfl, rfl⟩ := ih hrest' ⟨behind, rfl⟩ ⟨behind', hbehind⟩ (Nat.succ.inj hlength)
          cases h1.symm.trans h1'
          cases h2.symm.trans h2'
          exact ⟨rfl, rfl⟩

/-! ### Reading an escape -/

variable {string : JsStr} {reservedSet unescapedSet : UInt16 → Bool} {k : ℕ}

theorem get_of_drop {units : List UInt16} (h : string.iter.drop k = units) (i : ℕ) :
    string.get (k + i) = units[i]? := by
  rw [string.get_eq, ← h, List.getElem?_drop]

theorem len_of_drop {c : UInt16} {units : List UInt16} (h : string.iter.drop k = c :: units) :
    string.len = k + units.length + 1 := by
  have hlength := congrArg List.length h
  rw [List.length_drop, List.length_cons, ← string.len_eq] at hlength
  omega

theorem drop_of_append {seq units : List UInt16} (h : string.iter.drop k = seq ++ units) :
    string.iter.drop (k + seq.length) = units := by
  rw [← List.drop_drop, h, List.drop_left]

/-- The two digits behind a percent sign, if they are digits. -/
theorem readHexByte_eq {c high low : UInt16} {behind : List UInt16}
    (h : string.iter.drop k = c :: high :: low :: behind) :
    readHexByte string k =
      match decodeHexByte high low with
      | some b => some (.ok b)
      | none => some (.error "invalid hexadecimal digit found") := by
  rw [readHexByte, get_of_drop h, get_of_drop h]
  rfl

/-- **Continuation bytes** that are written are read. -/
theorem decodeOctets_eq {seq behind : List UInt16} {octets : List UInt8} {c : UInt16}
    (hseq : EscapedOctets seq octets) (h : string.iter.drop k = c :: (seq ++ behind))
    (before : List UInt8) :
    decodeOctets string octets.length k before =
      some (.ok (k + 3 * octets.length, before ++ octets)) := by
  induction hseq generalizing k c before with
  | nil => simp [decodeOctets]
  | @cons high low d1 d2 seq octets h1 h2 hseq ih =>
      have hnext : string.iter.drop (k + 1) = 0x25 :: high :: low :: (seq ++ behind) := by
        rw [← List.drop_drop, h]
        rfl
      have hlast : string.iter.drop (k + 1 + 2) = low :: (seq ++ behind) := by
        rw [← List.drop_drop, hnext]
        rfl
      have hpercent : string.get (k + 1) = some 0x25 := get_of_drop h 1
      rw [List.length_cons, decodeOctets, hpercent, if_neg (fun hne => hne rfl),
        readHexByte_eq hnext, decodeHexByte_eq_some_iff.mpr ⟨d1, d2, h1, h2, rfl⟩]
      simp only [ih hlast, List.append_assoc, List.singleton_append]
      rw [show k + 1 + 2 + 3 * octets.length = k + 3 * (octets.length + 1) by omega]

/-- Continuation bytes that are read are written, and nothing is read outside of the string that
has room for them. -/
theorem decodeOctets_cases {units : List UInt16} {c : UInt16} (count : ℕ)
    (h : string.iter.drop k = c :: units) (hroom : 3 * count ≤ units.length)
    (before : List UInt8) :
    (∃ message, decodeOctets string count k before = some (.error message)) ∨
      ∃ seq octets, EscapedOctets seq octets ∧ octets.length = count ∧ seq <+: units := by
  induction count generalizing k c units before with
  | zero => exact .inr ⟨[], [], .nil, rfl, List.nil_prefix⟩
  | succ count ih =>
      match units with
      | [] | [_] | [_, _] => exact absurd hroom (by simp only [List.length_cons, List.length_nil]; omega)
      | percent :: high :: low :: units =>
          have hnext : string.iter.drop (k + 1) = percent :: high :: low :: units := by
            rw [← List.drop_drop, h]
            rfl
          have hlast : string.iter.drop (k + 1 + 2) = low :: units := by
            rw [← List.drop_drop, hnext]
            rfl
          have hget : string.get (k + 1) = some percent := get_of_drop h 1
          rw [decodeOctets, hget]
          split
          · exact .inl ⟨_, rfl⟩
          · next hpercent =>
              obtain rfl : percent = 0x25 := by simpa using hpercent
              rw [readHexByte_eq hnext]
              cases hbyte : decodeHexByte high low with
              | none => exact .inl ⟨_, rfl⟩
              | some b =>
                  obtain ⟨d1, d2, h1, h2, rfl⟩ := decodeHexByte_eq_some_iff.mp hbyte
                  simp only [List.length_cons] at hroom
                  rcases ih hlast (by omega) (before ++ [_]) with hfail |
                    ⟨seq, octets, hseq, hlength, behind, hinit⟩
                  · exact .inl hfail
                  · exact .inr ⟨_, _, .cons h1 h2 hseq, by rw [List.length_cons, hlength],
                      behind, by rw [← hinit]; rfl⟩

/-- A run of escapes starts with the first octet of a character. -/
theorem EscapeRun.exists_cons {seq : List UInt16} {c : Char} (h : EscapeRun seq c) :
    ∃ high low seq' b bytes, seq = 0x25 :: high :: low :: seq' ∧
      String.utf8EncodeChar c = b :: bytes ∧ decodeHexByte high low = some b ∧
      EscapedOctets seq' bytes := by
  rw [EscapeRun] at h
  generalize hbytes : String.utf8EncodeChar c = bytes at h
  cases h with
  | nil => exact absurd hbytes String.utf8EncodeChar_ne_nil
  | cons h1 h2 hseq =>
      exact ⟨_, _, _, _, _, rfl, rfl, decodeHexByte_eq_some_iff.mpr ⟨_, _, h1, h2, rfl⟩, hseq⟩

/-- The first byte of a character tells the case of its run. -/
theorem leadingOnes_cases {c : Char} {b : UInt8} {bytes : List UInt8}
    (h : String.utf8EncodeChar c = b :: bytes) :
    (c.toNat < 0x80 ∧ leadingOnes b = 0 ∧ b.toNat = c.toNat ∧ bytes = []) ∨
      (¬ c.toNat < 0x80 ∧ leadingOnes b = bytes.length + 1 ∧ 1 ≤ bytes.length ∧
        bytes.length ≤ 3) := by
  have hfirst := leadingOnes_utf8EncodeChar h
  by_cases hlt : c.toNat < 0x80
  · rw [if_pos hlt] at hfirst
    rw [(encode_of_lt hlt).1] at h
    cases h
    exact .inl ⟨hlt, hfirst, by rw [UInt8.toNat_ofNat']; omega, rfl⟩
  · rw [if_neg hlt] at hfirst
    have hlength := congrArg List.length h
    rw [String.length_utf8EncodeChar, List.length_cons] at hlength
    have hsize := mt utf8Size_eq_one_iff.mp hlt
    have hpos := c.utf8Size_pos
    have hle := c.utf8Size_le_four
    exact .inr ⟨hlt, hfirst, by omega, by omega⟩

/-- **A run of escapes** is replaced. -/
theorem decodeEscape_eq {seq behind : List UInt16} {c : Char} (hrun : EscapeRun seq c)
    (h : string.iter.drop k = seq ++ behind) :
    decodeEscape string reservedSet k [] =
      some (.ok (replacement reservedSet seq c, k + seq.length - 1, [])) := by
  obtain ⟨high, low, seq', b, bytes, rfl, hc, hbyte, hseq'⟩ := hrun.exists_cons
  have hlen := len_of_drop h
  have hlength := hseq'.length_eq
  simp only [List.append_eq, List.length_append, List.length_cons] at hlen
  have hbound : ¬ string.len ≤ k + 2 := by omega
  rw [decodeEscape, if_neg hbound, readHexByte_eq h, hbyte]
  dsimp only
  rw [replacement]
  rcases leadingOnes_cases hc with ⟨hlt, hones, hnat, rfl⟩ | ⟨hlt, hones, hone, hthree⟩
  · obtain rfl : seq' = [] := List.eq_nil_of_length_eq_zero (by simpa using hlength)
    have hunit : b.toUInt16 = UInt16.ofNat c.toNat := by
      rw [← UInt16.toNat_inj, UInt8.toNat_toUInt16, UInt16.toNat_ofNat']
      omega
    rw [if_pos hones, hunit]
    cases hreserved : reservedSet (UInt16.ofNat c.toNat) with
    | false =>
        rw [(encode_of_lt hlt).2]
        simp
    | true =>
        have hread : (SliceIndex.rangeInclusive k (k + 2)).get string.iter =
            some [0x25, high, low] := by
          rw [string.len_eq] at hbound
          rw [SliceIndex.get]
          dsimp only
          rw [if_pos ⟨by omega, by omega⟩, Sequence.slice, List.drop_take, h,
            show k + 2 + 1 - k = 3 by omega]
          rfl
        obtain ⟨part, hpart, hiter⟩ := JsStr.exists_getSlice hread
        simp [hpart, hiter, hlt]
  · have hmiddle : string.iter.drop (k + 2) = low :: (seq' ++ behind) := by
      rw [← List.drop_drop, h]
      rfl
    have hroom : ¬ string.len ≤ k + 2 + 3 * (leadingOnes b - 1) := by omega
    rw [if_neg (by omega), if_neg (by omega), if_neg hroom, hones, Nat.add_sub_cancel,
      decodeOctets_eq hseq' hmiddle]
    dsimp only
    rw [if_neg (by simp), List.nil_append, List.singleton_append, ← hc,
      fromUtf8_utf8EncodeChar, if_neg (fun h => hlt h.1)]
    simp [encodeUtf16, hlength]
    omega

/-- What is replaced is a run of escapes: everything else is a `URIError`, and nothing is read
outside of the string. -/
theorem decodeEscape_cases (reservedSet : UInt16 → Bool) {units : List UInt16}
    (h : string.iter.drop k = 0x25 :: units) :
    (∃ message, decodeEscape string reservedSet k [] = some (.error message)) ∨
      ∃ seq c, EscapeRun seq c ∧ seq <+: 0x25 :: units := by
  have hlen := len_of_drop h
  match units with
  | [] | [_] =>
      refine .inl ⟨_, if_pos ?_⟩
      rw [hlen]
      simp only [List.length_cons, List.length_nil]
      omega
  | high :: low :: units =>
      simp only [List.length_cons] at hlen
      rw [decodeEscape, if_neg (by omega), readHexByte_eq h]
      cases hbyte : decodeHexByte high low with
      | none => exact .inl ⟨_, rfl⟩
      | some b =>
          obtain ⟨d1, d2, h1, h2, hb⟩ := decodeHexByte_eq_some_iff.mp hbyte
          dsimp only
          by_cases hzero : leadingOnes b = 0
          · -- One byte is an ASCII character.
            have hlt := (leadingOnes_eq_zero_iff b).mp hzero
            obtain ⟨c, -, hnat⟩ : ∃ c, charFromU32 b.toNat = some c ∧ c.toNat = b.toNat :=
              charFromU32_of_lt (by omega)
            refine .inr ⟨[0x25, high, low], c, ?_, units, rfl⟩
            rw [EscapeRun, (encode_of_lt (by omega)).1, hnat, UInt8.ofNat_toNat, hb]
            exact .cons h1 h2 .nil
          · rw [if_neg hzero]
            split
            · exact .inl ⟨_, rfl⟩
            · split
              · exact .inl ⟨_, rfl⟩
              · next hroom =>
                  have hmiddle : string.iter.drop (k + 2) = low :: units := by
                    rw [← List.drop_drop, h]
                    rfl
                  rcases decodeOctets_cases (leadingOnes b - 1) hmiddle (by omega) ([] ++ [b]) with
                    ⟨message, hfail⟩ | ⟨seq, octets, hseq, hlength, behind, hinit⟩
                  · exact .inl ⟨message, by rw [hfail]⟩
                  · rw [← hinit] at hmiddle
                    rw [← hlength, decodeOctets_eq hseq hmiddle]
                    dsimp only
                    rw [if_neg (by simp only [List.length_append, List.length_cons,
                      List.length_nil]; omega), List.nil_append, List.singleton_append]
                    cases hutf8 : fromUtf8 (b :: octets) with
                    | none => exact .inl ⟨_, rfl⟩
                    | some v =>
                        obtain ⟨c, _, hc⟩ := exists_char_of_leadingOnes hutf8 (by omega)
                        refine .inr ⟨0x25 :: high :: low :: seq, c, ?_, behind,
                          by rw [← hinit]; rfl⟩
                        rw [EscapeRun, ← hc, hb]
                        exact .cons h1 h2 hseq

/-! ### The loop of `decode` -/

/-- **A round** copies a code unit. -/
theorem decodeLoop_copy {c : UInt16} {rest : List UInt16}
    (h : string.iter.drop k = c :: rest) (hc : c ≠ 0x25) (fuel : ℕ) (r : List UInt16) :
    decodeLoop reservedSet string (fuel + 1) k [] r =
      decodeLoop reservedSet string fuel (k + 1) [] (r ++ [c]) := by
  have hget : string.get k = some c := get_of_drop h 0
  rw [decodeLoop, hget]
  dsimp only
  rw [if_pos hc]

/-- **A round** replaces a run of escapes. -/
theorem decodeLoop_run {seq rest : List UInt16} {c : Char} (hrun : EscapeRun seq c)
    (h : string.iter.drop k = seq ++ rest) (fuel : ℕ) (r : List UInt16) :
    decodeLoop reservedSet string (fuel + 1) k [] r =
      decodeLoop reservedSet string fuel (k + seq.length) [] (r ++ replacement reservedSet seq c) := by
  have heq : decodeEscape string reservedSet k [] = _ := decodeEscape_eq hrun h
  obtain ⟨_, _, _, _, _, rfl, -⟩ := hrun.exists_cons
  have hget : string.get k = some 0x25 := get_of_drop h 0
  rw [decodeLoop, hget]
  dsimp only
  rw [if_neg (fun hne => hne rfl), heq]
  dsimp only
  rw [List.length_cons, ← Nat.add_assoc, Nat.add_sub_cancel]

/-- **A round** fails where no run starts at a percent sign. -/
theorem decodeLoop_stuck {rest : List UInt16} (h : string.iter.drop k = 0x25 :: rest)
    (hnone : ∀ seq c, EscapeRun seq c → ¬ seq <+: 0x25 :: rest) (fuel : ℕ) (r : List UInt16) :
    ∃ message, decodeLoop reservedSet string (fuel + 1) k [] r = some (.error message) := by
  have hget : string.get k = some 0x25 := get_of_drop h 0
  rw [decodeLoop, hget]
  dsimp only
  rw [if_neg (fun hne => hne rfl)]
  rcases decodeEscape_cases reservedSet h with ⟨message, hfail⟩ |
    ⟨seq, c, hrun, hinit⟩
  · exact ⟨message, by rw [hfail]⟩
  · exact absurd hinit (hnone seq c hrun)

theorem drop_succ {c : UInt16} {rest : List UInt16} (h : string.iter.drop k = c :: rest) :
    string.iter.drop (k + 1) = rest := by
  rw [← List.drop_drop, h]
  rfl

/-- A string that can be decoded is decoded. -/
theorem decodeLoop_of_decoded {units out : List UInt16} (hout : Decoded reservedSet units out)
    (h : string.iter.drop k = units) {fuel : ℕ} (hfuel : units.length < fuel) (r : List UInt16) :
    decodeLoop reservedSet string fuel k [] r = some (.ok (r ++ out)) := by
  induction hout generalizing k fuel r with
  | nil =>
      obtain ⟨fuel, rfl⟩ := Nat.exists_eq_add_of_lt hfuel
      have hget : string.get k = none := get_of_drop h 0
      rw [decodeLoop, hget, List.append_nil]
  | copy hc _ ih =>
      obtain ⟨fuel, rfl⟩ := Nat.exists_eq_add_of_lt hfuel
      rw [decodeLoop_copy h hc, ih (drop_succ h) (by rw [List.length_cons]; omega),
        List.append_assoc, List.singleton_append]
  | run hrun _ ih =>
      obtain ⟨fuel, rfl⟩ := Nat.exists_eq_add_of_lt hfuel
      have hfits := hrun.exists_cons
      rw [decodeLoop_run hrun h, ih (drop_of_append h) ?_, List.append_assoc]
      obtain ⟨_, _, _, _, _, rfl, -⟩ := hfits
      simp only [List.length_append, List.length_cons]
      omega

/-- A malformed string is not decoded. -/
theorem decodeLoop_of_malformed {units : List UInt16} (hbad : Malformed units)
    (h : string.iter.drop k = units) {fuel : ℕ} (hfuel : units.length < fuel) (r : List UInt16) :
    ∃ message, decodeLoop reservedSet string fuel k [] r = some (.error message) := by
  induction hbad generalizing k fuel r with
  | digits hdigits =>
      obtain ⟨fuel, rfl⟩ := Nat.exists_eq_add_of_lt hfuel
      refine decodeLoop_stuck h (fun seq c hrun hinit => ?_) _ r
      obtain ⟨high, low, seq', b, _, rfl, _, hbyte, _⟩ := hrun.exists_cons
      obtain ⟨behind, heq⟩ := hinit
      obtain ⟨d1, d2, h1, h2, -⟩ := decodeHexByte_eq_some_iff.mp hbyte
      cases heq
      rcases hdigits high low _ rfl with hnone | hnone
      · cases h1.symm.trans hnone
      · cases h2.symm.trans hnone
  | encoding hnone =>
      obtain ⟨fuel, rfl⟩ := Nat.exists_eq_add_of_lt hfuel
      exact decodeLoop_stuck h hnone _ r
  | copy hc _ ih =>
      obtain ⟨fuel, rfl⟩ := Nat.exists_eq_add_of_lt hfuel
      rw [decodeLoop_copy h hc]
      exact ih (drop_succ h) (by rw [List.length_cons]; omega) _
  | run hrun _ ih =>
      obtain ⟨fuel, rfl⟩ := Nat.exists_eq_add_of_lt hfuel
      rw [decodeLoop_run hrun h]
      refine ih (drop_of_append h) ?_ _
      obtain ⟨_, _, _, _, _, rfl, -⟩ := hrun.exists_cons
      simp only [List.length_append, List.length_cons]
      omega

/-- Every string can be decoded or is malformed. -/
theorem decoded_or_malformed (reservedSet : UInt16 → Bool) (units : List UInt16) :
    (∃ out, Decoded reservedSet units out) ∨ Malformed units := by
  induction hn : units.length using Nat.strongRecOn generalizing units with
  | ind n ih =>
      subst hn
      cases units with
      | nil => exact .inl ⟨[], .nil⟩
      | cons c rest =>
          by_cases hc : c = 0x25
          · subst hc
            by_cases hrun : ∃ seq c, EscapeRun seq c ∧ seq <+: 0x25 :: rest
            · obtain ⟨seq, c, hrun, behind, hinit⟩ := hrun
              rw [← hinit] at ih ⊢
              have hshort : behind.length < (seq ++ behind).length := by
                obtain ⟨_, _, _, _, _, rfl, -⟩ := hrun.exists_cons
                simp only [List.length_append, List.length_cons]
                omega
              rcases ih _ hshort behind rfl with ⟨out, hout⟩ | hbad
              · exact .inl ⟨_, .run hrun hout⟩
              · exact .inr (.run hrun hbad)
            · exact .inr (.encoding fun seq c h hinit => hrun ⟨seq, c, h, hinit⟩)
          · rcases ih _ (Nat.lt_succ_self _) rest rfl with ⟨out, hout⟩ | hbad
            · exact .inl ⟨_, .copy hc hout⟩
            · exact .inr (.copy hc hbad)

/-- **`decode`** replaces exactly the runs of escapes that are not reserved. -/
theorem decode_eq_ok_iff {out : List UInt16} :
    decode string reservedSet = some (.ok out) ↔ Decoded reservedSet string.iter out := by
  have hfuel : string.iter.length < string.len + 1 := by
    rw [string.len_eq]
    exact Nat.lt_succ_self _
  refine ⟨fun h => ?_, fun h => decodeLoop_of_decoded h rfl hfuel []⟩
  rcases decoded_or_malformed reservedSet string.iter with ⟨out', hout'⟩ | hbad
  · cases (decodeLoop_of_decoded hout' rfl hfuel []).symm.trans h
    exact hout'
  · have hdrop : string.iter.drop 0 = string.iter := rfl
    obtain ⟨message, hfail⟩ := decodeLoop_of_malformed hbad hdrop hfuel []
    cases hfail.symm.trans h

/-- **`decode` fails** exactly on the malformed strings. -/
theorem decode_eq_error_iff :
    (∃ message, decode string reservedSet = some (.error message)) ↔ Malformed string.iter := by
  have hfuel : string.iter.length < string.len + 1 := by
    rw [string.len_eq]
    exact Nat.lt_succ_self _
  refine ⟨fun ⟨message, h⟩ => ?_, fun h => decodeLoop_of_malformed h rfl hfuel []⟩
  rcases decoded_or_malformed reservedSet string.iter with ⟨out', hout'⟩ | hbad
  · cases (decodeLoop_of_decoded hout' rfl hfuel []).symm.trans h
  · exact hbad

/-- `decode` ends, and it reads nothing outside of the string. -/
theorem decode_ne_none : decode string reservedSet ≠ none := by
  intro h
  rcases decoded_or_malformed reservedSet string.iter with ⟨out, hout⟩ | hbad
  · cases (decode_eq_ok_iff.mpr hout).symm.trans h
  · obtain ⟨message, hfail⟩ := decode_eq_error_iff.mpr hbad
    cases hfail.symm.trans h

/-! ### Encoding -/

/-- What `encode` writes for a character. -/
def encodedChar (unescapedSet : UInt16 → Bool) (c : Char) : List UInt16 :=
  if c.toNat < 0x80 ∧ unescapedSet (.ofNat c.toNat) then [.ofNat c.toNat]
  else (String.utf8EncodeChar c).flatMap escapeOctet

theorem escapedOctets_escapeOctet (octets : List UInt8) :
    EscapedOctets (octets.flatMap escapeOctet) octets := by
  induction octets with
  | nil => exact .nil
  | cons b octets ih =>
      have hlt := b.toNat_lt
      have hb : b = .ofNat (b.toNat / 16 * 0x10 + b.toNat % 16) := by
        rw [Nat.div_add_mod', UInt8.ofNat_toNat]
      rw [List.flatMap_cons, escapeOctet, paddedUpperHex_two hlt]
      conv => rhs; rw [hb]
      exact .cons (hexDigitValue_upperDigit (by omega)) (hexDigitValue_upperDigit (by omega)) ih

/-- The sets of the functions: the code units of `unescapedSet` are ASCII and no percent sign. -/
def IsUnescapedSet (unescapedSet : UInt16 → Bool) : Prop :=
  ∀ unit, unescapedSet unit → unit.toNat < 0x80 ∧ unit ≠ 0x25

/-- What is written for a character is decoded to it, unless it is reserved and escaped. -/
theorem decoded_encodedChar (hset : IsUnescapedSet unescapedSet)
    (hreserved : ∀ unit, reservedSet unit → unescapedSet unit) {rest out : List UInt16}
    (h : Decoded reservedSet rest out) (c : Char) :
    Decoded reservedSet (encodedChar unescapedSet c ++ rest) (encodeUtf16Char c ++ out) := by
  rw [encodedChar]
  split
  · next hcopy =>
      rw [(encode_of_lt hcopy.1).2]
      exact .copy (hset _ hcopy.2).2 h
  · next hescape =>
      have hrun : EscapeRun ((String.utf8EncodeChar c).flatMap escapeOctet) c :=
        escapedOctets_escapeOctet _
      have hkept : replacement reservedSet ((String.utf8EncodeChar c).flatMap escapeOctet) c =
          encodeUtf16Char c := if_neg fun hr => hescape ⟨hr.1, hreserved _ hr.2⟩
      rw [← hkept]
      exact .run hrun h

theorem decoded_encoded (hset : IsUnescapedSet unescapedSet)
    (hreserved : ∀ unit, reservedSet unit → unescapedSet unit) (chars : List Char) :
    Decoded reservedSet (chars.flatMap (encodedChar unescapedSet))
      (chars.flatMap encodeUtf16Char) := by
  induction chars with
  | nil => exact .nil
  | cons c chars ih =>
      rw [List.flatMap_cons, List.flatMap_cons]
      exact decoded_encodedChar hset hreserved ih c

/-- The code point at an index is the first one of the rest. -/
theorem codePointAt_of_drop {units : List UInt16} {decoded : List (Except UInt16 Char)}
    (hdecoded : DecodesUtf16 units decoded) (h : string.iter.drop k = units) :
    string.codePointAt k = decoded.head?.map .ofDecoded := by
  rw [JsStr.codePointAt_eq, head?_decodeUtf16_take, h, hdecoded.eq]

/-- A surrogate is not in a set of `encode`. -/
theorem unescapedSet_surrogate (hset : IsUnescapedSet unescapedSet) {unit : UInt16}
    (h : isSurrogate unit = true) : unescapedSet unit = false := by
  rw [isSurrogate_eq_true_iff] at h
  cases hunit : unescapedSet unit with
  | false => rfl
  | true =>
      have hlt := (hset unit hunit).1
      omega

/-- **The loop of `encode`** writes the characters of the rest one by one, and fails if one of
its surrogates is unpaired. -/
theorem encodeLoop_cases (hset : IsUnescapedSet unescapedSet) {units : List UInt16}
    {decoded : List (Except UInt16 Char)} (hdecoded : DecodesUtf16 units decoded)
    (h : string.iter.drop k = units) (hk : k ≤ string.len) {fuel : ℕ}
    (hfuel : units.length < fuel) (r : List UInt16) :
    (∃ chars : List Char, decoded = chars.map .ok ∧ encodeLoop unescapedSet string fuel k r =
        some (.ok (r ++ chars.flatMap (encodedChar unescapedSet)))) ∨
      ∃ unit message, .error unit ∈ decoded ∧
        encodeLoop unescapedSet string fuel k r = some (.error message) := by
  obtain ⟨fuel, rfl⟩ := Nat.exists_eq_add_of_lt hfuel
  induction hdecoded generalizing k fuel r with
  | nil =>
      have hend : k = string.len := by
        have hlength := congrArg List.length h
        rw [List.length_drop, List.length_nil, ← string.len_eq] at hlength
        omega
      exact .inl ⟨[], rfl, by rw [encodeLoop, if_pos hend, List.flatMap_nil, List.append_nil]⟩
  | @scalar unit units decoded hunit hrest ih =>
      have hlen := len_of_drop h
      have hget : string.get k = some unit := get_of_drop h 0
      have hnat := toNat_ofNat_of_not_surrogate hunit
      have hpoint := codePointAt_of_drop (.scalar hunit hrest) h
      -- Both branches go on behind the unit with what is written for its character.
      have hround : encodeLoop unescapedSet string ((unit :: units).length + fuel + 1) k r =
          encodeLoop unescapedSet string (units.length + fuel + 1) (k + 1)
            (r ++ encodedChar unescapedSet (Char.ofNat unit.toNat)) := by
        rw [encodeLoop, if_neg (by omega), hget, hpoint, List.length_cons,
          show units.length + 1 + fuel = units.length + fuel + 1 by omega]
        dsimp only [List.head?_cons, Option.map_some, CodePoint.ofDecoded]
        rw [encodedChar, hnat, UInt16.ofNat_toNat, CodePoint.codeUnitCount,
          encodeUtf16Char_ofNat hunit]
        cases hmem : unescapedSet unit with
        | true =>
            rw [if_pos rfl, if_pos ⟨(hset unit hmem).1, rfl⟩]
        | false =>
            rw [if_neg Bool.false_ne_true, if_neg (fun hcopy => Bool.false_ne_true hcopy.2)]
            rfl
      rw [hround]
      rcases ih (drop_succ h) (by omega) (r ++ _) fuel (by omega) with
        ⟨chars, rfl, heq⟩ | ⟨bad, message, hmem, heq⟩
      · exact .inl ⟨Char.ofNat unit.toNat :: chars, rfl, by
          rw [heq, List.flatMap_cons, List.append_assoc]⟩
      · exact .inr ⟨bad, message, List.mem_cons_of_mem _ hmem, heq⟩
  | @pair leading trailing units decoded hleading hlt htrailing hrest ih =>
      have hlen := len_of_drop h
      have hget : string.get k = some leading := get_of_drop h 0
      have hnat := toNat_ofSurrogates hleading hlt htrailing
      have hpoint := codePointAt_of_drop (.pair hleading hlt htrailing hrest) h
      have hround : encodeLoop unescapedSet string
            ((leading :: trailing :: units).length + fuel + 1) k r =
          encodeLoop unescapedSet string (units.length + (fuel + 1) + 1) (k + 2)
            (r ++ encodedChar unescapedSet (ofSurrogates leading trailing)) := by
        rw [encodeLoop, if_neg (by omega), hget, hpoint, List.length_cons, List.length_cons,
          show units.length + 1 + 1 + fuel = units.length + (fuel + 1) + 1 by omega]
        dsimp only [List.head?_cons, Option.map_some, CodePoint.ofDecoded]
        rw [unescapedSet_surrogate hset hleading, if_neg Bool.false_ne_true, encodedChar, hnat,
          if_neg (by omega), CodePoint.codeUnitCount,
          encodeUtf16Char_ofSurrogates hleading hlt htrailing]
        rfl
      rw [hround]
      simp only [List.length_cons] at hlen
      rcases ih (drop_succ (drop_succ h)) (by omega) (r ++ _) (fuel + 1) (by omega) with
        ⟨chars, rfl, heq⟩ | ⟨bad, message, hmem, heq⟩
      · exact .inl ⟨ofSurrogates leading trailing :: chars, rfl, by
          rw [heq, List.flatMap_cons, List.append_assoc]⟩
      · exact .inr ⟨bad, message, List.mem_cons_of_mem _ hmem, heq⟩
  | @unpaired unit units decoded hunit hnext hrest ih =>
      have hlen := len_of_drop h
      have hget : string.get k = some unit := get_of_drop h 0
      have hpoint := codePointAt_of_drop (.unpaired hunit hnext hrest) h
      refine .inr ⟨unit, "trying to encode an invalid string", List.mem_cons_self, ?_⟩
      rw [encodeLoop, if_neg (by omega), hget, hpoint]
      dsimp only [List.head?_cons, Option.map_some, CodePoint.ofDecoded]
      rw [unescapedSet_surrogate hset hunit, if_neg Bool.false_ne_true]

/-- **`encode`** writes the characters one by one, and fails exactly on a string with an unpaired
surrogate. -/
theorem encode_spec (hset : IsUnescapedSet unescapedSet) (string : JsStr) :
    (∃ chars : List Char, chars.flatMap encodeUtf16Char = string.iter ∧
      (∀ unit, .unpairedSurrogate unit ∉ string.codePoints) ∧
      encode string unescapedSet = some (.ok (chars.flatMap (encodedChar unescapedSet)))) ∨
    ∃ unit message, .unpairedSurrogate unit ∈ string.codePoints ∧
      encode string unescapedSet = some (.error message) := by
  have hfuel : string.iter.length < string.len + 1 := by
    rw [string.len_eq]
    exact Nat.lt_succ_self _
  have hdrop : string.iter.drop 0 = string.iter := rfl
  have hdecodes := decodesUtf16 string.iter
  rw [string.codePoints_eq]
  rcases encodeLoop_cases hset hdecodes hdrop (Nat.zero_le _) hfuel [] with
    ⟨chars, hchars, heq⟩ | ⟨unit, message, hmem, heq⟩
  · refine .inl ⟨chars, flatMap_encodeUtf16Char_of_decodeUtf16 hchars, fun unit hmem => ?_, heq⟩
    rw [hchars, List.map_map] at hmem
    obtain ⟨c, -, hc⟩ := List.mem_map.mp hmem
    cases hc
  · exact .inr ⟨unit, message, List.mem_map.mpr ⟨.error unit, hmem, rfl⟩, heq⟩

/-! ### The functions together -/

/-- What is expected of a function that encodes and the one that decodes, which leaves the escapes
of a set as they were written. -/
structure IsUriPair (encodes decodes : JsStr → UriResult (List UInt16))
    (reservedSet : UInt16 → Bool) : Prop where
  /-- Both functions end, and they read nothing outside of the string. -/
  encodes_ne_none : ∀ string, encodes string ≠ none
  decodes_ne_none : ∀ string, decodes string ≠ none
  /-- What is not encoded has an unpaired surrogate. -/
  encodes_error_iff : ∀ string, (∃ message, encodes string = some (.error message)) ↔
    ∃ unit, .unpairedSurrogate unit ∈ string.codePoints
  /-- What is encoded is decoded to what it was. -/
  decodes_encoded : ∀ string encoded : JsStr, encodes string = some (.ok encoded.iter) →
    decodes encoded = some (.ok string.iter)
  decodes_error_iff : ∀ string, (∃ message, decodes string = some (.error message)) ↔
    Malformed string.iter
  decodes_ok_iff : ∀ string out, decodes string = some (.ok out) ↔
    Decoded reservedSet string.iter out

theorem isUriPair (hset : IsUnescapedSet unescapedSet)
    (hreserved : ∀ unit, reservedSet unit → unescapedSet unit) :
    IsUriPair (encode · unescapedSet) (decode · reservedSet) reservedSet where
  encodes_ne_none string h := by
    rcases encode_spec hset string with ⟨_, _, _, heq⟩ | ⟨_, _, _, heq⟩
    all_goals cases heq.symm.trans h
  decodes_ne_none _ := decode_ne_none
  encodes_error_iff string := by
    rcases encode_spec hset string with ⟨_, _, hnone, heq⟩ | ⟨unit, message, hmem, heq⟩
    · refine ⟨fun ⟨message, h⟩ => ?_, fun ⟨unit, hmem⟩ => absurd hmem (hnone unit)⟩
      cases heq.symm.trans h
    · exact ⟨fun _ => ⟨unit, hmem⟩, fun _ => ⟨message, heq⟩⟩
  decodes_encoded string encoded h := by
    rcases encode_spec hset string with ⟨chars, hchars, _, heq⟩ | ⟨_, _, _, heq⟩
    · have hencoded : encoded.iter = chars.flatMap (encodedChar unescapedSet) := by
        have hsame := h.symm.trans heq
        simpa using hsame
      refine decode_eq_ok_iff.mpr ?_
      rw [hencoded, ← hchars]
      exact decoded_encoded hset hreserved chars
    · cases heq.symm.trans h
  decodes_error_iff _ := decode_eq_error_iff
  decodes_ok_iff _ _ := decode_eq_ok_iff

theorem isUriUnescaped_lt {unit : UInt16} (h : isUriUnescaped unit) :
    unit.toNat < 0x80 ∧ unit ≠ 0x25 := by
  simp only [isUriUnescaped, Bool.or_eq_true, Bool.and_eq_true, decide_eq_true_eq,
    UInt16.le_iff_toNat_le, List.contains_iff_mem, uriMark, List.mem_cons, List.not_mem_nil,
    ← UInt16.toNat_inj, UInt16.reduceToNat, or_false, ne_eq] at h ⊢
  omega

theorem isUriReservedOrNumberSign_lt {unit : UInt16} (h : isUriReservedOrNumberSign unit) :
    unit.toNat < 0x80 ∧ unit ≠ 0x25 := by
  simp only [isUriReservedOrNumberSign, Bool.or_eq_true, beq_iff_eq, numberSign,
    List.contains_iff_mem, uriReserved, List.mem_cons, List.not_mem_nil, ← UInt16.toNat_inj,
    UInt16.reduceToNat, or_false, ne_eq] at h ⊢
  omega

/-- The larger set is the union of the others. -/
theorem isUriReservedOrUriUnescapedOrNumberSign_eq (unit : UInt16) :
    isUriReservedOrUriUnescapedOrNumberSign unit =
      (isUriReservedOrNumberSign unit || isUriUnescaped unit) := by
  rw [isUriReservedOrUriUnescapedOrNumberSign, isUriReservedOrNumberSign, Bool.or_right_comm]

/-- **The URI functions**: `encodeURI` with `decodeURI`, which leaves the escapes of reserved
characters and of the number sign, and `encodeURIComponent` with `decodeURIComponent`. -/
theorem uri_functions :
    IsUriPair encodeUri decodeUri isUriReservedOrNumberSign ∧
      IsUriPair encodeUriComponent decodeUriComponent fun _ => false := by
  refine ⟨isUriPair (fun unit h => ?_) (fun unit h => ?_),
    isUriPair (fun unit h => isUriUnescaped_lt h) (fun unit h => nomatch h)⟩
  · rw [isUriReservedOrUriUnescapedOrNumberSign_eq, Bool.or_eq_true] at h
    exact h.elim isUriReservedOrNumberSign_lt isUriUnescaped_lt
  · rw [isUriReservedOrUriUnescapedOrNumberSign_eq, Bool.or_eq_true]
    exact .inl h

end Uri

end BoaLigero
