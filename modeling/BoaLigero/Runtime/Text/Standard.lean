import BoaLigero.String.Utf8

/-!
# The Decoders of the Encoding Standard

The decoders of UTF-8 and UTF-16 in replacement mode: what cannot be decoded becomes `U+FFFD`. A
byte that is restored to the queue is read again in the same step.

## Main results

* `utf8Decode_utf8EncodeChar` — an encoded character is decoded to itself.
* `eq_bom_of_head` — only the bytes of the byte order mark are decoded to it first.
* `utf16Decode_of_paired` — code units without unpaired surrogates, and a dangling byte.
-/

namespace BoaLigero.Text

/-- What stands for an error. -/
def replacement : Char := Char.ofNat 0xFFFD

/-- The byte order mark. -/
def byteOrderMark : Char := Char.ofNat 0xFEFF

/-! ### UTF-8 -/

/-- The state of the UTF-8 decoder. -/
structure Utf8State where
  codePoint : ℕ := 0
  bytesSeen : ℕ := 0
  bytesNeeded : ℕ := 0
  lowerBoundary : ℕ := 0x80
  upperBoundary : ℕ := 0xBF

/-- The first byte of a sequence. -/
def utf8First (byte : ℕ) : List Char × Utf8State :=
  if byte ≤ 0x7F then ([Char.ofNat byte], {})
  else if 0xC2 ≤ byte ∧ byte ≤ 0xDF then
    ([], { codePoint := byte % 0x20, bytesNeeded := 1 })
  else if 0xE0 ≤ byte ∧ byte ≤ 0xEF then
    ([], { codePoint := byte % 0x10, bytesNeeded := 2,
           lowerBoundary := if byte = 0xE0 then 0xA0 else 0x80,
           upperBoundary := if byte = 0xED then 0x9F else 0xBF })
  else if 0xF0 ≤ byte ∧ byte ≤ 0xF4 then
    ([], { codePoint := byte % 0x08, bytesNeeded := 3,
           lowerBoundary := if byte = 0xF0 then 0x90 else 0x80,
           upperBoundary := if byte = 0xF4 then 0x8F else 0xBF })
  else ([replacement], {})

/-- The handler of the UTF-8 decoder. -/
def utf8Handler (state : Utf8State) (byte : ℕ) : List Char × Utf8State :=
  if state.bytesNeeded = 0 then utf8First byte
  else if byte < state.lowerBoundary ∨ state.upperBoundary < byte then
    -- The byte is restored.
    let (decoded, state) := utf8First byte
    (replacement :: decoded, state)
  else
    let codePoint := state.codePoint * 0x40 + byte % 0x40
    if state.bytesSeen + 1 = state.bytesNeeded then ([Char.ofNat codePoint], {})
    else ([], { codePoint, bytesSeen := state.bytesSeen + 1, bytesNeeded := state.bytesNeeded })

/-- The UTF-8 decoder. -/
def utf8Decode (state : Utf8State) : List UInt8 → List Char
  | [] => if state.bytesNeeded = 0 then [] else [replacement]
  | byte :: bytes =>
      let (decoded, state) := utf8Handler state byte.toNat
      decoded ++ utf8Decode state bytes

/-! ### UTF-16 -/

/-- The state of the shared UTF-16 decoder. -/
structure Utf16State where
  leadByte : Option UInt8 := none
  leadSurrogate : Option UInt16 := none

/-- The code unit of two bytes. -/
def codeUnit (bigEndian : Bool) (lead byte : UInt8) : UInt16 :=
  if bigEndian then .ofNat (lead.toNat * 0x100 + byte.toNat)
  else .ofNat (byte.toNat * 0x100 + lead.toNat)

/-- A code unit without a lead surrogate before it. -/
def utf16First (unit : UInt16) : List Char × Utf16State :=
  if isSurrogate unit && !isTrailing unit then ([], { leadSurrogate := some unit })
  else if isTrailing unit then ([replacement], {})
  else ([Char.ofNat unit.toNat], {})

/-- The handler of the shared UTF-16 decoder. -/
def utf16Handler (bigEndian : Bool) (state : Utf16State) (byte : UInt8) : List Char × Utf16State :=
  match state.leadByte with
  | none => ([], { state with leadByte := some byte })
  | some lead =>
      let unit := codeUnit bigEndian lead byte
      match state.leadSurrogate with
      | some surrogate =>
          if isTrailing unit then ([ofSurrogates surrogate unit], {})
          else
            -- The two bytes are restored.
            let (decoded, state) := utf16First unit
            (replacement :: decoded, state)
      | none => utf16First unit

/-- The shared UTF-16 decoder. -/
def utf16Decode (bigEndian : Bool) (state : Utf16State) : List UInt8 → List Char
  | [] => if state.leadByte.isSome || state.leadSurrogate.isSome then [replacement] else []
  | byte :: bytes =>
      let (decoded, state) := utf16Handler bigEndian state byte
      decoded ++ utf16Decode bigEndian state bytes

/-- The characters without a byte order mark in front of them, unless it is ignored. -/
def serialize (ignoreBom : Bool) (chars : List Char) : List Char :=
  if ignoreBom = false ∧ chars.head? = some byteOrderMark then chars.tail else chars

/-! ### Encoded characters -/

/-- The bits of a mask behind those of a marker. -/
theorem toNat_mask_or {mask marker : UInt8} {k m : ℕ} (hmask : mask.toNat = 2 ^ k - 1)
    (hmarker : marker.toNat = 2 ^ k * m) (b : UInt8) :
    (b &&& mask ||| marker).toNat = marker.toNat + b.toNat % 2 ^ k := by
  have hlt : b.toNat % 2 ^ k < 2 ^ k := Nat.mod_lt _ (Nat.two_pow_pos k)
  rw [UInt8.toNat_or, UInt8.toNat_and, hmask, Nat.and_two_pow_sub_one_eq_mod, hmarker,
    Nat.or_comm, Nat.two_pow_add_eq_or_of_lt hlt]

/-- The lead byte of two has its five bits behind the mark. -/
theorem toNat_lead_two (b : UInt8) : (b &&& 0x1F ||| 0xC0).toNat = 0xC0 + b.toNat % 0x20 :=
  toNat_mask_or (k := 5) (m := 6) rfl rfl b

/-- The lead byte of three has its four bits behind the mark. -/
theorem toNat_lead_three (b : UInt8) : (b &&& 0x0F ||| 0xE0).toNat = 0xE0 + b.toNat % 0x10 :=
  toNat_mask_or (k := 4) (m := 14) rfl rfl b

/-- The lead byte of four has its three bits behind the mark. -/
theorem toNat_lead_four (b : UInt8) : (b &&& 0x07 ||| 0xF0).toNat = 0xF0 + b.toNat % 0x08 :=
  toNat_mask_or (k := 3) (m := 30) rfl rfl b

/-- A continuation byte has its six bits behind the mark. -/
theorem toNat_continuation (b : UInt8) : (b &&& 0x3F ||| 0x80).toNat = 0x80 + b.toNat % 0x40 :=
  toNat_mask_or (k := 6) (m := 2) rfl rfl b

section Sequences

variable {bytes : List UInt8} {b : UInt8} {codePoint seen needed lower upper : ℕ}

/-- Bytes are decoded one after the other, with what the decoder knows of those before. -/
theorem utf8Decode_cons (state : Utf8State) (b : UInt8) (bytes : List UInt8) :
    utf8Decode state (b :: bytes) =
      (utf8Handler state b.toNat).1 ++ utf8Decode (utf8Handler state b.toNat).2 bytes := rfl

/-- A byte that continues a sequence. -/
theorem utf8Decode_continue (hneeded : seen + 1 < needed) (hlow : lower ≤ b.toNat)
    (hhigh : b.toNat ≤ upper) :
    utf8Decode ⟨codePoint, seen, needed, lower, upper⟩ (b :: bytes) =
      utf8Decode { codePoint := codePoint * 0x40 + b.toNat % 0x40, bytesSeen := seen + 1,
                   bytesNeeded := needed } bytes := by
  rw [utf8Decode_cons, utf8Handler, if_neg (by dsimp only; omega), if_neg (by dsimp only; omega),
    if_neg (by dsimp only; omega)]
  rfl

/-- A byte that ends a sequence. -/
theorem utf8Decode_last (hlow : lower ≤ b.toNat) (hhigh : b.toNat ≤ upper) :
    utf8Decode ⟨codePoint, seen, seen + 1, lower, upper⟩ (b :: bytes) =
      Char.ofNat (codePoint * 0x40 + b.toNat % 0x40) :: utf8Decode {} bytes := by
  rw [utf8Decode_cons, utf8Handler, if_neg (by dsimp only; omega), if_neg (by dsimp only; omega),
    if_pos rfl]
  rfl

/-- A byte that cannot continue a sequence. -/
theorem head?_utf8Decode_invalid (hneeded : needed ≠ 0)
    (h : ∀ b rest, bytes = b :: rest → b.toNat < lower ∨ upper < b.toNat) :
    (utf8Decode ⟨codePoint, seen, needed, lower, upper⟩ bytes).head? = some replacement := by
  cases bytes with
  | nil =>
      rw [utf8Decode, if_neg hneeded]
      rfl
  | cons b rest =>
      rw [utf8Decode_cons, utf8Handler, if_neg hneeded, if_pos (h b rest rfl)]
      rfl

/-- An ASCII byte is a character of its own. -/
theorem utf8Decode_one (h : b.toNat ≤ 0x7F) :
    utf8Decode {} (b :: bytes) = Char.ofNat b.toNat :: utf8Decode {} bytes := by
  rw [utf8Decode_cons, utf8Handler, if_pos rfl, utf8First, if_pos h]
  rfl

/-- A lead byte of two waits for one continuation byte. -/
theorem utf8Decode_two (hlow : 0xC2 ≤ b.toNat) (hhigh : b.toNat ≤ 0xDF) :
    utf8Decode {} (b :: bytes) = utf8Decode ⟨b.toNat % 0x20, 0, 1, 0x80, 0xBF⟩ bytes := by
  rw [utf8Decode_cons, utf8Handler, if_pos rfl, utf8First, if_neg (by omega), if_pos ⟨hlow, hhigh⟩]
  rfl

/-- A lead byte of three waits for two continuation bytes, the first of which is restricted for two
lead bytes. -/
theorem utf8Decode_three (hlow : 0xE0 ≤ b.toNat) (hhigh : b.toNat ≤ 0xEF) :
    utf8Decode {} (b :: bytes) =
      utf8Decode ⟨b.toNat % 0x10, 0, 2, if b.toNat = 0xE0 then 0xA0 else 0x80,
        if b.toNat = 0xED then 0x9F else 0xBF⟩ bytes := by
  rw [utf8Decode_cons, utf8Handler, if_pos rfl, utf8First, if_neg (by omega), if_neg (by omega),
    if_pos ⟨hlow, hhigh⟩]
  rfl

/-- A lead byte of four waits for three continuation bytes, the first of which is restricted for two
lead bytes. -/
theorem utf8Decode_four (hlow : 0xF0 ≤ b.toNat) (hhigh : b.toNat ≤ 0xF4) :
    utf8Decode {} (b :: bytes) =
      utf8Decode ⟨b.toNat % 0x08, 0, 3, if b.toNat = 0xF0 then 0x90 else 0x80,
        if b.toNat = 0xF4 then 0x8F else 0xBF⟩ bytes := by
  rw [utf8Decode_cons, utf8Handler, if_pos rfl, utf8First, if_neg (by omega), if_neg (by omega),
    if_neg (by omega), if_pos ⟨hlow, hhigh⟩]
  rfl

/-- A byte that begins no sequence. -/
theorem head?_utf8Decode_other (h : 0x7F < b.toNat)
    (htwo : ¬ (0xC2 ≤ b.toNat ∧ b.toNat ≤ 0xF4)) :
    (utf8Decode {} (b :: bytes)).head? = some replacement := by
  rw [utf8Decode_cons, utf8Handler, if_pos rfl, utf8First, if_neg (by omega), if_neg (by omega),
    if_neg (by omega), if_neg (by omega)]
  rfl

end Sequences

/-- A byte of a code point is the remainder of a shifted number. -/
theorem toNat_shiftRight_toUInt8 (v : UInt32) (k : UInt32) (hk : k.toNat < 32) :
    ((v >>> k).toUInt8).toNat = v.toNat / 2 ^ k.toNat % 256 := by
  rw [UInt32.toNat_toUInt8, UInt32.toNat_shiftRight, Nat.mod_eq_of_lt hk, Nat.shiftRight_eq_div_pow]

/-- The code points of characters. -/
theorem toNat_ranges (c : Char) : c.toNat < 0xD800 ∨ 0xDFFF < c.toNat ∧ c.toNat < 0x110000 :=
  c.valid

section Characters

variable {c : Char}

/-- The six bits of a continuation byte. -/
private theorem continuation_mod (n : ℕ) : (0x80 + n % 0x40) % 0x40 = n % 0x40 := by omega

/-- Six bits behind the others are those of a number. -/
private theorem sixBits (n m : ℕ) : n / (m * 0x40) * 0x40 + n / m % 0x40 = n / m := by
  rw [← Nat.div_div_eq_div_mul, Nat.div_add_mod']

/-- A character of two bytes is decoded to itself. -/
private theorem utf8Decode_char_two (hsize : c.utf8Size = 2) (bytes : List UInt8) :
    utf8Decode {} (String.utf8EncodeChar c ++ bytes) = c :: utf8Decode {} bytes := by
  obtain ⟨hge, hle⟩ : 0x80 ≤ c.toNat ∧ c.toNat ≤ 0x7FF :=
    ⟨(Char.utf8Size_eq_two_iff.mp hsize).1, (Char.utf8Size_eq_two_iff.mp hsize).2⟩
  have hfirst : (0xC0 + c.toNat / 0x40) % 0x20 = c.toNat / 0x40 := by omega
  have hlead : ((c.val >>> 6).toUInt8 &&& 0x1F ||| 0xC0).toNat = 0xC0 + c.toNat / 0x40 := by
    rw [toNat_lead_two, toNat_shiftRight_toUInt8 c.val 6 (by decide)]
    change 0xC0 + c.toNat / 0x40 % 256 % 0x20 = _
    omega
  have hlast : (c.val.toUInt8 &&& 0x3F ||| 0x80).toNat = 0x80 + c.toNat % 0x40 := by
    rw [toNat_continuation, UInt32.toNat_toUInt8]
    change 0x80 + c.toNat % 256 % 0x40 = _
    omega
  rw [String.utf8EncodeChar_eq_cons_cons hsize, List.cons_append, List.cons_append,
    List.nil_append, utf8Decode_two (by omega) (by omega), utf8Decode_last (by omega) (by omega),
    hlead, hlast]
  congr 1
  rw [hfirst, continuation_mod, Nat.div_add_mod', Char.ofNat_toNat]

/-- A character of three bytes is decoded to itself. -/
private theorem utf8Decode_char_three (hsize : c.utf8Size = 3) (bytes : List UInt8) :
    utf8Decode {} (String.utf8EncodeChar c ++ bytes) = c :: utf8Decode {} bytes := by
  have hvalid := toNat_ranges c
  obtain ⟨hge, hle⟩ : 0x800 ≤ c.toNat ∧ c.toNat ≤ 0xFFFF :=
    ⟨(Char.utf8Size_eq_three_iff.mp hsize).1, (Char.utf8Size_eq_three_iff.mp hsize).2⟩
  have hfirst : (0xE0 + c.toNat / 0x1000) % 0x10 = c.toNat / 0x1000 := by omega
  have hlead : ((c.val >>> 12).toUInt8 &&& 0x0F ||| 0xE0).toNat = 0xE0 + c.toNat / 0x1000 := by
    rw [toNat_lead_three, toNat_shiftRight_toUInt8 c.val 12 (by decide)]
    change 0xE0 + c.toNat / 0x1000 % 256 % 0x10 = _
    omega
  have hmiddle : ((c.val >>> 6).toUInt8 &&& 0x3F ||| 0x80).toNat =
      0x80 + c.toNat / 0x40 % 0x40 := by
    rw [toNat_continuation, toNat_shiftRight_toUInt8 c.val 6 (by decide)]
    change 0x80 + c.toNat / 0x40 % 256 % 0x40 = _
    omega
  have hlast : (c.val.toUInt8 &&& 0x3F ||| 0x80).toNat = 0x80 + c.toNat % 0x40 := by
    rw [toNat_continuation, UInt32.toNat_toUInt8]
    change 0x80 + c.toNat % 256 % 0x40 = _
    omega
  rw [String.utf8EncodeChar_eq_cons_cons_cons hsize, List.cons_append, List.cons_append,
    List.cons_append, List.nil_append, utf8Decode_three (by omega) (by omega),
    utf8Decode_continue (by omega) (by split <;> omega) (by split <;> omega),
    utf8Decode_last (by omega) (by omega), hlead, hmiddle, hlast]
  congr 1
  rw [hfirst, continuation_mod, continuation_mod, sixBits c.toNat 0x40, Nat.div_add_mod',
    Char.ofNat_toNat]

/-- A character of four bytes is decoded to itself. -/
private theorem utf8Decode_char_four (hsize : c.utf8Size = 4) (bytes : List UInt8) :
    utf8Decode {} (String.utf8EncodeChar c ++ bytes) = c :: utf8Decode {} bytes := by
  have hle : c.toNat < 0x110000 := by
    have := toNat_ranges c
    omega
  have hge : 0x10000 ≤ c.toNat := by
    have htwo := mt Char.utf8Size_eq_two_iff.mpr (by rw [hsize]; decide)
    have hthree := mt Char.utf8Size_eq_three_iff.mpr (by rw [hsize]; decide)
    have hone := mt utf8Size_eq_one_iff.mpr (by rw [hsize]; decide)
    change ¬ (0x7F < c.toNat ∧ c.toNat ≤ 0x7FF) at htwo
    change ¬ (0x7FF < c.toNat ∧ c.toNat ≤ 0xFFFF) at hthree
    omega
  have hfirst : (0xF0 + c.toNat / 0x40000) % 0x08 = c.toNat / 0x40000 := by omega
  have hlead : ((c.val >>> 18).toUInt8 &&& 0x07 ||| 0xF0).toNat = 0xF0 + c.toNat / 0x40000 := by
    rw [toNat_lead_four, toNat_shiftRight_toUInt8 c.val 18 (by decide)]
    change 0xF0 + c.toNat / 0x40000 % 256 % 0x08 = _
    omega
  have hsecond : ((c.val >>> 12).toUInt8 &&& 0x3F ||| 0x80).toNat =
      0x80 + c.toNat / 0x1000 % 0x40 := by
    rw [toNat_continuation, toNat_shiftRight_toUInt8 c.val 12 (by decide)]
    change 0x80 + c.toNat / 0x1000 % 256 % 0x40 = _
    omega
  have hthird : ((c.val >>> 6).toUInt8 &&& 0x3F ||| 0x80).toNat = 0x80 + c.toNat / 0x40 % 0x40 := by
    rw [toNat_continuation, toNat_shiftRight_toUInt8 c.val 6 (by decide)]
    change 0x80 + c.toNat / 0x40 % 256 % 0x40 = _
    omega
  have hlast : (c.val.toUInt8 &&& 0x3F ||| 0x80).toNat = 0x80 + c.toNat % 0x40 := by
    rw [toNat_continuation, UInt32.toNat_toUInt8]
    change 0x80 + c.toNat % 256 % 0x40 = _
    omega
  rw [String.utf8EncodeChar_eq_cons_cons_cons_cons hsize, List.cons_append, List.cons_append,
    List.cons_append, List.cons_append, List.nil_append, utf8Decode_four (by omega) (by omega),
    utf8Decode_continue (by omega) (by split <;> omega) (by split <;> omega),
    utf8Decode_continue (by omega) (by omega) (by omega),
    utf8Decode_last (by omega) (by omega), hlead, hsecond, hthird, hlast]
  congr 1
  rw [hfirst, continuation_mod, continuation_mod, continuation_mod, sixBits c.toNat 0x1000,
    sixBits c.toNat 0x40, Nat.div_add_mod', Char.ofNat_toNat]

/-- **An encoded character** is decoded to itself. -/
theorem utf8Decode_utf8EncodeChar (c : Char) (bytes : List UInt8) :
    utf8Decode {} (String.utf8EncodeChar c ++ bytes) = c :: utf8Decode {} bytes := by
  rcases c.utf8Size_eq with hsize | hsize | hsize | hsize
  · have hlt := utf8Size_eq_one_iff.mp hsize
    have hbyte : (UInt8.ofNat c.toNat).toNat = c.toNat := by
      rw [UInt8.toNat_ofNat', Nat.mod_eq_of_lt (by omega)]
    rw [(encode_of_lt hlt).1, List.singleton_append, utf8Decode_one (by omega), hbyte,
      Char.ofNat_toNat]
  · exact utf8Decode_char_two hsize bytes
  · exact utf8Decode_char_three hsize bytes
  · exact utf8Decode_char_four hsize bytes

end Characters

/-- **Encoded text** is decoded to itself. -/
theorem utf8Decode_flatMap (chars : List Char) :
    utf8Decode {} (chars.flatMap String.utf8EncodeChar) = chars := by
  induction chars with
  | nil => rfl
  | cons c chars ih => rw [List.flatMap_cons, utf8Decode_utf8EncodeChar, ih]

/-! ### The byte order mark of UTF-8 -/

/-- Only one number is that of the byte order mark. -/
theorem eq_of_charOfNat {n : ℕ} (h : Char.ofNat n = byteOrderMark) : n = 0xFEFF := by
  by_cases hvalid : n.isValidChar
  · have hnat := congrArg Char.toNat h
    rwa [toNat_charOfNat hvalid] at hnat
  · rw [Char.ofNat, dif_neg hvalid] at h
    exact absurd h (by decide)

/-- The replacement character is not the byte order mark. -/
theorem replacement_ne_byteOrderMark : replacement ≠ byteOrderMark := by decide

section ByteOrderMark

variable {bytes : List UInt8} {codePoint seen needed lower upper : ℕ}

/-- If the mark is decoded first, the sequence is continued. -/
theorem exists_continue_of_head (hneeded : needed ≠ 0)
    (h : (utf8Decode ⟨codePoint, seen, needed, lower, upper⟩ bytes).head? = some byteOrderMark) :
    ∃ b rest, bytes = b :: rest ∧ lower ≤ b.toNat ∧ b.toNat ≤ upper := by
  by_contra hnone
  rw [head?_utf8Decode_invalid hneeded, Option.some.injEq] at h
  · exact replacement_ne_byteOrderMark h
  · intro b rest hbytes
    by_contra hin
    exact hnone ⟨b, rest, hbytes, by omega, by omega⟩

/-- If the last continuation byte gives the byte order mark, the bits of the code point are those of
the mark. -/
theorem last_of_head {b : UInt8} (hlow : lower ≤ b.toNat) (hhigh : b.toNat ≤ upper)
    (h : (utf8Decode ⟨codePoint, seen, seen + 1, lower, upper⟩ (b :: bytes)).head? =
      some byteOrderMark) : codePoint * 0x40 + b.toNat % 0x40 = 0xFEFF := by
  rw [utf8Decode_last hlow hhigh, List.head?_cons, Option.some.injEq] at h
  exact eq_of_charOfNat h

/-- **Only the bytes of the byte order mark** are decoded to it first. -/
theorem eq_bom_of_head (h : (utf8Decode {} bytes).head? = some byteOrderMark) :
    ∃ rest, bytes = 0xEF :: 0xBB :: 0xBF :: rest := by
  cases bytes with
  | nil => cases h
  | cons b rest =>
      have hb := b.toNat_lt
      obtain hone | hother | htwo | hthree | hfour :
        b.toNat ≤ 0x7F ∨ (0x7F < b.toNat ∧ ¬ (0xC2 ≤ b.toNat ∧ b.toNat ≤ 0xF4)) ∨
          (0xC2 ≤ b.toNat ∧ b.toNat ≤ 0xDF) ∨ (0xE0 ≤ b.toNat ∧ b.toNat ≤ 0xEF) ∨
            (0xF0 ≤ b.toNat ∧ b.toNat ≤ 0xF4) := by omega
      · rw [utf8Decode_one hone, List.head?_cons, Option.some.injEq] at h
        have := eq_of_charOfNat h
        omega
      · rw [head?_utf8Decode_other hother.1 hother.2, Option.some.injEq] at h
        exact absurd h replacement_ne_byteOrderMark
      · rw [utf8Decode_two htwo.1 htwo.2] at h
        obtain ⟨b', rest, rfl, hlow, hhigh⟩ := exists_continue_of_head (by decide) h
        have := last_of_head hlow hhigh h
        omega
      · rw [utf8Decode_three hthree.1 hthree.2] at h
        obtain ⟨b', rest, rfl, hlow, hhigh⟩ := exists_continue_of_head (by decide) h
        rw [utf8Decode_continue (by decide) hlow hhigh] at h
        obtain ⟨b'', rest, rfl, hlow', hhigh'⟩ := exists_continue_of_head (by decide) h
        have hvalue := last_of_head hlow' hhigh' h
        have hlow : 0x80 ≤ b'.toNat := Nat.le_trans (by split <;> omega) hlow
        have hhigh : b'.toNat ≤ 0xBF := Nat.le_trans hhigh (by split <;> omega)
        refine ⟨rest, ?_⟩
        simp only [List.cons.injEq, and_true, ← UInt8.toNat_inj, UInt8.reduceToNat]
        omega
      · rw [utf8Decode_four hfour.1 hfour.2] at h
        obtain ⟨b', rest, rfl, hlow, hhigh⟩ := exists_continue_of_head (by decide) h
        rw [utf8Decode_continue (by decide) hlow hhigh] at h
        obtain ⟨b'', rest, rfl, hlow', hhigh'⟩ := exists_continue_of_head (by decide) h
        rw [utf8Decode_continue (by decide) hlow' hhigh'] at h
        obtain ⟨last, rest, rfl, hlow'', hhigh''⟩ := exists_continue_of_head (by decide) h
        have hvalue := last_of_head hlow'' hhigh'' h
        have hhigh : b'.toNat ≤ 0xBF := Nat.le_trans hhigh (by split <;> omega)
        have hlow : if b.toNat = 0xF0 then 0x90 ≤ b'.toNat else 0x80 ≤ b'.toNat := by
          split <;> next heq => simpa [heq] using hlow
        split at hlow <;> omega

end ByteOrderMark

/-! ### Code units -/

/-- The code units of bytes, without a dangling one. -/
def unitsOf (bigEndian : Bool) : List UInt8 → List UInt16
  | lead :: byte :: rest => codeUnit bigEndian lead byte :: unitsOf bigEndian rest
  | _ => []

section CodeUnits

variable {bigEndian : Bool} {bytes : List UInt8} {chars : List Char} {unit : UInt16}

/-- The first code unit is made of the first two bytes. -/
theorem exists_bytes_of_unitsOf {units : List UInt16} (h : unitsOf bigEndian bytes = unit :: units) :
    ∃ lead byte rest, bytes = lead :: byte :: rest ∧ unit = codeUnit bigEndian lead byte ∧
      unitsOf bigEndian rest = units := by
  match bytes with
  | [] => cases h
  | [_] => cases h
  | lead :: byte :: rest =>
      rw [unitsOf, List.cons.injEq] at h
      exact ⟨lead, byte, rest, rfl, h.1.symm, h.2⟩

/-- Without a code unit there is at most one byte. -/
theorem length_of_unitsOf_nil (h : unitsOf bigEndian bytes = []) : bytes.length ≤ 1 := by
  match bytes with
  | [] => exact Nat.zero_le 1
  | [_] => exact Nat.le_refl 1
  | lead :: byte :: rest => cases h

/-- What is no surrogate is no trailing one. -/
theorem isTrailing_of_not_surrogate (h : isSurrogate unit = false) : isTrailing unit = false := by
  by_contra htrailing
  rw [Bool.not_eq_false, isTrailing_eq_true_iff] at htrailing
  have := isSurrogate_eq_true_iff.mpr (show 0xD800 ≤ unit.toNat ∧ unit.toNat ≤ 0xDFFF by omega)
  rw [h] at this
  cases this

/-- Two bytes are decoded as the code unit that they are. -/
theorem utf16Decode_cons_cons (lead byte : UInt8) (rest : List UInt8) :
    utf16Decode bigEndian {} (lead :: byte :: rest) =
      (utf16First (codeUnit bigEndian lead byte)).1 ++
        utf16Decode bigEndian (utf16First (codeUnit bigEndian lead byte)).2 rest := rfl

/-- **Code units without unpaired surrogates** are decoded to their characters, and a dangling byte
to a replacement. -/
theorem utf16Decode_of_paired (h : decodeUtf16 (unitsOf bigEndian bytes) = chars.map .ok) :
    utf16Decode bigEndian {} bytes =
      chars ++ if bytes.length % 2 = 0 then [] else [replacement] := by
  have hdecodes := decodesUtf16 (unitsOf bigEndian bytes)
  rw [h] at hdecodes
  clear h
  generalize hunits : unitsOf bigEndian bytes = units at hdecodes
  generalize hdecoded : chars.map Except.ok = decoded at hdecodes
  induction hdecodes generalizing bytes chars with
  | nil =>
      rw [List.map_eq_nil_iff.mp hdecoded]
      match bytes, length_of_unitsOf_nil hunits with
      | [], _ => rfl
      | [_], _ => rfl
  | scalar hunit _ ih =>
      obtain ⟨lead, byte, rest, rfl, hbytes, hrest⟩ := exists_bytes_of_unitsOf hunits
      obtain ⟨c, chars, rfl, hc, htail⟩ := List.map_eq_cons_iff.mp hdecoded
      injection hc with hc
      rw [utf16Decode_cons_cons, ← hbytes, utf16First, hunit, isTrailing_of_not_surrogate hunit]
      simp only [Bool.false_and, Bool.false_eq_true, if_false, List.cons_append, List.nil_append]
      rw [ih hrest htail, hc, List.length_cons, List.length_cons, Nat.add_assoc,
        Nat.add_mod_right]
  | @pair leading trailing _ _ hleading hlt htrailing _ ih =>
      obtain ⟨lead, byte, rest, rfl, hbytes, hrest⟩ := exists_bytes_of_unitsOf hunits
      obtain ⟨lead', byte', rest, rfl, hbytes', hrest⟩ := exists_bytes_of_unitsOf hrest
      obtain ⟨c, chars, rfl, hc, htail⟩ := List.map_eq_cons_iff.mp hdecoded
      injection hc with hc
      have hnot : isTrailing leading = false := by
        by_contra h
        rw [Bool.not_eq_false, isTrailing_eq_true_iff] at h
        omega
      have hpair : utf16Decode bigEndian { leadSurrogate := some leading }
          (lead' :: byte' :: rest) =
          ofSurrogates leading trailing :: utf16Decode bigEndian {} rest := by
        simp only [utf16Decode, utf16Handler, ← hbytes', htrailing, if_true]
        rfl
      rw [utf16Decode_cons_cons, ← hbytes, utf16First, hleading, hnot]
      simp only [Bool.not_false, Bool.and_self, if_true, List.nil_append]
      rw [hpair, ih hrest htail, hc, List.cons_append]
      simp only [List.length_cons, Nat.add_assoc, Nat.reduceAdd]
      rw [Nat.add_mod, show (4 : ℕ) % 2 = 0 from rfl, Nat.add_zero, Nat.mod_mod]
  | unpaired =>
      obtain ⟨_, _, _, hc, _⟩ := List.map_eq_cons_iff.mp hdecoded
      cases hc

/-- Encoded characters are decoded to themselves. -/
theorem decodesUtf16_encodeUtf16Char (c : Char) {units : List UInt16}
    {decoded : List (Except UInt16 Char)} (h : DecodesUtf16 units decoded) :
    DecodesUtf16 (encodeUtf16Char c ++ units) (.ok c :: decoded) := by
  have hvalid := toNat_ranges c
  rw [encodeUtf16Char]
  split
  · next hlt =>
      have hunit : (UInt16.ofNat c.toNat).toNat = c.toNat := by
        rw [UInt16.toNat_ofNat', Nat.mod_eq_of_lt hlt]
      have hsurrogate : isSurrogate (UInt16.ofNat c.toNat) = false := by
        by_contra h
        rw [Bool.not_eq_false, isSurrogate_eq_true_iff, hunit] at h
        omega
      have := DecodesUtf16.scalar hsurrogate h
      rwa [hunit, Char.ofNat_toNat] at this
  · next hge =>
      obtain ⟨leading, hleading⟩ : ∃ unit, unit = UInt16.ofNat (0xD800 + (c.toNat - 0x10000) / 0x400) :=
        ⟨_, rfl⟩
      obtain ⟨trailing, htrailing⟩ :
          ∃ unit, unit = UInt16.ofNat (0xDC00 + (c.toNat - 0x10000) % 0x400) := ⟨_, rfl⟩
      have hhigh : leading.toNat = 0xD800 + (c.toNat - 0x10000) / 0x400 := by
        rw [hleading, UInt16.toNat_ofNat', Nat.mod_eq_of_lt (by omega)]
      have hlow : trailing.toNat = 0xDC00 + (c.toNat - 0x10000) % 0x400 := by
        rw [htrailing, UInt16.toNat_ofNat', Nat.mod_eq_of_lt (by omega)]
      have hc : ofSurrogates leading trailing = c := by
        have hnat : (leading.toNat - 0xD800) * 0x400 + (trailing.toNat - 0xDC00) + 0x10000 =
            c.toNat := by
          rw [hhigh, hlow]
          omega
        rw [ofSurrogates, hnat, Char.ofNat_toNat]
      have hpair : DecodesUtf16 (leading :: trailing :: units)
          (.ok (ofSurrogates leading trailing) :: decoded) :=
        .pair (isSurrogate_eq_true_iff.mpr (by omega)) (by omega)
          (isTrailing_eq_true_iff.mpr (by omega)) h
      rw [hc] at hpair
      rw [← hleading, ← htrailing]
      exact hpair

/-- Encoded characters are decoded to themselves. -/
theorem decodeUtf16_flatMap (chars : List Char) :
    decodeUtf16 (chars.flatMap encodeUtf16Char) = chars.map .ok := by
  refine DecodesUtf16.eq ?_
  induction chars with
  | nil => exact .nil
  | cons c chars ih => exact decodesUtf16_encodeUtf16Char c ih

/-- A code unit at the end that is no surrogate. -/
theorem decodeUtf16_concat (units : List UInt16) (h : isSurrogate unit = false) :
    decodeUtf16 (units ++ [unit]) = decodeUtf16 units ++ [.ok (Char.ofNat unit.toNat)] := by
  refine DecodesUtf16.eq ?_
  have hdecodes := decodesUtf16 units
  generalize decodeUtf16 units = decoded at hdecodes
  induction hdecodes with
  | nil => exact .scalar h .nil
  | scalar hunit _ ih => exact .scalar hunit ih
  | pair hleading hlt htrailing _ ih => exact .pair hleading hlt htrailing ih
  | @unpaired lone units _ hunit hnext _ ih =>
      refine .unpaired hunit (fun hlt next hmem => ?_) ih
      cases units with
      | nil =>
          cases hmem
          exact isTrailing_of_not_surrogate h
      | cons next' units => exact hnext hlt next hmem

end CodeUnits

end BoaLigero.Text
