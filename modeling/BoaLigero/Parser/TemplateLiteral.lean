import BoaLigero.Parser.StringEscape

/-!
# Template Literals

The lexer of template literals (`lexer/template.rs`), and the raw and cooked strings of a chunk.

## Main results

* `asRaw_eq` — the raw string is the chunk with its carriage returns replaced.
* `cookEscape_iff` — the escapes of the cooked string are those that strings share with templates,
  with a plus sign in front of their digits or not.
-/

namespace BoaLigero.Lexer

open Digits

/-- The loop of `as_raw`. -/
def asRawLoop (buf : List UInt16) : List UInt16 → List UInt16
  | [] => buf
  | ch :: iter =>
      if ch = 0x5C then
        match iter with
        | [] => pushCodePoint buf 0x5C
        | ch :: iter =>
            let buf := pushCodePoint buf 0x5C
            if ch = 0x0D then asRawLoop (pushCodePoint buf 0x0A) iter
            else asRawLoop (pushCodePoint buf ch.toNat) iter
      else if ch = 0x0D then asRawLoop (pushCodePoint buf 0x0A) iter
      else asRawLoop (pushCodePoint buf ch.toNat) iter

/-- `as_raw`. -/
def asRaw (raw : List UInt16) : List UInt16 := asRawLoop [] raw

/-- Reads a fixed number of code units as characters. -/
def takeUnits : ℕ → List UInt16 → Option (List Char × List UInt16)
  | 0, iter => some ([], iter)
  | _ + 1, [] => none
  | count + 1, next :: iter =>
      (charFromU32 next.toNat).bind fun c =>
        (takeUnits count iter).map fun (s, iter) => (c :: s, iter)

/-- Reads a fixed number of code units as a hexadecimal number of 16 bits. -/
def cookFixedHex (count : ℕ) (iter : List UInt16) : Option (ℕ × List UInt16) :=
  (takeUnits count iter).bind fun (s, iter) => (fromStrRadix 16 16 s).map (·, iter)

/-- Reads code units as characters up to a closing brace. -/
def takeBraced (buffer : List Char) : List UInt16 → Option (List Char × List UInt16)
  | [] => none
  | next :: iter =>
      if next = 0x7D then some (buffer, iter)
      else (charFromU32 next.toNat).bind fun c => takeBraced (buffer ++ [c]) iter

/-- The code point of a unicode escape. -/
def cookUnicode : List UInt16 → Option (ℕ × List UInt16)
  | [] => none
  | next :: iter =>
      if next = 0x7B then
        (takeBraced [] iter).bind fun (buffer, iter) =>
          (fromStrRadix 32 16 buffer).bind fun cp =>
            if cp > 0x10FFFF then none else some (cp, iter)
      else cookFixedHex 4 (next :: iter)

/-- What stands behind a backslash: the code point of an escape, nothing for a line continuation,
and no result where it cannot be cooked. -/
def cookEscape : List UInt16 → Option (Option ℕ × List UInt16)
  | [] => none
  | ch :: iter =>
      match singleEscape ch.toNat with
      | some value => some (some value, iter)
      | none =>
          if ch = 0x30 ∧ iter.head?.all (fun ch => !decide (0x30 ≤ ch ∧ ch ≤ 0x39)) then
            some (some 0x00, iter)
          else if ch = 0x78 then (cookFixedHex 2 iter).map fun (value, iter) => (some value, iter)
          else if ch = 0x75 then (cookUnicode iter).map fun (value, iter) => (some value, iter)
          else if ch = 0x38 ∨ ch = 0x39 then none
          else if 0x30 ≤ ch ∧ ch ≤ 0x37 then none
          else if isLineTerminator ch.toNat then some (none, iter)
          else some (some ch.toNat, iter)

/-! ### The raw string -/

/-- A line terminator of the raw string. -/
def normalizeUnit (unit : UInt16) : UInt16 := if unit = 0x0D then 0x0A else unit

/-- Pushing a code unit as a code point appends it. -/
theorem pushCodePoint_toNat (buf : List UInt16) (unit : UInt16) :
    pushCodePoint buf unit.toNat = buf ++ [unit] := by
  rw [pushCodePoint, if_pos unit.toNat_lt, UInt16.ofNat_toNat]

/-- Line terminators are normalised while code units are pushed. -/
theorem pushCodePoint_normalize (buf : List UInt16) (unit : UInt16) :
    (if unit = 0x0D then pushCodePoint buf 0x0A else pushCodePoint buf unit.toNat) =
      buf ++ [normalizeUnit unit] := by
  rw [normalizeUnit, pushCodePoint_toNat]
  split <;> rfl

/-- A code unit other than a backslash is normalised and copied. -/
theorem asRawLoop_cons {ch : UInt16} (h : ch ≠ 0x5C) (buf iter : List UInt16) :
    asRawLoop buf (ch :: iter) = asRawLoop (buf ++ [normalizeUnit ch]) iter := by
  rw [asRawLoop.eq_def, ← pushCodePoint_normalize]
  simp only [if_neg h]
  split <;> rfl

/-- A backslash is copied with the code unit behind it, which is normalised. -/
theorem asRawLoop_backslash (ch : UInt16) (buf iter : List UInt16) :
    asRawLoop buf (0x5C :: ch :: iter) = asRawLoop (buf ++ [0x5C] ++ [normalizeUnit ch]) iter := by
  rw [asRawLoop.eq_def, ← pushCodePoint_normalize]
  simp only [if_true]
  split <;> rfl

/-- The raw value is what is written, with the line terminators normalised. -/
theorem asRawLoop_eq (raw buf : List UInt16) :
    asRawLoop buf raw = buf ++ raw.map normalizeUnit := by
  match raw with
  | [] => rw [asRawLoop, List.map_nil, List.append_nil]
  | ch :: iter =>
      by_cases h : ch = 0x5C
      · subst h
        match iter with
        | [] => rfl
        | ch :: iter =>
            rw [asRawLoop_backslash, asRawLoop_eq iter, List.map_cons, List.map_cons,
              List.append_assoc, List.append_assoc]
            rfl
      · rw [asRawLoop_cons h, asRawLoop_eq iter, List.map_cons, List.append_assoc]
        rfl
termination_by raw.length

/-- **The raw string** is the chunk with its carriage returns replaced. -/
theorem asRaw_eq (raw : List UInt16) : asRaw raw = raw.map normalizeUnit := asRawLoop_eq raw []

/-! ### Escapes -/

variable {units units' iter : List UInt16} {signed : Bool} {v count : ℕ} {chars : List Char}

/-- The code units of a text as numbers. -/
def numbers (units : List UInt16) : List ℕ := units.map UInt16.toNat

/-- Code units are told apart by their numbers. -/
theorem numbers_injective {units units' : List UInt16} (h : numbers units = numbers units') :
    units = units' :=
  List.map_injective_iff.mpr (fun _ _ => UInt16.toNat_inj.mp) h

/-- What is taken are as many code units as were asked for, if all of them are characters. -/
theorem takeUnits_eq_some_iff :
    takeUnits count units = some (chars, iter) ↔
      ∃ s, units = s ++ iter ∧ s.length = count ∧ (numbers s).mapM charFromU32 = some chars := by
  simp only [mapM_eq_some_iff]
  induction count generalizing units chars with
  | zero =>
      rw [takeUnits, Option.some.injEq, Prod.mk.injEq]
      constructor
      · rintro ⟨rfl, rfl⟩
        exact ⟨[], rfl, rfl, .nil⟩
      · rintro ⟨s, rfl, hlen, hs⟩
        obtain rfl := List.length_eq_zero_iff.mp hlen
        cases hs
        exact ⟨rfl, rfl⟩
  | succ count ih =>
      cases units with
      | nil =>
          refine iff_of_false (by simp [takeUnits]) ?_
          rintro ⟨s, hs, hlen, -⟩
          rw [List.nil_eq_append_iff] at hs
          rw [hs.1] at hlen
          cases hlen
      | cons u units =>
          simp only [takeUnits, Option.bind_eq_some_iff, Option.map_eq_some_iff, Prod.mk.injEq,
            Prod.exists]
          constructor
          · rintro ⟨c, hc, s', iter', htake, rfl, rfl⟩
            obtain ⟨s, rfl, rfl, hs⟩ := ih.mp htake
            exact ⟨u :: s, rfl, rfl, .cons hc hs⟩
          · rintro ⟨s, heq, hlen, hs⟩
            cases s with
            | nil => cases hlen
            | cons u' s =>
                obtain ⟨rfl, rfl⟩ := List.cons.inj heq
                cases hs with
                | cons hc htail =>
                    exact ⟨_, hc, _, _, ih.mpr ⟨s, rfl, Nat.succ.inj hlen, htail⟩, rfl, rfl⟩

/-- What is taken from braces are the characters up to the closing one. -/
theorem takeBraced_eq_some_iff {buffer : List Char} :
    takeBraced buffer units = some (chars, iter) ↔
      ∃ s t, chars = buffer ++ t ∧ units = s ++ 0x7D :: iter ∧ 0x7D ∉ s ∧
        (numbers s).mapM charFromU32 = some t := by
  simp only [mapM_eq_some_iff]
  induction units generalizing buffer with
  | nil =>
      refine iff_of_false (by simp [takeBraced]) ?_
      rintro ⟨s, t, -, hs, -⟩
      simp at hs
  | cons u units ih =>
      rw [takeBraced]
      split
      · next hu =>
          subst hu
          rw [Option.some.injEq, Prod.mk.injEq]
          constructor
          · rintro ⟨rfl, rfl⟩
            exact ⟨[], [], (List.append_nil _).symm, rfl, List.not_mem_nil, .nil⟩
          · rintro ⟨s, t, rfl, heq, hnot, hs⟩
            cases s with
            | nil =>
                cases hs
                exact ⟨(List.append_nil _).symm, (List.cons.inj heq).2⟩
            | cons u' s =>
                obtain ⟨rfl, -⟩ := List.cons.inj heq
                exact absurd List.mem_cons_self hnot
      · next hu =>
          rw [Option.bind_eq_some_iff]
          constructor
          · rintro ⟨c, hc, htake⟩
            obtain ⟨s, t, rfl, rfl, hnot, hs⟩ := ih.mp htake
            refine ⟨u :: s, c :: t, List.append_assoc _ _ _, rfl, ?_, .cons hc hs⟩
            rw [List.mem_cons, not_or]
            exact ⟨Ne.symm hu, hnot⟩
          · rintro ⟨s, t, rfl, heq, hnot, hs⟩
            cases s with
            | nil => exact absurd (List.cons.inj heq).1 hu
            | cons u' s =>
                obtain ⟨rfl, rfl⟩ := List.cons.inj heq
                rw [List.mem_cons, not_or] at hnot
                cases hs with
                | @cons _ c _ t hc htail =>
                    exact ⟨c, hc, ih.mpr ⟨s, t, by simp, rfl, hnot.2, htail⟩⟩

variable {s rest : List ℕ}

/-- Where the numbers split, the code units do. -/
theorem numbers_eq_append (h : numbers units = s ++ rest) :
    ∃ t iter, units = t ++ iter ∧ numbers t = s ∧ numbers iter = rest :=
  List.map_eq_append_iff.mp h

/-- The first number is that of the first code unit. -/
theorem numbers_eq_cons {c : ℕ} (h : numbers units = c :: rest) :
    ∃ u iter, units = u :: iter ∧ u.toNat = c ∧ numbers iter = rest :=
  List.map_eq_cons_iff.mp h

/-- The numbers of code units one after the other are theirs, one after the other. -/
theorem numbers_append (t iter : List UInt16) : numbers (t ++ iter) = numbers t ++ numbers iter :=
  List.map_append

/-- What comes next can be told from the first code unit. -/
theorem nextNot_numbers_iff {p : ℕ → Prop} :
    NextNot p (numbers units) ↔ ∀ u ∈ units.head?, ¬ p u.toNat := by
  cases units <;> simp [NextNot, numbers]

/-- A fixed number of hexadecimal digits is cooked exactly if they are a numeral of that many, with
a sign or without. -/
theorem cookFixedHex_eq_some_iff (hcount : count ≤ 4) :
    cookFixedHex count units = some (v, iter) ↔
      ∃ signed t, units = t ++ iter ∧ t.length = count ∧ IsHexNumeral signed (numbers t) v := by
  simp only [cookFixedHex, Option.bind_eq_some_iff, Option.map_eq_some_iff, Prod.exists,
    takeUnits_eq_some_iff, Prod.mk.injEq]
  constructor
  · rintro ⟨chars, iter', ⟨t, rfl, hlen, ht⟩, v', hread, rfl, rfl⟩
    obtain ⟨⟨signed, hnumeral⟩, -⟩ :=
      fromStrRadix_mapM_iff.mp (Option.bind_eq_some_iff.mpr ⟨chars, ht, hread⟩)
    exact ⟨signed, t, rfl, hlen, hnumeral⟩
  · rintro ⟨signed, t, rfl, rfl, hnumeral⟩
    have hlt : v < 2 ^ 16 := by
      have h16 := hnumeral.lt
      rw [numbers, List.length_map] at h16
      exact h16.trans_le (Nat.pow_le_pow_right (n := 16) (by omega) hcount)
    obtain ⟨chars, ht, hread⟩ :=
      Option.bind_eq_some_iff.mp (fromStrRadix_mapM_iff.mpr ⟨⟨signed, hnumeral⟩, hlt⟩)
    exact ⟨chars, iter, ⟨t, rfl, rfl, ht⟩, v, hread, rfl, rfl⟩

/-- What is cooked behind `u` are the escape sequences of the grammar. -/
theorem cookUnicode_eq_some_iff :
    cookUnicode units = some (v, iter) ↔
      ∃ signed, IsSharedEscape signed (0x75 :: numbers units) (numbers iter) v := by
  constructor
  · intro h
    cases units with
    | nil => cases h
    | cons next units =>
        rw [cookUnicode] at h
        split at h
        · next hbrace =>
            subst hbrace
            simp only [Option.bind_eq_some_iff, Prod.exists] at h
            obtain ⟨buffer, iter', htake, cp, hread, hcp⟩ := h
            split at hcp
            · cases hcp
            · next hle =>
                cases hcp
                obtain ⟨t, chars, hchars, rfl, hnot, ht⟩ := takeBraced_eq_some_iff.mp htake
                rw [List.nil_append] at hchars
                subst hchars
                obtain ⟨⟨signed, hnumeral⟩, -⟩ :=
                  fromStrRadix_mapM_iff.mp (Option.bind_eq_some_iff.mpr ⟨_, ht, hread⟩)
                refine ⟨signed, ?_⟩
                have hcodePoint := @IsSharedEscape.codePoint _ _ _ (numbers iter) hnumeral
                  (Nat.le_of_not_lt hle)
                simpa [numbers] using hcodePoint
        · next hbrace =>
            obtain ⟨signed, t, heq, hlen, hnumeral⟩ :=
              (cookFixedHex_eq_some_iff (by decide)).mp h
            refine ⟨signed, ?_⟩
            rw [heq, numbers_append]
            exact .hex4 hnumeral (by rw [numbers, List.length_map, hlen])
  · rintro ⟨signed, h⟩
    generalize htext : 0x75 :: numbers units = text at h
    generalize hrest : numbers iter = rest at h
    cases h with
    | single hc =>
        cases htext
        exact absurd (.inr (.inr rfl)) (singleEscape_not_first hc)
    | nonEscape hc =>
        cases htext
        exact absurd rfl hc.2.2.2.1
    | nul _ => cases htext
    | hex _ _ => cases htext
    | hex4 hnumeral hlen =>
        obtain ⟨t, iter', rfl, rfl, hiter⟩ := numbers_eq_append (List.cons.inj htext).2
        obtain rfl := numbers_injective (hiter.trans hrest.symm)
        rw [numbers, List.length_map] at hlen
        cases t with
        | nil => cases hlen
        | cons next t =>
            have hne : next ≠ 0x7B := by
              rintro rfl
              exact @IsHexNumeral.append_ne _ _ _ [] hnumeral _ rfl
            rw [List.cons_append, cookUnicode, if_neg hne]
            exact (cookFixedHex_eq_some_iff (by decide)).mpr ⟨_, _, rfl, hlen, hnumeral⟩
    | codePoint hnumeral hle =>
        obtain ⟨next, units', rfl, hnext, hunits⟩ := numbers_eq_cons (List.cons.inj htext).2
        obtain ⟨t, units'', rfl, rfl, hclose⟩ := numbers_eq_append hunits
        obtain ⟨close, iter', rfl, hbrace, hiter⟩ := numbers_eq_cons hclose
        obtain rfl := numbers_injective (hiter.trans hrest.symm)
        obtain rfl : next = 0x7B := UInt16.toNat_inj.mp hnext
        obtain rfl : close = 0x7D := UInt16.toNat_inj.mp hbrace
        have hlt : v < 2 ^ 32 := hle.trans_lt (by decide)
        obtain ⟨chars, ht, hread⟩ :=
          Option.bind_eq_some_iff.mp (fromStrRadix_mapM_iff.mpr ⟨⟨_, hnumeral⟩, hlt⟩)
        have hnot : 0x7D ∉ t := fun hmem =>
          hnumeral.not_mem.2 (List.mem_map.mpr ⟨_, hmem, rfl⟩)
        have htake : takeBraced [] (t ++ 0x7D :: iter') = some (chars, iter') :=
          takeBraced_eq_some_iff.mpr ⟨t, chars, rfl, rfl, hnot, ht⟩
        rw [cookUnicode, if_pos rfl, htake, Option.bind_some]
        simp only [hread, Option.bind_some]
        rw [if_neg (Nat.not_lt_of_le hle)]

/-- What is cooked of the character behind a backslash. -/
private theorem cookEscape_sound {u : UInt16} {value : Option ℕ}
    (h : cookEscape (u :: units) = some (value, iter)) :
    (∃ signed v, value = some v ∧
      IsSharedEscape signed (u.toNat :: numbers units) (numbers iter) v) ∨
      value = none ∧ units = iter ∧ IsLineTerminator u.toNat := by
  rw [cookEscape] at h
  split at h
  · next v hsingle =>
      cases h
      exact .inl ⟨false, v, rfl, .single (singleEscape_eq_some_iff.mp hsingle)⟩
  · next hsingle =>
      split_ifs at h with hzero hx hu hnine hoctal hline
      · cases h
        obtain ⟨rfl, hnext⟩ := hzero
        refine .inl ⟨false, 0, rfl, .nul (nextNot_numbers_iff.mpr fun d hd hdigit => ?_)⟩
        rw [Option.mem_def.mp hd, Option.all_some, Bool.not_eq_true', decide_eq_false_iff_not,
          UInt16.le_iff_toNat_le, UInt16.le_iff_toNat_le] at hnext
        exact hnext hdigit
      · subst hx
        simp only [Option.map_eq_some_iff, Prod.mk.injEq, Prod.exists] at h
        obtain ⟨v, iter', hread, rfl, rfl⟩ := h
        obtain ⟨signed, t, rfl, hlen, hnumeral⟩ := (cookFixedHex_eq_some_iff (by decide)).mp hread
        refine .inl ⟨signed, v, rfl, ?_⟩
        rw [numbers_append]
        exact .hex hnumeral (by rw [numbers, List.length_map, hlen])
      · subst hu
        simp only [Option.map_eq_some_iff, Prod.mk.injEq, Prod.exists] at h
        obtain ⟨v, iter', hread, rfl, rfl⟩ := h
        obtain ⟨signed, hescape⟩ := cookUnicode_eq_some_iff.mp hread
        exact .inl ⟨signed, v, rfl, hescape⟩
      · cases h
        exact .inr ⟨rfl, rfl, isLineTerminator_iff.mp hline⟩
      · cases h
        refine .inl ⟨false, _, rfl, .nonEscape ⟨fun v hv => ?_, ?_, ?_, ?_, ?_⟩⟩
        · rw [singleEscape_eq_some_iff.mpr hv] at hsingle
          cases hsingle
        · rw [← UInt16.toNat_inj, ← UInt16.toNat_inj] at hnine
          rw [UInt16.le_iff_toNat_le, UInt16.le_iff_toNat_le] at hoctal
          simp only [UInt16.reduceToNat] at hnine hoctal
          rw [IsDecimalDigit]
          omega
        · exact fun heq => hx (UInt16.toNat_inj.mp heq)
        · exact fun heq => hu (UInt16.toNat_inj.mp heq)
        · exact fun hterminator => hline (isLineTerminator_iff.mpr hterminator)

/-- Shared escape sequences of the grammar are cooked to their value. -/
theorem cookEscape_of_shared
    (h : IsSharedEscape signed (numbers units) (numbers iter) v) :
    cookEscape units = some (some v, iter) := by
  generalize htext : numbers units = text at h
  generalize hrest : numbers iter = rest at h
  cases h with
  | single hc =>
      obtain ⟨u, iter', rfl, rfl, hiter⟩ := numbers_eq_cons htext
      obtain rfl := numbers_injective (hiter.trans hrest.symm)
      simp only [cookEscape, singleEscape_eq_some_iff.mpr hc]
  | nonEscape hc =>
      obtain ⟨u, iter', rfl, rfl, hiter⟩ := numbers_eq_cons htext
      obtain rfl := numbers_injective (hiter.trans hrest.symm)
      obtain ⟨hsingle, hdigit, hx, hu, hline⟩ := hc
      have hnone : singleEscape u.toNat = none :=
        Option.eq_none_iff_forall_ne_some.mpr fun w hw =>
          hsingle w (singleEscape_eq_some_iff.mp hw)
      rw [IsDecimalDigit] at hdigit
      have hne {d : UInt16} (hd : IsDecimalDigit d.toNat) : u ≠ d := by
        rintro rfl
        exact hdigit hd
      have hoctal : ¬ (0x30 ≤ u ∧ u ≤ 0x37) := by
        rw [UInt16.le_iff_toNat_le, UInt16.le_iff_toNat_le]
        simp only [UInt16.reduceToNat]
        omega
      have hx' : u ≠ 0x78 := by
        rintro rfl
        exact hx rfl
      have hu' : u ≠ 0x75 := by
        rintro rfl
        exact hu rfl
      have hterminator : isLineTerminator u.toNat = false := by
        rw [← Bool.not_eq_true, isLineTerminator_iff]
        exact hline
      simp only [cookEscape, hnone, hne (d := 0x30) (by decide), hne (d := 0x38) (by decide),
        hne (d := 0x39) (by decide), false_and, or_self, if_false, hx', hu', hoctal, hterminator,
        Bool.false_eq_true]
  | nul hnext =>
      obtain ⟨u, iter', rfl, hzero, hiter⟩ := numbers_eq_cons htext
      obtain rfl := numbers_injective (hiter.trans hrest.symm)
      obtain rfl : u = 0x30 := UInt16.toNat_inj.mp hzero
      rw [← hrest, nextNot_numbers_iff] at hnext
      have hall : iter'.head?.all (fun ch => !decide (0x30 ≤ ch ∧ ch ≤ 0x39)) = true := by
        rw [Option.all_eq_true]
        intro d hd
        rw [Bool.not_eq_true', decide_eq_false_iff_not, UInt16.le_iff_toNat_le,
          UInt16.le_iff_toNat_le]
        exact hnext d hd
      simp only [cookEscape, hzero, singleEscape, hall, and_self, if_true]
  | hex hnumeral hlen =>
      obtain ⟨u, units', rfl, hu, hunits⟩ := numbers_eq_cons htext
      obtain ⟨t, iter', rfl, rfl, hiter⟩ := numbers_eq_append hunits
      obtain rfl := numbers_injective (hiter.trans hrest.symm)
      obtain rfl : u = 0x78 := UInt16.toNat_inj.mp hu
      rw [numbers, List.length_map] at hlen
      have hread : cookFixedHex 2 (t ++ iter') = some (v, iter') :=
        (cookFixedHex_eq_some_iff (by decide)).mpr ⟨_, _, rfl, hlen, hnumeral⟩
      have hzero : ¬ (0x78 : UInt16) = 0x30 := by decide
      simp only [cookEscape, hu, singleEscape, hzero, false_and, if_false, if_true, hread,
        Option.map_some]
  | hex4 hnumeral hlen =>
      obtain ⟨u, units', rfl, hu, hunits⟩ := numbers_eq_cons htext
      obtain rfl : u = 0x75 := UInt16.toNat_inj.mp hu
      have hread : cookUnicode units' = some (v, iter) :=
        cookUnicode_eq_some_iff.mpr ⟨signed, by rw [hunits, hrest]; exact .hex4 hnumeral hlen⟩
      have hzero : ¬ (0x75 : UInt16) = 0x30 := by decide
      have hx : ¬ (0x75 : UInt16) = 0x78 := by decide
      simp only [cookEscape, hu, singleEscape, hzero, false_and, hx, if_false, if_true, hread,
        Option.map_some]
  | codePoint hnumeral hle =>
      obtain ⟨u, units', rfl, hu, hunits⟩ := numbers_eq_cons htext
      obtain rfl : u = 0x75 := UInt16.toNat_inj.mp hu
      have hread : cookUnicode units' = some (v, iter) :=
        cookUnicode_eq_some_iff.mpr ⟨signed, by rw [hunits, hrest]; exact .codePoint hnumeral hle⟩
      have hzero : ¬ (0x75 : UInt16) = 0x30 := by decide
      have hx : ¬ (0x75 : UInt16) = 0x78 := by decide
      simp only [cookEscape, hu, singleEscape, hzero, false_and, hx, if_false, if_true, hread,
        Option.map_some]

/-- **The escapes that are cooked.** -/
theorem cookEscape_some_iff :
    cookEscape units = some (some v, iter) ↔
      ∃ signed, IsSharedEscape signed (numbers units) (numbers iter) v := by
  constructor
  · intro h
    cases units with
    | nil => cases h
    | cons u units =>
        obtain ⟨signed, v', hv, hescape⟩ | ⟨hnone, -⟩ := cookEscape_sound h
        · cases hv
          exact ⟨signed, hescape⟩
        · cases hnone
  · rintro ⟨signed, h⟩
    exact cookEscape_of_shared h

/-- Only line continuations are cooked to nothing. -/
theorem cookEscape_none_iff :
    cookEscape units = some (none, iter) ↔ ∃ u, units = u :: iter ∧ IsLineTerminator u.toNat := by
  constructor
  · intro h
    cases units with
    | nil => cases h
    | cons u units =>
        obtain ⟨_, v', hv, -⟩ | ⟨-, rfl, hline⟩ := cookEscape_sound h
        · cases hv
        · exact ⟨u, rfl, hline⟩
  · rintro ⟨u, rfl, hline⟩
    have hnone : singleEscape u.toNat = none := by
      rcases hline with h | h | h | h <;> rw [h] <;> rfl
    have hterminator := isLineTerminator_iff.mpr hline
    rw [IsLineTerminator] at hline
    have hne {d : UInt16} (hd : ¬ IsLineTerminator d.toNat) : u ≠ d := by
      rintro rfl
      exact hd hline
    have hoctal : ¬ (0x30 ≤ u ∧ u ≤ 0x37) := by
      rw [UInt16.le_iff_toNat_le, UInt16.le_iff_toNat_le]
      simp only [UInt16.reduceToNat]
      omega
    simp only [cookEscape, hnone, hne (d := 0x30) (by decide), hne (d := 0x78) (by decide),
      hne (d := 0x75) (by decide), hne (d := 0x38) (by decide), hne (d := 0x39) (by decide),
      false_and, or_self, if_false, hoctal, hterminator, if_true]

/-- Cooking an escape sequence makes the input shorter. -/
theorem length_cookEscape_lt {value : Option ℕ} (h : cookEscape units = some (value, iter)) :
    iter.length < units.length := by
  cases value with
  | none =>
      obtain ⟨u, rfl, -⟩ := cookEscape_none_iff.mp h
      exact Nat.lt_succ_self _
  | some v =>
      obtain ⟨signed, hescape⟩ := cookEscape_some_iff.mp h
      have hlt := hescape.length_lt
      rwa [numbers, numbers, List.length_map, List.length_map] at hlt

/-- The loop of `as_cooked`. -/
def asCookedLoop (buf iter : List UInt16) : Option (List UInt16) :=
  match iter with
  | [] => some buf
  | ch :: iter =>
      if ch = 0x5C then
        match _h : cookEscape iter with
        | none => none
        | some (none, iter') => asCookedLoop buf iter'
        | some (some escapeValue, iter') => asCookedLoop (pushCodePoint buf escapeValue) iter'
      else if ch = 0x0D then asCookedLoop (pushCodePoint buf 0x0A) iter
      else asCookedLoop (pushCodePoint buf ch.toNat) iter
termination_by iter.length
decreasing_by
  · exact Nat.lt_succ_of_lt (length_cookEscape_lt _h)
  · exact Nat.lt_succ_of_lt (length_cookEscape_lt _h)
  all_goals exact Nat.lt_succ_self _

/-- `as_cooked`. -/
def asCooked (raw : List UInt16) : Option (List UInt16) := asCookedLoop [] raw

/-! ### Templates -/

/-- `TemplateString`. -/
structure TemplateString where
  raw : List UInt16
  cooked : Option (List UInt16)
  deriving DecidableEq

/-- `TemplateString::new`. -/
def TemplateString.new (raw : List UInt16) : TemplateString where
  raw := asRaw raw
  cooked := asCooked raw

/-- The tokens of templates: `TokenKind::TemplateNoSubstitution` and `TokenKind::TemplateMiddle`. -/
inductive TemplateKind where
  | noSubstitution
  | middle
  deriving DecidableEq

/-- The loop of `TemplateLiteral::lex`. -/
def lexTemplateLoop (buf : List UInt16) (cursor : Cursor) :
    Except Error ((TemplateKind × TemplateString) × Cursor) :=
  match _hnext : cursor.nextChar with
  | (none, _) => .error (.unexpectedEof "unterminated template literal")
  | (some ch, cursor') =>
      if ch = 0x0060 then .ok ((.noSubstitution, .new buf), cursor')
      else if ch = 0x0024 ∧ (cursor'.nextIf 0x7B).1 = true then
        .ok ((.middle, .new buf), (cursor'.nextIf 0x7B).2)
      else if ch = 0x005C then
        match _hpeek : cursor'.peekChar with
        | none => .error (.unexpectedEof "unterminated escape sequence in literal")
        | some escapeCh =>
            let buf := buf ++ [0x5C]
            if escapeCh = 0x0060 ∨ escapeCh = 0x0024 ∨ escapeCh = 0x005C then
              lexTemplateLoop (buf ++ [UInt16.ofNat escapeCh]) cursor'.advance
            else lexTemplateLoop buf cursor'
      else lexTemplateLoop (pushCodePoint buf ch) cursor'
termination_by cursor.rest.length
decreasing_by
  · exact (Cursor.length_advance_lt _hpeek).trans (length_nextChar_lt _hnext)
  all_goals exact length_nextChar_lt _hnext

/-- `TemplateLiteral::lex`. -/
def lexTemplateLiteral (cursor : Cursor) : Except Error ((TemplateKind × TemplateString) × Cursor) :=
  lexTemplateLoop [] cursor

end BoaLigero.Lexer
