import BoaLigero.Interner.RawInterner
import BoaLigero.Runtime.Text.Standard

/-!
# The Interner

A string has one symbol in both encodings: the strings that are always there come first, and
behind them the strings that were interned, at the same index in an interner of UTF-8 bytes and
in one of UTF-16 code units. A string of code units that is not well-formed has the empty string
in the place of its bytes, which no search can find, since the empty string is always there.

What the interner is for is a list of distinct strings of code units that only grows at its end:
a symbol is an index of it plus one.

## Main results

* `Interner.Represents.getOrIntern` — interning is adding a string to the list unless it is there.
* `Interner.symbols_internAll` — after any strings were interned, in either encoding, every
  symbol that was returned leads back to its string, and two are equal exactly for equal strings.
-/

namespace BoaLigero

/-- The string symbol type. -/
@[ext]
structure Sym where
  value : ℕ
  ne_zero : value ≠ 0
deriving DecidableEq

/-- The symbol of an index. -/
def Sym.ofIndex (index : ℕ) : Sym := ⟨index + 1, Nat.succ_ne_zero index⟩

theorem Sym.ofIndex_inj {m n : ℕ} : Sym.ofIndex m = Sym.ofIndex n ↔ m = n := by
  simp [Sym.ofIndex]

/-- A string in one of the encodings that the interner can store. -/
inductive JStrRef
  | utf8 (s : String)
  | utf16 (units : List UInt16)

/-- The code units of a string. -/
def JStrRef.units : JStrRef → List UInt16
  | .utf8 s => encodeUtf16 s
  | .utf16 units => units

/-- `String::from_utf16`. -/
def fromUtf16 (units : List UInt16) : Option String :=
  ((decodeUtf16 units).mapM Except.toOption).map String.ofList

/-- An interned string in both encodings. -/
structure JSInternedStrRef where
  utf8 : Option String
  utf16 : List UInt16
deriving DecidableEq

/-- The strings that are always there. -/
def commonStrings : List String :=
  ["break", "case", "catch", "class", "const", "continue", "debugger", "default", "delete", "do",
    "else", "enum", "export", "extends", "false", "finally", "for", "function", "if", "import",
    "in", "instanceof", "new", "null", "return", "super", "switch", "this", "throw", "true",
    "try", "typeof", "var", "void", "while", "with",
    "implements", "interface", "let", "package", "private", "protected", "public", "static",
    "yield",
    "", "prototype", "constructor", "arguments", "eval", "RegExp", "get", "set", "<main>", "raw",
    "anonymous", "async", "of", "target", "as", "from", "__proto__", "name", "await", "*default*",
    "meta", "defer", "source", "using", "dispose", "asyncDispose"]

/-- The code units of the strings that are always there. -/
def commonStringsUtf16 : List (List UInt16) := commonStrings.map encodeUtf16

/-- Whether all code units are Latin1 characters. -/
def allLatin1 (units : List UInt16) : Bool := units.all fun c => c ≤ 0xFF

/-- The string interner. -/
structure Interner where
  utf8Interner : RawInterner UInt8
  utf16Interner : RawInterner UInt16
  latin1Flags : List Bool

/-- How much is allocated where a capacity is asked for. -/
structure Allocator where
  bytes : ℕ → ℕ
  units : ℕ → ℕ
  le_bytes : ∀ n, n ≤ bytes n
  le_units : ∀ n, n ≤ units n

namespace Interner

/-- An interner with a capacity. -/
def withCapacity (alloc : Allocator) (capacity : ℕ) : Interner :=
  ⟨.withCapacity (alloc.bytes capacity), .withCapacity (alloc.units capacity), []⟩

/-- The number of strings. -/
def len (self : Interner) : ℕ := commonStrings.length + self.utf16Interner.spans.length

/-- The symbol of a string that is always there. -/
def getCommon : JStrRef → Option Sym
  | .utf8 s => (commonStrings.idxOf? s).map .ofIndex
  | .utf16 units => (commonStringsUtf16.idxOf? units).map .ofIndex

/-- The symbol of an index behind the strings that are always there; no result is an
overflow. -/
def symbol (index : ℕ) : Option Sym :=
  if index + (1 + commonStrings.length) < 2 ^ 64 then
    some ⟨index + (1 + commonStrings.length), Nat.ne_of_gt (by omega)⟩
  else none

/-- The index of a string in the interner of its encoding. -/
def rawIndex (self : Interner) : JStrRef → Option ℕ
  | .utf8 s => self.utf8Interner.get (asBytes s)
  | .utf16 units => self.utf16Interner.get units

/-- The symbol of a string if it has one; no result is an overflow. -/
def get (self : Interner) (string : JStrRef) : Option (Option Sym) :=
  match getCommon string with
  | some sym => some (some sym)
  | none =>
      match self.rawIndex string with
      | none => some none
      | some index => (symbol index).map some

/-- Adds the bytes of a string. A string of code units that is not well-formed has none, and the
empty string stands for it. -/
def internUtf8 (alloc : Allocator) (self : Interner) :
    Option String → Option (ℕ × RawInterner UInt8)
  | some utf8 => self.utf8Interner.intern alloc.bytes (asBytes utf8)
  | none => some (self.utf8Interner.internStatic [])

/-- Adds a string to both interners; no result is a panic or a pointer left behind. -/
def internNew (alloc : Allocator) (self : Interner) (utf8 : Option String)
    (utf16 : List UInt16) : Option (Sym × Interner) := do
  let (index, utf8Interner) ← self.internUtf8 alloc utf8
  let (utf16Index, utf16Interner) ← self.utf16Interner.intern alloc.units utf16
  guard (index = utf16Index)
  let latin1Flags := self.latin1Flags ++ [allLatin1 utf16]
  return (← symbol index, ⟨utf8Interner, utf16Interner, latin1Flags⟩)

/-- A string in both encodings. -/
def encodings : JStrRef → Option String × List UInt16
  | .utf8 s => (some s, encodeUtf16 s)
  | .utf16 units => (fromUtf16 units, units)

/-- The symbol of a string, which is interned if it has none. -/
def getOrIntern (alloc : Allocator) (self : Interner) (string : JStrRef) :
    Option (Sym × Interner) := do
  match ← self.get string with
  | some sym => return (sym, self)
  | none => self.internNew alloc (encodings string).1 (encodings string).2

/-- The symbol of a static string, given in both encodings. -/
def getOrInternStatic (alloc : Allocator) (self : Interner) (utf8 : String)
    (utf16 : List UInt16) : Option (Sym × Interner) := do
  match ← self.get (.utf8 utf8) with
  | some sym => return (sym, self)
  | none => self.internNew alloc (some utf8) utf16

/-- The string of a symbol if any; no result is a panic or a pointer left behind. -/
def resolve (self : Interner) (sym : Sym) : Option (Option JSInternedStrRef) :=
  let index := sym.value - 1
  match commonStrings[index]? with
  | some utf8 => do
      let utf16 ← commonStringsUtf16[index]?
      return some ⟨some utf8, utf16⟩
  | none =>
      let index := index - commonStrings.length
      if index < self.utf16Interner.spans.length then do
        let utf16 ← self.utf16Interner.index index
        let utf8Len := self.utf8Interner.spans.length
        -- The difference of the lengths, and what it leaves of the index, must not overflow.
        guard (utf8Len ≤ self.utf16Interner.spans.length)
        guard (self.utf16Interner.spans.length - utf8Len ≤ index)
        let index := index - (self.utf16Interner.spans.length - utf8Len)
        let utf8 ← fromUtf8 (← self.utf8Interner.index index)
        return some ⟨if utf8.isEmpty then none else some utf8, utf16⟩
      else some none

/-- Whether the string of a symbol can be encoded as Latin1. -/
def isLatin1 (self : Interner) (sym : Sym) : Bool :=
  let index := sym.value - 1
  if index < commonStrings.length then true
  else (self.latin1Flags[index - commonStrings.length]?).getD false

/-! ### Encodings -/

theorem fromUtf16_eq_some_iff {units : List UInt16} {s : String} :
    fromUtf16 units = some s ↔ units = encodeUtf16 s := by
  have hmapM : ∀ (decoded : List (Except UInt16 Char)) (chars : List Char),
      decoded.mapM Except.toOption = some chars ↔ decoded = chars.map .ok := by
    intro decoded
    induction decoded with
    | nil =>
        rintro (_ | ⟨c, chars⟩)
        · exact iff_of_true rfl rfl
        · exact iff_of_false (by simp) (by simp)
    | cons result decoded ih =>
        intro chars
        cases result with
        | error unit =>
            refine iff_of_false (by simp [Except.toOption]) fun h => ?_
            cases chars <;> simp at h
        | ok c =>
            rw [List.mapM_cons, Option.bind_eq_bind, Except.toOption, Option.bind_some,
              Option.bind_eq_bind, Option.bind_eq_some_iff]
            constructor
            · rintro ⟨rest, hrest, heq⟩
              obtain rfl := Option.some.inj heq
              rw [(ih rest).mp hrest]
              rfl
            · intro h
              cases chars with
              | nil => cases h
              | cons c' chars =>
                  obtain ⟨hc, hrest⟩ := List.cons.inj h
                  cases hc
                  exact ⟨chars, (ih chars).mpr hrest, rfl⟩
  rw [fromUtf16, Option.map_eq_some_iff]
  constructor
  · rintro ⟨chars, hchars, rfl⟩
    have hdecoded := (hmapM _ chars).mp hchars
    rw [encodeUtf16, String.toList_ofList, flatMap_encodeUtf16Char_of_decodeUtf16 hdecoded]
  · rintro rfl
    exact ⟨s.toList, (hmapM _ _).mpr (Text.decodeUtf16_flatMap s.toList), String.ofList_toList⟩

theorem encodeUtf16_inj {s t : String} : encodeUtf16 s = encodeUtf16 t ↔ s = t := by
  refine ⟨fun h => ?_, congrArg _⟩
  have hs : fromUtf16 (encodeUtf16 s) = some s := fromUtf16_eq_some_iff.mpr rfl
  have ht : fromUtf16 (encodeUtf16 s) = some t := fromUtf16_eq_some_iff.mpr h
  exact Option.some.inj (hs.symm.trans ht)

theorem asBytes_inj {s t : String} : asBytes s = asBytes t ↔ s = t := by
  refine ⟨fun h => ?_, congrArg _⟩
  have hs : fromUtf8 (asBytes s) = some s := fromUtf8_eq_some_iff.mpr rfl
  have ht : fromUtf8 (asBytes s) = some t := fromUtf8_eq_some_iff.mpr h
  exact Option.some.inj (hs.symm.trans ht)

/-- What stands for a string in the interner of bytes. -/
def utf8Bytes (units : List UInt16) : List UInt8 := ((fromUtf16 units).map asBytes).getD []

theorem utf8Bytes_encodeUtf16 (s : String) : utf8Bytes (encodeUtf16 s) = asBytes s := by
  rw [utf8Bytes, fromUtf16_eq_some_iff.mpr rfl]
  rfl

theorem asBytes_eq_nil_iff {s : String} : asBytes s = [] ↔ s = "" :=
  asBytes_inj (t := "")

/-- **Bytes that are not empty** stand for one string of code units only. -/
theorem utf8Bytes_eq_asBytes_iff {units : List UInt16} {s : String} (hs : s ≠ "") :
    utf8Bytes units = asBytes s ↔ units = encodeUtf16 s := by
  refine ⟨fun h => ?_, fun h => h ▸ utf8Bytes_encodeUtf16 s⟩
  rcases hutf8 : fromUtf16 units with _ | t
  · rw [utf8Bytes, hutf8] at h
    exact absurd (asBytes_eq_nil_iff.mp h.symm) hs
  · obtain rfl := fromUtf16_eq_some_iff.mp hutf8
    rw [utf8Bytes_encodeUtf16, asBytes_inj] at h
    rw [h]

/-! ### The strings that are always there -/

theorem commonStrings_nodup : commonStrings.Nodup := by decide +kernel

theorem commonStringsUtf16_nodup : commonStringsUtf16.Nodup :=
  commonStrings_nodup.map fun _ _ => encodeUtf16_inj.mp

theorem empty_mem_commonStrings : "" ∈ commonStrings := by decide +kernel

theorem allLatin1_of_mem_commonStringsUtf16 {units : List UInt16}
    (h : units ∈ commonStringsUtf16) : allLatin1 units = true := by
  have hall : commonStringsUtf16.all allLatin1 = true := by decide +kernel
  exact List.all_eq_true.mp hall units h

theorem length_commonStringsUtf16 : commonStringsUtf16.length = commonStrings.length :=
  List.length_map _

/-- **Both encodings** of a string that is always there lead to its symbol. -/
theorem getCommon_eq (string : JStrRef) :
    getCommon string = (commonStringsUtf16.idxOf? string.units).map .ofIndex := by
  cases string with
  | utf16 units => rfl
  | utf8 s =>
      have hpred : ((· == encodeUtf16 s) ∘ encodeUtf16) = (· == s) := by
        funext t
        rw [Bool.eq_iff_iff]
        simp [encodeUtf16_inj]
      rw [getCommon, JStrRef.units, commonStringsUtf16, List.idxOf?, List.idxOf?,
        List.findIdx?_map, hpred]

theorem getCommon_eq_none_iff {string : JStrRef} :
    getCommon string = none ↔ string.units ∉ commonStringsUtf16 := by
  rw [getCommon_eq, Option.map_eq_none_iff, List.idxOf?_eq_none_iff]

/-! ### What an interner is for -/

/-- **An interner stands for a list of strings**: those that are always there and the interned
ones, none of them twice and all of them with a symbol. -/
structure Represents (interner : Interner) (interned : List (List UInt16)) : Prop where
  nodup : (commonStringsUtf16 ++ interned).Nodup
  units : interner.utf16Interner.Holds interned
  bytes : interner.utf8Interner.Holds (interned.map utf8Bytes)
  flags : interner.latin1Flags = interned.map allLatin1
  lt : commonStrings.length + interned.length < 2 ^ 64

variable {self : Interner} {interned : List (List UInt16)} {string : JStrRef}

theorem represents_withCapacity (alloc : Allocator) (capacity : ℕ) :
    (withCapacity alloc capacity).Represents [] where
  nodup := by
    rw [List.append_nil]
    exact commonStringsUtf16_nodup
  units := RawInterner.holds_withCapacity _
  bytes := RawInterner.holds_withCapacity _
  flags := rfl
  lt := by decide +kernel

theorem Represents.len_eq (h : self.Represents interned) :
    self.len = (commonStringsUtf16 ++ interned).length := by
  rw [len, h.units.length_eq, List.length_append, length_commonStringsUtf16]

/-- An index behind the strings that are always there has a symbol. -/
theorem symbol_eq {index : ℕ} (h : commonStrings.length + index + 1 < 2 ^ 64) :
    symbol index = some (.ofIndex (commonStringsUtf16.length + index)) := by
  rw [symbol, if_pos (by omega), length_commonStringsUtf16]
  exact congrArg some (Sym.ext (by simp only [Sym.ofIndex]; omega))

/-- In a list without repetitions an element stands at one index. -/
theorem idxOf?_eq_some_iff_of_nodup {α : Type} [BEq α] [LawfulBEq α] {l : List α}
    (hl : l.Nodup) {a : α} {n : ℕ} : l.idxOf? a = some n ↔ l[n]? = some a := by
  rw [List.idxOf?_eq_some_iff, List.getElem?_eq_some_iff]
  constructor
  · rintro ⟨hn, heq, -⟩
    exact ⟨hn, heq⟩
  · rintro ⟨hn, heq⟩
    refine ⟨hn, heq, fun m hm hget => Nat.ne_of_lt hm ?_⟩
    exact hl.getElem_inj_iff.mp (hget.trans heq.symm)

/-- The interner of an encoding leads to the index of a string that is not always there. -/
theorem Represents.rawIndex_eq (h : self.Represents interned)
    (hcommon : string.units ∉ commonStringsUtf16) :
    self.rawIndex string = interned.idxOf? string.units := by
  have hnodup : interned.Nodup := (List.nodup_append.mp h.nodup).2.1
  cases string with
  | utf16 units =>
      rw [rawIndex, JStrRef.units]
      rcases hraw : self.utf16Interner.get units with _ | n
      · exact (List.idxOf?_eq_none_iff.mpr (h.units.get_eq_none_iff.mp hraw)).symm
      · exact ((idxOf?_eq_some_iff_of_nodup hnodup).mpr (h.units.getElem?_of_get hraw)).symm
  | utf8 s =>
      have hs : s ≠ "" := by
        rintro rfl
        exact hcommon (List.mem_map_of_mem empty_mem_commonStrings)
      rw [rawIndex, JStrRef.units]
      rcases hraw : self.utf8Interner.get (asBytes s) with _ | n
      · have hnot := h.bytes.get_eq_none_iff.mp hraw
        refine (List.idxOf?_eq_none_iff.mpr fun hmem => hnot ?_).symm
        exact List.mem_map.mpr ⟨_, hmem, utf8Bytes_encodeUtf16 s⟩
      · have hn := h.bytes.getElem?_of_get hraw
        rw [List.getElem?_map, Option.map_eq_some_iff] at hn
        obtain ⟨units, hn, hunits⟩ := hn
        rw [(utf8Bytes_eq_asBytes_iff hs).mp hunits] at hn
        exact ((idxOf?_eq_some_iff_of_nodup hnodup).mpr hn).symm

/-- **A search** in either encoding finds the symbol of a string exactly if it is in the
list. -/
theorem Represents.get_eq (h : self.Represents interned) (string : JStrRef) :
    self.get string =
      some (((commonStringsUtf16 ++ interned).idxOf? string.units).map .ofIndex) := by
  have happend : (commonStringsUtf16 ++ interned).idxOf? string.units =
      (commonStringsUtf16.idxOf? string.units).or
        ((interned.idxOf? string.units).map fun n => n + commonStringsUtf16.length) :=
    List.findIdx?_append
  rw [Interner.get, happend]
  rcases hcommon : getCommon string with _ | sym
  · have hnot := getCommon_eq_none_iff.mp hcommon
    rw [List.idxOf?_eq_none_iff.mpr hnot, Option.none_or]
    simp only [h.rawIndex_eq hnot]
    rcases hindex : interned.idxOf? string.units with _ | n
    · rfl
    · obtain ⟨hn, -⟩ := List.idxOf?_eq_some_iff.mp hindex
      have hsymbol : symbol n = some (.ofIndex (commonStringsUtf16.length + n)) :=
        symbol_eq (by have := h.lt; omega)
      simp only [hsymbol]
      rw [Option.map_some, Option.map_some, Option.map_some, Nat.add_comm]
  · rw [getCommon_eq, Option.map_eq_some_iff] at hcommon
    obtain ⟨n, hn, rfl⟩ := hcommon
    rw [hn]
    rfl

/-- The list after a string was interned. -/
def intern (interned : List (List UInt16)) (units : List UInt16) : List (List UInt16) :=
  if (commonStringsUtf16 ++ interned).contains units then interned else interned ++ [units]

theorem intern_of_mem {interned : List (List UInt16)} {units : List UInt16}
    (h : units ∈ commonStringsUtf16 ++ interned) : intern interned units = interned :=
  if_pos (List.contains_iff_mem.mpr h)

theorem intern_of_not_mem {interned : List (List UInt16)} {units : List UInt16}
    (h : units ∉ commonStringsUtf16 ++ interned) : intern interned units = interned ++ [units] :=
  if_neg fun hmem => h (List.contains_iff_mem.mp hmem)

theorem prefix_intern (interned : List (List UInt16)) (units : List UInt16) :
    interned <+: intern interned units := by
  rw [intern]
  split
  · exact List.prefix_rfl
  · exact List.prefix_append ..

theorem encodings_eq (string : JStrRef) :
    encodings string = (fromUtf16 string.units, string.units) := by
  cases string with
  | utf16 units => rfl
  | utf8 s => exact Prod.ext (fromUtf16_eq_some_iff.mpr rfl).symm rfl

/-- **A new string is added** to both interners at one index. -/
theorem Represents.internNew (h : self.Represents interned) (alloc : Allocator)
    {units : List UInt16} (hnew : units ∉ commonStringsUtf16 ++ interned)
    (hlt : commonStrings.length + interned.length + 1 < 2 ^ 64) :
    ∃ self', self.internNew alloc (fromUtf16 units) units =
        some (.ofIndex (commonStringsUtf16.length + interned.length), self') ∧
      self'.Represents (interned ++ [units]) := by
  have hempty : encodeUtf16 "" ∈ commonStringsUtf16 ++ interned :=
    List.mem_append_left _ (List.mem_map_of_mem empty_mem_commonStrings)
  have hunits : units ≠ [] := fun heq => hnew (heq ▸ hempty)
  obtain ⟨utf16Interner, hutf16, hholds16⟩ := h.units.intern alloc.le_units hunits
  have hbytes : ∃ utf8Interner,
      self.internUtf8 alloc (fromUtf16 units) = some (interned.length, utf8Interner) ∧
      utf8Interner.Holds ((interned ++ [units]).map utf8Bytes) := by
    have hlength : (interned.map utf8Bytes).length = interned.length := List.length_map _
    rw [List.map_append, List.map_singleton, utf8Bytes]
    rcases hutf8 : fromUtf16 units with _ | s
    · obtain ⟨hindex, hholds⟩ := h.bytes.internStatic []
      exact ⟨_, congrArg some (Prod.ext (hindex.trans hlength) rfl), hholds⟩
    · have hs : asBytes s ≠ [] := by
        intro hnil
        rw [asBytes_eq_nil_iff.mp hnil, fromUtf16_eq_some_iff] at hutf8
        exact hnew (hutf8 ▸ hempty)
      obtain ⟨utf8Interner, hintern, hholds⟩ := h.bytes.intern alloc.le_bytes hs
      exact ⟨utf8Interner, hlength ▸ hintern, hholds⟩
  obtain ⟨utf8Interner, hutf8, hholds8⟩ := hbytes
  refine ⟨⟨utf8Interner, utf16Interner, self.latin1Flags ++ [allLatin1 units]⟩, ?_, ?_, hholds16,
    hholds8, ?_, ?_⟩
  · simp only [Interner.internNew, hutf8, hutf16, Option.bind_eq_bind, Option.bind_some, guard,
      symbol_eq hlt]
    rfl
  · rw [← List.append_assoc]
    exact h.nodup.append (List.nodup_singleton _) (List.disjoint_singleton.mpr hnew)
  · rw [List.map_append, List.map_singleton, h.flags]
  · rw [List.length_append, List.length_singleton]
    omega

/-- What interning a string comes to: the string has the symbol that is returned. -/
def Interns (interned : List (List UInt16)) (units : List UInt16)
    (result : Option (Sym × Interner)) : Prop :=
  ∃ n self', result = some (.ofIndex n, self') ∧ self'.Represents (intern interned units) ∧
    (commonStringsUtf16 ++ intern interned units)[n]? = some units

/-- **A string is searched and added** unless it is in the list. -/
theorem Represents.interns (h : self.Represents interned) (alloc : Allocator)
    (hlt : commonStrings.length + interned.length + 1 < 2 ^ 64) (string : JStrRef) :
    Interns interned string.units (do
      match ← self.get string with
      | some sym => return (sym, self)
      | none => self.internNew alloc (fromUtf16 string.units) string.units) := by
  rw [h.get_eq]
  rcases hindex : (commonStringsUtf16 ++ interned).idxOf? string.units with _ | n
  · have hnew := List.idxOf?_eq_none_iff.mp hindex
    obtain ⟨self', heq, hrep⟩ := h.internNew alloc hnew hlt
    refine ⟨_, self', heq, ?_, ?_⟩ <;> rw [intern_of_not_mem hnew]
    · exact hrep
    · rw [← List.append_assoc, ← List.length_append, List.getElem?_concat_length]
  · have hget := (idxOf?_eq_some_iff_of_nodup h.nodup).mp hindex
    have hmem := List.mem_of_getElem? hget
    refine ⟨n, self, rfl, ?_, ?_⟩ <;> rw [intern_of_mem hmem]
    · exact h
    · exact hget

/-- **Interning a string** adds it to the list unless it is there, without a panic. -/
theorem Represents.getOrIntern (h : self.Represents interned) (alloc : Allocator)
    (hlt : commonStrings.length + interned.length + 1 < 2 ^ 64) (string : JStrRef) :
    Interns interned string.units (self.getOrIntern alloc string) := by
  have hinterns := h.interns alloc hlt string
  rw [Interner.getOrIntern, encodings_eq]
  exact hinterns

/-- **A static string** is interned as any other. -/
theorem Represents.getOrInternStatic (h : self.Represents interned) (alloc : Allocator)
    (hlt : commonStrings.length + interned.length + 1 < 2 ^ 64) (utf8 : String) :
    Interns interned (encodeUtf16 utf8)
      (self.getOrInternStatic alloc utf8 (encodeUtf16 utf8)) := by
  have hinterns := h.interns alloc hlt (.utf8 utf8)
  rw [JStrRef.units, fromUtf16_eq_some_iff.mpr rfl] at hinterns
  exact hinterns

/-! ### Symbols -/

/-- **A symbol leads to its string**, and beyond the list there is none. -/
theorem Represents.resolve_ofIndex (h : self.Represents interned) (n : ℕ) :
    self.resolve (.ofIndex n) = some
      ((commonStringsUtf16 ++ interned)[n]?.map fun units => ⟨fromUtf16 units, units⟩) := by
  have hlength8 : self.utf8Interner.spans.length = interned.length :=
    h.bytes.length_eq.trans (List.length_map _)
  simp only [resolve, Sym.ofIndex, Nat.add_sub_cancel]
  rcases Nat.lt_or_ge n commonStrings.length with hn | hn
  · have hn' : n < commonStringsUtf16.length := by rwa [length_commonStringsUtf16]
    rw [List.getElem?_append_left hn', commonStringsUtf16, List.getElem?_map,
      List.getElem?_eq_getElem hn]
    simp only [Option.map_some, Option.bind_eq_bind, Option.bind_some,
      fromUtf16_eq_some_iff.mpr rfl]
    rfl
  · have hn' : commonStringsUtf16.length ≤ n := by rwa [length_commonStringsUtf16]
    rw [List.getElem?_append_right hn', length_commonStringsUtf16, List.getElem?_eq_none hn,
      h.units.length_eq, hlength8]
    set m := n - commonStrings.length with hm
    rcases Nat.lt_or_ge m interned.length with hlt | hge
    · simp only [if_pos hlt]
      rw [h.units.index_eq, Nat.sub_self, Nat.sub_zero, h.bytes.index_eq, List.getElem?_map,
        List.getElem?_eq_getElem hlt]
      have hutf8 : ∃ utf8, fromUtf8 (utf8Bytes interned[m]) = some utf8 ∧
          (if utf8.isEmpty then none else some utf8) = fromUtf16 interned[m] := by
        have hempty : encodeUtf16 "" ∉ interned := fun hmem =>
          (List.disjoint_of_nodup_append h.nodup
            (List.mem_map_of_mem empty_mem_commonStrings)) hmem
        rcases hs : fromUtf16 interned[m] with _ | s
        · refine ⟨"", ?_, if_pos (String.isEmpty_iff.mpr rfl)⟩
          rw [utf8Bytes, hs, fromUtf8_eq_some_iff]
          exact (asBytes_eq_nil_iff.mpr rfl).symm
        · have hne : ¬ s.isEmpty := by
            rw [String.isEmpty_iff]
            rintro rfl
            refine hempty ?_
            rw [← fromUtf16_eq_some_iff.mp hs]
            exact List.getElem_mem _
          refine ⟨s, ?_, if_neg hne⟩
          rw [utf8Bytes, hs]
          exact fromUtf8_eq_some_iff.mpr rfl
      obtain ⟨utf8, hfrom, heq⟩ := hutf8
      simp only [Option.map_some, Option.bind_eq_bind, Option.bind_some, hfrom, heq, guard,
        Nat.le_refl, Nat.zero_le, if_true]
      rfl
    · simp only [if_neg (Nat.not_lt.mpr hge)]
      rw [List.getElem?_eq_none hge]
      rfl

/-- **Whether a string is Latin1** is known from its symbol. -/
theorem Represents.isLatin1_ofIndex (h : self.Represents interned) {n : ℕ}
    {units : List UInt16} (hn : (commonStringsUtf16 ++ interned)[n]? = some units) :
    self.isLatin1 (.ofIndex n) = allLatin1 units := by
  simp only [isLatin1, Sym.ofIndex, Nat.add_sub_cancel, h.flags]
  split
  · next hlt =>
      rw [← length_commonStringsUtf16] at hlt
      rw [List.getElem?_append_left hlt] at hn
      exact (allLatin1_of_mem_commonStringsUtf16 (List.mem_of_getElem? hn)).symm
  · next hge =>
      have hge' : commonStringsUtf16.length ≤ n := by
        rw [length_commonStringsUtf16]
        exact Nat.le_of_not_lt hge
      rw [List.getElem?_append_right hge', length_commonStringsUtf16] at hn
      rw [List.getElem?_map, hn]
      rfl

/-- A string that is to be interned. -/
inductive Request
  | dynamic (string : JStrRef)
  | static (utf8 : String)

/-- The code units of a string that is to be interned. -/
def Request.units : Request → List UInt16
  | .dynamic string => string.units
  | .static utf8 => encodeUtf16 utf8

/-- Interns a string. -/
def perform (alloc : Allocator) (self : Interner) : Request → Option (Sym × Interner)
  | .dynamic string => self.getOrIntern alloc string
  | .static utf8 => self.getOrInternStatic alloc utf8 (encodeUtf16 utf8)

/-- Interns strings one after the other. -/
def internAll (alloc : Allocator) (self : Interner) :
    List Request → Option (List Sym × Interner)
  | [] => some ([], self)
  | request :: requests => do
      let (sym, self) ← self.perform alloc request
      let (syms, self) ← self.internAll alloc requests
      return (sym :: syms, self)

theorem Represents.perform (h : self.Represents interned) (alloc : Allocator)
    (hlt : commonStrings.length + interned.length + 1 < 2 ^ 64) (request : Request) :
    Interns interned request.units (self.perform alloc request) := by
  cases request with
  | dynamic string => exact h.getOrIntern alloc hlt string
  | static utf8 => exact h.getOrInternStatic alloc hlt utf8

/-- **Along a run** the list only grows at its end, and no symbol is lost. -/
theorem Represents.internAll (h : self.Represents interned) (alloc : Allocator)
    (requests : List Request)
    (hlt : commonStrings.length + interned.length + requests.length < 2 ^ 64) :
    ∃ syms self' interned', self.internAll alloc requests = some (syms, self') ∧
      self'.Represents interned' ∧ interned <+: interned' ∧
      List.Forall₂ (fun request sym => ∃ n, sym = Sym.ofIndex n ∧
        (commonStringsUtf16 ++ interned')[n]? = some request.units) requests syms := by
  induction requests generalizing self interned with
  | nil => exact ⟨[], self, interned, rfl, h, List.prefix_rfl, .nil⟩
  | cons request requests ih =>
      rw [List.length_cons] at hlt
      obtain ⟨n, mid, hperform, hmid, hn⟩ := h.perform alloc (by omega) request
      have hlength : (intern interned request.units).length ≤ interned.length + 1 := by
        rw [intern]
        split
        · exact Nat.le_succ _
        · rw [List.length_append, List.length_singleton]
      obtain ⟨syms, self', interned', hall, hrep, hprefix, hsyms⟩ := ih hmid (by omega)
      refine ⟨.ofIndex n :: syms, self', interned', ?_, hrep,
        (prefix_intern interned request.units).trans hprefix, .cons ⟨n, rfl, ?_⟩ hsyms⟩
      · rw [Interner.internAll, hperform]
        simp only [Option.bind_eq_bind, Option.bind_some, hall]
        rfl
      · obtain ⟨rest, rfl⟩ := hprefix
        rw [← List.append_assoc, List.getElem?_append_left (List.getElem?_eq_some_iff.mp hn).1, hn]

/-- **Interning any strings, in either encoding**, ends without a panic or a pointer left behind.
Every symbol that was returned leads back to its string, in UTF-8 too if that can be, and from it
in either encoding to the symbol. Two symbols are equal exactly if the strings are, and a symbol
beyond those that exist leads nowhere. -/
theorem symbols_internAll (alloc : Allocator) (capacity : ℕ) (requests : List Request)
    (hlt : commonStrings.length + requests.length < 2 ^ 64) :
    ∃ syms self', (withCapacity alloc capacity).internAll alloc requests = some (syms, self') ∧
      List.Forall₂ (fun request sym =>
        self'.resolve sym = some (some ⟨fromUtf16 request.units, request.units⟩) ∧
        self'.isLatin1 sym = allLatin1 request.units ∧
        ∀ string : JStrRef, string.units = request.units →
          self'.get string = some (some sym)) requests syms ∧
      (∀ i j : ℕ, ∀ first second symFirst symSecond,
        requests[i]? = some first → requests[j]? = some second →
        syms[i]? = some symFirst → syms[j]? = some symSecond →
        (symFirst = symSecond ↔ first.units = second.units)) ∧
      ∀ sym : Sym, self'.len < sym.value → self'.resolve sym = some none := by
  obtain ⟨syms, self', interned', hall, hrep, -, hsyms⟩ :=
    (represents_withCapacity alloc capacity).internAll alloc requests hlt
  refine ⟨syms, self', hall, hsyms.imp ?_, ?_, ?_⟩
  · rintro request sym ⟨n, rfl, hn⟩
    refine ⟨?_, hrep.isLatin1_ofIndex hn, fun string hunits => ?_⟩
    · rw [hrep.resolve_ofIndex, hn]
      rfl
    · rw [hrep.get_eq, hunits, (idxOf?_eq_some_iff_of_nodup hrep.nodup).mpr hn]
      rfl
  · intro i j first second symFirst symSecond hi hj hsymi hsymj
    have hindex : ∀ (i : ℕ) (request : Request) (sym : Sym), requests[i]? = some request →
        syms[i]? = some sym → ∃ n, sym = .ofIndex n ∧
          (commonStringsUtf16 ++ interned').idxOf? request.units = some n := by
      intro i request sym hi hsymi
      obtain ⟨hlt, rfl⟩ := List.getElem?_eq_some_iff.mp hi
      obtain ⟨hlt', rfl⟩ := List.getElem?_eq_some_iff.mp hsymi
      obtain ⟨n, heq, hn⟩ := hsyms.get hlt hlt'
      exact ⟨n, heq, (idxOf?_eq_some_iff_of_nodup hrep.nodup).mpr hn⟩
    obtain ⟨n, rfl, hn⟩ := hindex i first symFirst hi hsymi
    obtain ⟨m, rfl, hm⟩ := hindex j second symSecond hj hsymj
    rw [Sym.ofIndex_inj]
    constructor
    · rintro rfl
      have hget := (idxOf?_eq_some_iff_of_nodup hrep.nodup).mp hn
      rw [(idxOf?_eq_some_iff_of_nodup hrep.nodup).mp hm] at hget
      exact (Option.some.inj hget).symm
    · intro heq
      rw [heq, hm] at hn
      exact (Option.some.inj hn).symm
  · intro sym hsym
    have heq : sym = .ofIndex (sym.value - 1) :=
      Sym.ext (Nat.succ_pred_eq_of_ne_zero sym.ne_zero).symm
    rw [hrep.len_eq] at hsym
    rw [heq, hrep.resolve_ofIndex, List.getElem?_eq_none (by omega)]
    rfl

theorem symbols_internAll_hello :
    ∃ syms self', (withCapacity ⟨id, id, Nat.le_refl, Nat.le_refl⟩ 0).internAll
        ⟨id, id, Nat.le_refl, Nat.le_refl⟩
        [.dynamic (.utf8 "hello"), .dynamic (.utf16 [0xD800]), .static "hello"] =
          some (syms, self') ∧
      ∀ first third, syms[0]? = some first → syms[2]? = some third →
        first = third ∧ self'.resolve third = some (some ⟨some "hello", encodeUtf16 "hello"⟩) := by
  obtain ⟨syms, self', hall, hsyms, hinj, -⟩ := symbols_internAll
    ⟨id, id, Nat.le_refl, Nat.le_refl⟩ 0
    [.dynamic (.utf8 "hello"), .dynamic (.utf16 [0xD800]), .static "hello"] (by decide +kernel)
  refine ⟨syms, self', hall, fun first third hfirst hthird => ⟨?_, ?_⟩⟩
  · exact (hinj 0 2 _ _ first third rfl rfl hfirst hthird).mpr rfl
  · obtain ⟨hlt, rfl⟩ := List.getElem?_eq_some_iff.mp hthird
    have hresolve := (hsyms.get (Nat.lt_of_lt_of_eq hlt hsyms.length_eq.symm) hlt).1
    have hutf8 : fromUtf16 (encodeUtf16 "hello") = some "hello" := fromUtf16_eq_some_iff.mpr rfl
    exact hutf8 ▸ hresolve

end Interner

end BoaLigero
