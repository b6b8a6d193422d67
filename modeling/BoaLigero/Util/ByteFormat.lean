import BoaLigero.Util.Machine
import Mathlib.Algebra.Order.Ring.Nat

/-!
# Formats over Bytes

Values are written behind each other as bytes and read back from a position. What a value's
bytes are read as is stated of every text they stand in, so that formats compose: one value
behind the other, and a number of values in a row. Bytes that were written may be overwritten
in place.

## Main results

* `ofLeBytes_toLeBytes` — a number is read back from its little-endian bytes.
* `ReadsBack.many` — values in a row are read back.
* `writeAt_append` — overwriting a part leaves what is in front of it and behind it.
-/

namespace ByteFormat

open Machine

variable {α β : Type}

/-- The bytes of a number, the least significant one first. -/
def toLeBytes : ℕ → ℕ → List UInt8
  | 0, _ => []
  | width + 1, n => UInt8.ofNat (n % 256) :: toLeBytes width (n / 256)

/-- The number with these bytes, the least significant one first. -/
def ofLeBytes : List UInt8 → ℕ
  | [] => 0
  | b :: bytes => b.toNat + 256 * ofLeBytes bytes

@[simp]
theorem length_toLeBytes (width n : ℕ) : (toLeBytes width n).length = width := by
  induction width generalizing n with
  | zero => rfl
  | succ width ih => rw [toLeBytes, List.length_cons, ih]

/-- **A number is read back** from as many bytes as it needs. -/
theorem ofLeBytes_toLeBytes {width n : ℕ} (h : n < 256 ^ width) :
    ofLeBytes (toLeBytes width n) = n := by
  induction width generalizing n with
  | zero =>
      rw [pow_zero] at h
      rw [toLeBytes, ofLeBytes]
      omega
  | succ width ih =>
      have hdiv : n / 256 < 256 ^ width := by
        rw [pow_succ] at h
        exact Nat.div_lt_of_lt_mul (by rwa [Nat.mul_comm])
      have hbyte : (UInt8.ofNat (n % 256)).toNat = n % 256 := by simp
      rw [toLeBytes, ofLeBytes, ih hdiv, hbyte]
      omega

/-! ### Reading -/

/-- A number of bytes at a position, and the position behind them. -/
def readBytes (width : ℕ) (bytes : List UInt8) (pos : ℕ) : Option (List UInt8 × ℕ) :=
  if pos + width ≤ bytes.length then some ((bytes.drop pos).take width, pos + width) else none

/-- A number of values in a row. -/
def readMany (decode : List UInt8 → ℕ → Option (α × ℕ)) :
    ℕ → List UInt8 → ℕ → Option (List α × ℕ)
  | 0, _, pos => some ([], pos)
  | count + 1, bytes, pos => do
      let (a, pos) ← decode bytes pos
      let (rest, pos) ← readMany decode count bytes pos
      return (a :: rest, pos)

/-- Wherever these bytes stand, they are read as this value, up to their end. -/
def ReadsBack (decode : List UInt8 → ℕ → Option (α × ℕ)) (frag : List UInt8) (a : α) : Prop :=
  ∀ bytes pos, FragmentAt bytes pos frag → decode bytes pos = some (a, pos + frag.length)

/-- What stands in a text is within it. -/
theorem length_le_of_fragmentAt {bytes frag : List UInt8} {pos : ℕ}
    (h : FragmentAt bytes pos frag) (hne : frag ≠ []) : pos + frag.length ≤ bytes.length := by
  have hpos : 0 < frag.length := List.length_pos_iff.mpr hne
  by_contra hout
  have hlast := h (frag.length - 1) (by omega)
  rw [List.getElem?_eq_none (by omega), eq_comm, List.getElem?_eq_none_iff] at hlast
  omega

theorem readBytes_of_fragmentAt {bytes frag : List UInt8} {pos : ℕ}
    (h : FragmentAt bytes pos frag) (hne : frag ≠ []) :
    readBytes frag.length bytes pos = some (frag, pos + frag.length) := by
  have hle := length_le_of_fragmentAt h hne
  rw [readBytes, if_pos hle]
  have htake : (bytes.drop pos).take frag.length = frag := by
    refine List.ext_getElem? fun i => ?_
    by_cases hi : i < frag.length
    · rw [List.getElem?_take_of_lt hi, List.getElem?_drop, h i hi]
    · rw [List.getElem?_eq_none (by simp; omega), List.getElem?_eq_none (by omega)]
  rw [htake]

/-- **Values in a row are read back.** -/
theorem ReadsBack.many {decode : List UInt8 → ℕ → Option (α × ℕ)} {encode : α → List UInt8}
    {values : List α} (h : ∀ a ∈ values, ReadsBack decode (encode a) a) :
    ReadsBack (readMany decode values.length) (values.flatMap encode) values := by
  induction values with
  | nil => exact fun _ _ _ => rfl
  | cons a values ih =>
      intro bytes pos hat
      rw [List.flatMap_cons] at hat
      obtain ⟨hfirst, hrest⟩ := hat.append
      have hhead := h a List.mem_cons_self bytes pos hfirst
      have htail := ih (fun b hb => h b (List.mem_cons_of_mem a hb)) bytes _ hrest
      simp only [List.length_cons, readMany, hhead, htail, Option.bind_eq_bind, Option.bind_some,
        Option.pure_def, List.flatMap_cons, List.length_append, Nat.add_assoc]

/-! ### Overwriting -/

/-- The bytes from a position on, one by one. -/
def writeAt : List UInt8 → ℕ → List UInt8 → List UInt8
  | bytes, _, [] => bytes
  | bytes, pos, b :: frag => writeAt (bytes.set pos b) (pos + 1) frag

theorem writeAt_append (pre : List UInt8) {old : List UInt8} (post : List UInt8)
    {frag : List UInt8} (h : old.length = frag.length) :
    writeAt (pre ++ (old ++ post)) pre.length frag = pre ++ (frag ++ post) := by
  induction frag generalizing pre old with
  | nil =>
      obtain rfl := List.length_eq_zero_iff.mp h
      rfl
  | cons b frag ih =>
      obtain ⟨c, old, rfl⟩ := List.exists_cons_of_length_pos (by rw [h]; simp)
      have hset : (pre ++ (c :: old ++ post)).set pre.length b = (pre ++ [b]) ++ (old ++ post) := by
        simp
      have hlength : pre.length + 1 = (pre ++ [b]).length := by simp
      rw [writeAt, hset, hlength, ih _ (by simpa using h), List.append_assoc]
      rfl

end ByteFormat
