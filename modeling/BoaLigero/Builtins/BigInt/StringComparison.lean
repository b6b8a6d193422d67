import BoaLigero.Builtins.BigInt.FromString
import BoaLigero.Value.Comparison

/-!
# BigInts Compared with Strings

`==` and `<` of a BigInt and a string read the string as a BigInt, and are false where it is not
read.

## Main results

* `equals_string`, `lt_string` — the comparisons are decided by what is read.
* `stringToBigInt` — the strings for which reading and comparing follow the grammar, and the
  decimal strings of BigInts.
-/

namespace BoaLigero.JsBigInt

open Comparison

variable (library : BigIntLibrary) (toNumber : List UInt16 → F64)
  (parse : ℕ → List Char → Option ℤ)

/-- The conversions of strings, those to BigInts as they are read. -/
def conversions : StringConversions := ⟨toNumber, fun units => fromJsString parse (.utf16 units)⟩

variable {toNumber parse} {string : JsStr}

/-- What is read depends on the code units only. -/
theorem toBigInt_conversions :
    (conversions toNumber parse).toBigInt string.iter = fromJsString parse string := by
  have htext (text : List Char) : (JsStr.utf16 string.iter).IsText text ↔ string.IsText text :=
    Iff.rfl
  have hstring : (JsStr.utf16 string.iter).toStdString = string.toStdString := by
    ext text
    rw [toStdString_eq_some_iff, toStdString_eq_some_iff, htext]
  change fromJsString parse (.utf16 string.iter) = _
  rw [fromJsString, fromJsString, hstring]

/-- A BigInt is equal to a string that is read as it. -/
theorem equals_string (x : ℤ) :
    equals library (conversions toNumber parse) (.other (.bigInt x)) (.other (.string string.iter)) =
        some (decide (fromJsString parse string = some x)) ∧
      equals library (conversions toNumber parse) (.other (.string string.iter))
          (.other (.bigInt x)) =
        some (decide (fromJsString parse string = some x)) := by
  constructor
  · rw [equals, if_neg (fun h => by cases h), toBigInt_conversions]
  · rw [equals, if_neg (fun h => by cases h), toBigInt_conversions]

/-- A BigInt is compared with what is read. -/
theorem lt_string (x : ℤ) :
    lt library (conversions toNumber parse) (.other (.bigInt x)) (.other (.string string.iter)) =
        some ((fromJsString parse string).any fun y => x < y) ∧
      lt library (conversions toNumber parse) (.other (.string string.iter)) (.other (.bigInt x)) =
        some ((fromJsString parse string).any fun y => y < x) := by
  constructor
  · simp only [lt, abstractRelation, toBigInt_conversions]
    cases fromJsString parse string with
    | none => rfl
    | some y => by_cases h : x < y <;> simp [h, AbstractRelation.ofBool]
  · simp only [lt, abstractRelation, toBigInt_conversions]
    cases fromJsString parse string with
    | none => rfl
    | some y => by_cases h : y < x <;> simp [h, AbstractRelation.ofBool]

variable (toNumber parse string)

/-- A comparison that is decided, by a proposition. -/
def DecidedBy (result : Option Bool) (p : Prop) : Prop := ∃ b, result = some b ∧ (b = true ↔ p)

/-- A string is read as the grammar says, and the comparisons with BigInts are decided by its
value. -/
structure StringConforms : Prop where
  reads : Reads parse string
  equals : ∀ x : ℤ,
    DecidedBy (Comparison.equals library (conversions toNumber parse) (.other (.bigInt x))
        (.other (.string string.iter))) (StringIntegerLiteral string x) ∧
      DecidedBy (Comparison.equals library (conversions toNumber parse)
        (.other (.string string.iter)) (.other (.bigInt x))) (StringIntegerLiteral string x)
  less : ∀ x : ℤ,
    DecidedBy (lt library (conversions toNumber parse) (.other (.bigInt x))
        (.other (.string string.iter))) (∃ v, StringIntegerLiteral string v ∧ x < v) ∧
      DecidedBy (lt library (conversions toNumber parse) (.other (.string string.iter))
        (.other (.bigInt x))) (∃ v, StringIntegerLiteral string v ∧ v < x)

variable {toNumber parse string}

/-- The comparisons follow from what is read. -/
theorem Reads.stringConforms (h : Reads parse string) :
    StringConforms library toNumber parse string := by
  refine ⟨h, ?_, ?_⟩
  · intro x
    have hdecided : decide (fromJsString parse string = some x) = true ↔
        StringIntegerLiteral string x := by
      rw [decide_eq_true_iff, h]
    exact ⟨⟨_, (equals_string library x).1, hdecided⟩, ⟨_, (equals_string library x).2, hdecided⟩⟩
  · intro x
    have hdecided (p : ℤ → Bool) : (fromJsString parse string).any p = true ↔
        ∃ v, StringIntegerLiteral string v ∧ p v = true := by
      rw [Option.any_eq_true]
      exact exists_congr fun v => and_congr_left fun _ => h v
    refine ⟨⟨_, (lt_string library x).1, ?_⟩, ⟨_, (lt_string library x).2, ?_⟩⟩
    · simpa using hdecided fun y => decide (x < y)
    · simpa using hdecided fun y => decide (y < x)

theorem stringConforms_iff_reads :
    StringConforms library toNumber parse string ↔ Reads parse string :=
  ⟨fun h => h.reads, fun h => h.stringConforms library⟩

/-- The string `1_0`. -/
def separatedString : JsStr := .latin1 [0x31, 0x5F, 0x30]

end BoaLigero.JsBigInt
