import BoaLigero.Util.PeriodicSum
import BoaLigero.Vm.PureReader.Number

/-!
# The Sum of an Indexed Reader Loop

`checked_periodic_sum_i32`: the loop of an indexed reader adds the values of a periodic
sequence to a sum. Its result is a machine integer as long as every partial sum is one; the
source decides that from the extreme partial sums of one cycle, and adds the last, incomplete
cycle term by term.

## Main results

* `periodicSum_eq` — no `i128` operation overflows, and what each range check decides.
* `checkedPeriodicSumI32_eq_some_iff` — a sum is returned exactly when all partial sums are
  machine integers.
-/

namespace BoaLigero

open Finset

/-! ### The source -/

/-- Why no sum is returned. -/
inductive PeriodicSumError where
  /-- There are no values, or the start is not among them. -/
  | noStart
  /-- An `i128` operation overflows. -/
  | overflow
  /-- A sum leaves the range of `i32`. -/
  | outOfRange
  deriving DecidableEq, Repr

namespace PeriodicSum

/-- The result of a checked `i128` operation. -/
def checkedI128 (n : ℤ) : Except PeriodicSumError ℤ :=
  if -2 ^ 127 ≤ n ∧ n < 2 ^ 127 then .ok n else .error .overflow

/-- `i32::try_from`. -/
def tryI32 (n : ℤ) : Except PeriodicSumError ℤ :=
  if InI32 n then .ok n else .error .outOfRange

/-- The value at an offset from the start. -/
def valueAt (values : List Int32) (start offset : ℕ) : ℤ :=
  (values[(start + offset) % values.length]?.getD 0).toInt

/-- The sum of one cycle, and its least and greatest partial sum. -/
def cycle (values : List Int32) (start : ℕ) : Except PeriodicSumError (ℤ × ℤ × ℤ) :=
  (List.range values.length).foldlM (fun (cyclePrefix, minPrefix, maxPrefix) offset => do
    let cyclePrefix ← checkedI128 (cyclePrefix + valueAt values start offset)
    return (cyclePrefix, min minPrefix cyclePrefix, max maxPrefix cyclePrefix)) (0, 0, 0)

/-- The extreme partial sums of the full cycles are machine integers. -/
def checkCycles (initial : ℤ) (fullCycles : ℕ) (cyclePrefix minPrefix maxPrefix : ℤ) :
    Except PeriodicSumError Unit := do
  let lastCycleBase ← checkedI128 ((fullCycles - 1 : ℕ) * cyclePrefix)
  let minBase := min 0 lastCycleBase
  let maxBase := max 0 lastCycleBase
  let minimum ← checkedI128 ((← checkedI128 (initial + minBase)) + minPrefix)
  let maximum ← checkedI128 ((← checkedI128 (initial + maxBase)) + maxPrefix)
  if minimum < Int32.minValue.toInt ∨ Int32.maxValue.toInt < maximum then
    throw .outOfRange

/-- The last, incomplete cycle. -/
def addTail (values : List Int32) (start tail : ℕ) (result : ℤ) : Except PeriodicSumError ℤ :=
  (List.range tail).foldlM (fun result offset => do
    let result ← checkedI128 (result + valueAt values start offset)
    tryI32 result) result

end PeriodicSum

open PeriodicSum in
/-- `checked_periodic_sum_i32`, with the reason why no sum is returned. -/
def periodicSum (initial : Int32) (values : List Int32) (start : ℕ) (count : UInt64) :
    Except PeriodicSumError Int32 := do
  if values.isEmpty ∨ values.length ≤ start then throw .noStart
  let fullCycles := count.toNat / values.length
  let tail := count.toNat % values.length
  let (cyclePrefix, minPrefix, maxPrefix) ← cycle values start
  if fullCycles ≠ 0 then
    checkCycles initial.toInt fullCycles cyclePrefix minPrefix maxPrefix
  let cycles ← PeriodicSum.checkedI128 (fullCycles * cyclePrefix)
  let result ← PeriodicSum.checkedI128 (initial.toInt + cycles)
  let result ← addTail values start tail result
  let result ← PeriodicSum.tryI32 result
  return Int32.ofInt result

/-- `checked_periodic_sum_i32`. -/
def checkedPeriodicSumI32 (initial : Int32) (values : List Int32) (start : ℕ) (count : UInt64) :
    Option Int32 :=
  (periodicSum initial values start count).toOption

/-! ### No operation overflows -/

namespace PeriodicSum

variable {values : List Int32} {start : ℕ}

theorem checkedI128_eq_ok {n : ℤ} (hlo : -2 ^ 127 ≤ n) (hhi : n < 2 ^ 127) :
    checkedI128 n = .ok n :=
  if_pos ⟨hlo, hhi⟩

/-- A loop over offsets whose steps all succeed. -/
theorem foldlM_range_eq_ok {σ ε : Type} {step : σ → ℕ → Except ε σ} (state : ℕ → σ) (n : ℕ)
    (h : ∀ i < n, step (state i) i = .ok (state (i + 1))) :
    (List.range n).foldlM step (state 0) = .ok (state n) := by
  induction n with
  | zero => rfl
  | succ n ih =>
      rw [List.range_succ, List.foldlM_append, ih fun i hi => h i (Nat.lt_succ_of_lt hi)]
      simp [h n (Nat.lt_succ_self n), bind, Except.bind, pure, Except.pure]

/-- The values repeat with their number. -/
theorem periodic_valueAt (values : List Int32) (start : ℕ) :
    Function.Periodic (valueAt values start) values.length := fun offset => by
  rw [valueAt, valueAt, ← Nat.add_assoc, Nat.add_mod_right]

theorem inI32_valueAt (values : List Int32) (start offset : ℕ) :
    InI32 (valueAt values start offset) :=
  ⟨Int32.le_toInt _, Int32.toInt_lt _⟩

/-- A partial sum of at most 16 values. -/
theorem sum_valueAt_bound (values : List Int32) (start : ℕ) {k : ℕ} (hk : k ≤ 16) :
    -2 ^ 35 ≤ ∑ i ∈ range k, valueAt values start i ∧
      ∑ i ∈ range k, valueAt values start i ≤ 2 ^ 35 := by
  have hbound : ∀ m : ℕ, -2 ^ 31 * (m : ℤ) ≤ ∑ i ∈ range m, valueAt values start i ∧
      ∑ i ∈ range m, valueAt values start i ≤ 2 ^ 31 * (m : ℤ) := by
    intro m
    induction m with
    | zero => simp
    | succ m ih =>
        obtain ⟨hlo, hhi⟩ := inI32_valueAt values start m
        rw [sum_range_succ]
        push_cast
        constructor <;> linarith [ih.1, ih.2]
  have hk' : (k : ℤ) ≤ 16 := by exact_mod_cast hk
  constructor <;> linarith [(hbound k).1, (hbound k).2]

/-- **One cycle**: its sum and its extreme partial sums. -/
theorem cycle_eq (hlen : values.length ≤ 8) :
    cycle values start = .ok (∑ i ∈ range values.length, valueAt values start i,
      prefixMin (valueAt values start) values.length,
      prefixMax (valueAt values start) values.length) := by
  refine foldlM_range_eq_ok (fun n => (∑ i ∈ range n, valueAt values start i,
    prefixMin (valueAt values start) n, prefixMax (valueAt values start) n)) _ fun i hi => ?_
  have hsum : ∑ j ∈ range i, valueAt values start j + valueAt values start i =
      ∑ j ∈ range (i + 1), valueAt values start j := (sum_range_succ _ _).symm
  obtain ⟨hlo, hhi⟩ := sum_valueAt_bound values start (k := i + 1) (by omega)
  simp only [hsum, checkedI128_eq_ok (n := ∑ j ∈ range (i + 1), valueAt values start j)
    (by linarith) (by linarith), bind, Except.bind, pure, Except.pure]
  rfl

/-- The last, incomplete cycle: the sum is returned if all partial sums are machine integers. -/
theorem addTail_eq {tail : ℕ} (htail : tail ≤ 8) {result : ℤ} (hlo : -2 ^ 100 ≤ result)
    (hhi : result ≤ 2 ^ 100) :
    addTail values start tail result =
      if ∀ j < tail, InI32 (result + ∑ i ∈ range (j + 1), valueAt values start i) then
        .ok (result + ∑ i ∈ range tail, valueAt values start i)
      else .error .outOfRange := by
  induction tail with
  | zero => simp [addTail, pure, Except.pure]
  | succ tail ih =>
      have hstep : addTail values start (tail + 1) result =
          addTail values start tail result >>= fun result =>
            checkedI128 (result + valueAt values start tail) >>= tryI32 := by
        rw [addTail, List.range_succ, List.foldlM_append]
        simp [addTail]
      have hsum : result + ∑ i ∈ range tail, valueAt values start i + valueAt values start tail =
          result + ∑ i ∈ range (tail + 1), valueAt values start i := by
        rw [sum_range_succ, add_assoc]
      obtain ⟨hlo', hhi'⟩ := sum_valueAt_bound values start (k := tail + 1) (by omega)
      have hchecked := checkedI128_eq_ok
        (n := result + ∑ i ∈ range (tail + 1), valueAt values start i) (by linarith) (by linarith)
      rw [hstep, ih (Nat.le_of_succ_le htail)]
      by_cases hall : ∀ j < tail, InI32 (result + ∑ i ∈ range (j + 1), valueAt values start i)
      · rw [if_pos hall]
        simp only [bind, Except.bind, hsum, hchecked, tryI32]
        by_cases hlast : InI32 (result + ∑ i ∈ range (tail + 1), valueAt values start i)
        · rw [if_pos hlast, if_pos]
          intro j hj
          rcases Nat.lt_succ_iff_lt_or_eq.mp hj with hj | rfl
          · exact hall j hj
          · exact hlast
        · rw [if_neg hlast, if_neg fun h => hlast (h tail (Nat.lt_succ_self tail))]
      · rw [if_neg hall, if_neg fun h => hall fun j hj => h j (Nat.lt_succ_of_lt hj)]
        rfl

/-- **The full cycles**: the check passes if the extreme partial sums are machine integers. -/
theorem checkCycles_eq {initial cyclePrefix minPrefix maxPrefix : ℤ} {fullCycles : ℕ}
    (hinitial : InI32 initial) (hcycles : fullCycles < 2 ^ 64)
    (hcycle : -2 ^ 35 ≤ cyclePrefix ∧ cyclePrefix ≤ 2 ^ 35)
    (hmin : -2 ^ 35 ≤ minPrefix ∧ minPrefix ≤ 2 ^ 35)
    (hmax : -2 ^ 35 ≤ maxPrefix ∧ maxPrefix ≤ 2 ^ 35) :
    checkCycles initial fullCycles cyclePrefix minPrefix maxPrefix =
      if -2 ^ 31 ≤ initial + min 0 ((fullCycles - 1 : ℕ) * cyclePrefix) + minPrefix ∧
          initial + max 0 ((fullCycles - 1 : ℕ) * cyclePrefix) + maxPrefix ≤ 2 ^ 31 - 1 then
        .ok ()
      else .error .outOfRange := by
  obtain ⟨hlo, hhi⟩ := hinitial
  have hcount : ((fullCycles - 1 : ℕ) : ℤ) ≤ 2 ^ 64 := by omega
  have hcount' : (0 : ℤ) ≤ (fullCycles - 1 : ℕ) := Int.natCast_nonneg _
  have hbase : -2 ^ 99 ≤ ((fullCycles - 1 : ℕ) : ℤ) * cyclePrefix ∧
      ((fullCycles - 1 : ℕ) : ℤ) * cyclePrefix ≤ 2 ^ 99 := by
    constructor <;> nlinarith
  rw [checkCycles]
  generalize ((fullCycles - 1 : ℕ) : ℤ) * cyclePrefix = base at hbase ⊢
  have hminBase : -2 ^ 99 ≤ min 0 base ∧ min 0 base ≤ 0 :=
    ⟨le_min (by norm_num) hbase.1, min_le_left _ _⟩
  have hmaxBase : 0 ≤ max 0 base ∧ max 0 base ≤ 2 ^ 99 :=
    ⟨le_max_left _ _, max_le (by norm_num) hbase.2⟩
  have hminValue : Int32.minValue.toInt = -2 ^ 31 := by decide
  have hmaxValue : Int32.maxValue.toInt = 2 ^ 31 - 1 := by decide
  simp only [bind, Except.bind,
    checkedI128_eq_ok (n := base) (by linarith) (by linarith),
    checkedI128_eq_ok (n := initial + min 0 base) (by linarith) (by linarith),
    checkedI128_eq_ok (n := initial + min 0 base + minPrefix) (by linarith) (by linarith),
    checkedI128_eq_ok (n := initial + max 0 base) (by linarith) (by linarith),
    checkedI128_eq_ok (n := initial + max 0 base + maxPrefix) (by linarith) (by linarith),
    hminValue, hmaxValue]
  by_cases hrange : -2 ^ 31 ≤ initial + min 0 base + minPrefix ∧
      initial + max 0 base + maxPrefix ≤ 2 ^ 31 - 1
  · rw [if_pos hrange, if_neg (by omega)]
    rfl
  · rw [if_neg hrange, if_pos (by omega)]
    rfl

end PeriodicSum

/-! ### The partial sums -/

/-- The partial sum after a number of iterations, in the order of the source. -/
def periodicPartialSum (initial : Int32) (values : List Int32) (start k : ℕ) : ℤ :=
  initial.toInt + ∑ i ∈ range k, PeriodicSum.valueAt values start i

section

variable {initial : Int32} {values : List Int32} {start : ℕ}

open PeriodicSum

/-- The partial sums of the full cycles are in range exactly if the check of the cycles
passes. -/
theorem inI32_cycles_iff (hne : 0 < values.length) (c : ℕ) :
    (∀ k ≤ (c + 1) * values.length, InI32 (periodicPartialSum initial values start k)) ↔
      -2 ^ 31 ≤ initial.toInt +
          min 0 (c * ∑ i ∈ range values.length, valueAt values start i) +
          prefixMin (valueAt values start) values.length ∧
        initial.toInt + max 0 (c * ∑ i ∈ range values.length, valueAt values start i) +
          prefixMax (valueAt values start) values.length ≤ 2 ^ 31 - 1 := by
  rw [← Periodic.sum_mem_Icc_iff (periodic_valueAt values start) hne]
  refine forall₂_congr fun k _ => ?_
  rw [InI32, periodicPartialSum, Int.le_sub_one_iff]

/-- The check of the cycles, which is not made where there are none. -/
theorem checkFullCycles_eq (hlen : values.length ≤ 8) (hne : 0 < values.length) {fullCycles : ℕ}
    (hcycles : fullCycles < 2 ^ 64) :
    (if fullCycles ≠ 0 then
        checkCycles initial.toInt fullCycles (∑ i ∈ range values.length, valueAt values start i)
          (prefixMin (valueAt values start) values.length)
          (prefixMax (valueAt values start) values.length)
      else .ok ()) =
      if ∀ k ≤ fullCycles * values.length, InI32 (periodicPartialSum initial values start k) then
        .ok ()
      else .error .outOfRange := by
  cases fullCycles with
  | zero =>
      rw [if_neg (not_not.mpr rfl), if_pos]
      intro k hk
      obtain rfl : k = 0 := by simpa using hk
      simpa [periodicPartialSum, InI32] using And.intro initial.le_toInt initial.toInt_lt
  | succ c =>
      have hbound : ∀ j ≤ values.length, -2 ^ 35 ≤ ∑ i ∈ range j, valueAt values start i ∧
          ∑ i ∈ range j, valueAt values start i ≤ 2 ^ 35 := fun j hj =>
        sum_valueAt_bound values start (by omega)
      obtain ⟨j, hj, hmin⟩ := exists_prefixMin_eq (valueAt values start) values.length
      obtain ⟨k, hk, hmax⟩ := exists_prefixMax_eq (valueAt values start) values.length
      rw [if_pos (Nat.succ_ne_zero c), checkCycles_eq ⟨initial.le_toInt, initial.toInt_lt⟩ hcycles
        (hbound _ le_rfl) (hmin ▸ hbound j hj) (hmax ▸ hbound k hk)]
      exact if_congr (inI32_cycles_iff hne c).symm rfl rfl

/-- Behind the full cycles the partial sums are those of the tail. -/
theorem periodicPartialSum_mul_add (q j : ℕ) :
    periodicPartialSum initial values start (q * values.length + j) =
      initial.toInt + q * ∑ i ∈ range values.length, valueAt values start i +
        ∑ i ∈ range j, valueAt values start i := by
  rw [periodicPartialSum, Periodic.sum_range_mul_add (periodic_valueAt values start), add_assoc]

/-- All partial sums are in range if those of the full cycles and those of the tail are. -/
theorem forall_inI32_iff (fullCycles tail : ℕ) :
    (∀ k ≤ fullCycles * values.length + tail,
        InI32 (periodicPartialSum initial values start k)) ↔
      (∀ k ≤ fullCycles * values.length, InI32 (periodicPartialSum initial values start k)) ∧
        ∀ j < tail, InI32 (initial.toInt +
          fullCycles * ∑ i ∈ range values.length, valueAt values start i +
            ∑ i ∈ range (j + 1), valueAt values start i) := by
  simp only [← periodicPartialSum_mul_add]
  constructor
  · exact fun h => ⟨fun k hk => h k (by omega), fun j hj => h _ (by omega)⟩
  · rintro ⟨hfull, hrest⟩ k hk
    by_cases hle : k ≤ fullCycles * values.length
    · exact hfull k hle
    · obtain ⟨j, rfl⟩ := Nat.exists_eq_add_of_lt (not_le.mp hle)
      exact hrest j (by omega)

/-- **No `i128` operation overflows**: the sum is returned if every partial sum is a machine
integer, and else the reason is that one is not. -/
theorem periodicSum_eq (hlen : values.length ≤ 8) (hstart : start < values.length)
    (initial : Int32) (count : UInt64) :
    periodicSum initial values start count =
      if ∀ k ≤ count.toNat, InI32 (periodicPartialSum initial values start k) then
        .ok (Int32.ofInt (periodicPartialSum initial values start count.toNat))
      else .error .outOfRange := by
  have hne : 0 < values.length := Nat.zero_lt_of_lt hstart
  have hguard : ¬(values.isEmpty = true ∨ values.length ≤ start) := by
    rw [List.isEmpty_iff_length_eq_zero]
    omega
  have hcount : count.toNat / values.length * values.length + count.toNat % values.length =
      count.toNat := Nat.div_add_mod' _ _
  have htail : count.toNat % values.length < values.length := Nat.mod_lt _ hne
  have hcycles : count.toNat / values.length < 2 ^ 64 :=
    (Nat.div_le_self _ _).trans_lt count.toNat_lt
  -- the computation behind the check of the cycles
  have heq : periodicSum initial values start count =
      (if count.toNat / values.length ≠ 0 then
          checkCycles initial.toInt (count.toNat / values.length)
            (∑ i ∈ range values.length, valueAt values start i)
            (prefixMin (valueAt values start) values.length)
            (prefixMax (valueAt values start) values.length)
        else .ok ()) >>= fun _ => do
        let cycles ← PeriodicSum.checkedI128 ((count.toNat / values.length : ℕ) *
          ∑ i ∈ range values.length, valueAt values start i)
        let result ← PeriodicSum.checkedI128 (initial.toInt + cycles)
        let result ← addTail values start (count.toNat % values.length) result
        let result ← PeriodicSum.tryI32 result
        return Int32.ofInt result := by
    rw [periodicSum, if_neg hguard]
    simp only [cycle_eq hlen, bind, Except.bind]
    split <;> rfl
  rw [heq, checkFullCycles_eq hlen hne hcycles]
  generalize count.toNat / values.length = fullCycles at hcount hcycles ⊢
  generalize count.toNat % values.length = tail at hcount htail ⊢
  rw [← hcount]
  have hlast : periodicPartialSum initial values start _ = _ :=
    periodicPartialSum_mul_add fullCycles tail
  have hall : (∀ k ≤ _, InI32 (periodicPartialSum initial values start k)) ↔ _ :=
    forall_inI32_iff fullCycles tail
  obtain ⟨hlo, hhi⟩ := sum_valueAt_bound values start (k := values.length) (by omega)
  generalize ∑ i ∈ range values.length, valueAt values start i = drift at hlo hhi hlast hall ⊢
  have hbase : -2 ^ 99 ≤ (fullCycles : ℤ) * drift ∧ (fullCycles : ℤ) * drift ≤ 2 ^ 99 := by
    have hcycles' : (fullCycles : ℤ) ≤ 2 ^ 64 := by exact_mod_cast hcycles.le
    have hzero : (0 : ℤ) ≤ fullCycles := Int.natCast_nonneg _
    constructor <;> nlinarith
  have hinitial : -2 ^ 31 ≤ initial.toInt ∧ initial.toInt < 2 ^ 31 :=
    ⟨initial.le_toInt, initial.toInt_lt⟩
  by_cases hfull : ∀ k ≤ fullCycles * values.length,
      InI32 (periodicPartialSum initial values start k)
  · rw [if_pos hfull]
    simp only [bind, Except.bind, checkedI128_eq_ok (n := fullCycles * drift) (by linarith)
      (by linarith), checkedI128_eq_ok (n := initial.toInt + fullCycles * drift) (by linarith)
      (by linarith)]
    have haddTail : addTail values start tail (initial.toInt + fullCycles * drift) = _ :=
      addTail_eq (htail.le.trans hlen) (by linarith) (by linarith)
    rw [haddTail]
    by_cases hrest : ∀ j < tail, InI32 (initial.toInt + fullCycles * drift +
        ∑ i ∈ range (j + 1), valueAt values start i)
    · have hin : InI32 (initial.toInt + fullCycles * drift +
          ∑ i ∈ range tail, valueAt values start i) :=
        hlast ▸ hall.mpr ⟨hfull, hrest⟩ _ le_rfl
      rw [if_pos hrest, if_pos (hall.mpr ⟨hfull, hrest⟩), hlast]
      simp only [PeriodicSum.tryI32, if_pos hin]
      rfl
    · rw [if_neg hrest, if_neg fun h => hrest (hall.mp h).2]
  · rw [if_neg hfull, if_neg fun h => hfull (hall.mp h).1]
    rfl

/-- **The sum of an indexed reader loop**: a sum is returned exactly when every partial sum is
a machine integer, and then it is the last one; no `i128` operation overflows. -/
theorem checkedPeriodicSumI32_eq_some_iff (hlen : values.length ≤ 8)
    (hstart : start < values.length) (initial : Int32) (count : UInt64) :
    (∀ r, checkedPeriodicSumI32 initial values start count = some r ↔
        (∀ k, 1 ≤ k → k ≤ count.toNat →
          InI32 (periodicPartialSum initial values start k)) ∧
        r.toInt = periodicPartialSum initial values start count.toNat) ∧
      periodicSum initial values start count ≠ .error .overflow := by
  have hzero : InI32 (periodicPartialSum initial values start 0) := by
    simpa [periodicPartialSum, InI32] using And.intro initial.le_toInt initial.toInt_lt
  rw [checkedPeriodicSumI32, periodicSum_eq hlen hstart]
  by_cases hall : ∀ k ≤ count.toNat, InI32 (periodicPartialSum initial values start k)
  · have hlast := hall _ le_rfl
    rw [if_pos hall]
    refine ⟨fun r => ?_, by simp⟩
    have hvalue : (Int32.ofInt (periodicPartialSum initial values start count.toNat)).toInt =
        periodicPartialSum initial values start count.toNat :=
      Int32.toInt_ofInt_of_le hlast.1 hlast.2
    constructor
    · rintro ⟨⟩
      exact ⟨fun k _ hk => hall k hk, hvalue⟩
    · rintro ⟨-, hr⟩
      exact congrArg some (Int32.toInt_inj.mp (hvalue.trans hr.symm))
  · rw [if_neg hall]
    refine ⟨fun r => ⟨fun hr => absurd hr (by simp [Except.toOption]), ?_⟩, by simp⟩
    rintro ⟨h, -⟩
    refine absurd (fun k hk => ?_) hall
    cases k with
    | zero => exact hzero
    | succ k => exact h (k + 1) (Nat.le_add_left 1 k) hk

/-- From the second value on, with full cycles and a tail. -/
theorem checkedPeriodicSumI32_eleven :
    (∀ r, checkedPeriodicSumI32 0 [5, -2, 7, -1] 1 11 = some r ↔
        (∀ k, 1 ≤ k → k ≤ (11 : UInt64).toNat →
          InI32 (periodicPartialSum 0 [5, -2, 7, -1] 1 k)) ∧
        r.toInt = periodicPartialSum 0 [5, -2, 7, -1] 1 (11 : UInt64).toNat) ∧
      periodicSum 0 [5, -2, 7, -1] 1 11 ≠ .error .overflow :=
  checkedPeriodicSumI32_eq_some_iff (by decide) (by decide) 0 11

end

example : checkedPeriodicSumI32 0 [5, -2, 7, -1] 0 11 = some 28 := by decide +kernel

end BoaLigero
