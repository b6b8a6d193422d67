import BoaLigero.Util.Digits
import BoaLigero.Util.NaturalDouble

/-!
# Digits Read with Rounded Steps

Numbers read digit by digit with doubles, in a base that is a power of two. Every step is rounded,
and the digits that come after the rounding are too small to change it. The result is the nearest
double unless the digits that do not fit any more begin as a tie that was rounded down, and later
ones are not zero.

## Main results

* `hornerDouble_eq_iff` — when the rounded steps end with the nearest double.
-/

namespace F64

open Digits

/-- The digits read with doubles, each step rounded. -/
def hornerDouble (base : ℕ) (digits : List ℕ) : F64 :=
  digits.foldl (fun v d => mulAdd v (double base) (double d)) (double 0)

/-- The rounded steps on numbers. -/
def hornerNearest (base : ℕ) (digits : List ℕ) (n : ℕ) : ℕ :=
  digits.foldl (fun n d => nearest (n * base + d)) n

/-- The first digits are a tie between two doubles, the lower of them even, and a later digit breaks
it upwards. -/
def BrokenTie (base : ℕ) (digits : List ℕ) : Prop :=
  ∃ front rest p u, digits = front ++ rest ∧ 2 ^ 51 ≤ p ∧ p < 2 ^ 52 ∧ 2 ^ u < base ∧
    ofDigits base front = (4 * p + 1) * 2 ^ u ∧ ofDigits base rest ≠ 0 ∧
      ofDigits base digits < 2 ^ 1024

/-! ### The rounded steps -/

theorem hornerDouble_eq {base : ℕ} (hbase : base ≠ 0) (hsmall : base < 2 ^ 53) {digits : List ℕ}
    (hdigits : ∀ d ∈ digits, d < base) :
    hornerDouble base digits = double (hornerNearest base digits 0) := by
  have hsteps (w : ℕ) (hw : nearest w = w) :
      digits.foldl (fun v d => mulAdd v (double base) (double d)) (double w) =
        double (hornerNearest base digits w) := by
    induction digits generalizing w with
    | nil => rfl
    | cons d digits ih =>
        have hd := hdigits d List.mem_cons_self
        rw [List.foldl_cons, mulAdd_double hw hsmall hbase (hd.trans hsmall), hornerNearest,
          List.foldl_cons, ← hornerNearest, ← double_nearest (w * base + d),
          ih (fun d hd => hdigits d (List.mem_cons_of_mem _ hd)) _ (nearest_nearest _)]
  exact hsteps 0 rfl

/-- The steps are exact as long as the number has 53 bits. -/
theorem hornerNearest_of_lt {base : ℕ} (hbase : 0 < base) {digits : List ℕ}
    (h : ofDigits base digits < 2 ^ 53) : hornerNearest base digits 0 = ofDigits base digits := by
  induction digits using List.reverseRecOn with
  | nil => rfl
  | append_singleton digits d ih =>
      have hprefix := (ofDigits_le_append hbase digits [d]).trans_lt h
      have hexact := ih hprefix
      rw [hornerNearest] at hexact ⊢
      rw [List.foldl_append, hexact, List.foldl_cons, List.foldl_nil, ← ofDigits_concat,
        nearest_of_lt h]

/-- A digit that is read after the significand is full is lost. -/
theorem nearest_mul_add {s e k d : ℕ} (hlow : 2 ^ 52 ≤ s) (hhigh : s < 2 ^ 53) (he : e ≠ 0)
    (hd : d < 2 ^ k) : nearest (s * 2 ^ e * 2 ^ k + d) = s * 2 ^ e * 2 ^ k := by
  have hdouble : 2 * d < 2 ^ (e + k) := by
    calc 2 * d < 2 * 2 ^ k := by omega
      _ = 2 ^ (1 + k) := by rw [pow_add, pow_one]
      _ ≤ 2 ^ (e + k) := Nat.pow_le_pow_right two_pos (by omega)
  rw [Nat.mul_assoc, ← pow_add, nearest_of_significand hlow hhigh (by omega), divHalfEven,
    Nat.mul_comm s, Nat.mul_add_mod, Nat.mod_eq_of_lt (by omega), if_pos hdouble,
    Nat.mul_add_div (Nat.two_pow_pos _), Nat.div_eq_of_lt (by omega), Nat.add_zero, Nat.mul_comm]

theorem hornerNearest_of_full {k : ℕ} {digits : List ℕ} (hdigits : ∀ d ∈ digits, d < 2 ^ k)
    {s e : ℕ} (hlow : 2 ^ 52 ≤ s) (hhigh : s < 2 ^ 53) (he : e ≠ 0) :
    hornerNearest (2 ^ k) digits (s * 2 ^ e) = s * 2 ^ e * (2 ^ k) ^ digits.length := by
  induction digits generalizing e with
  | nil => exact (Nat.mul_one _).symm
  | cons d digits ih =>
      rw [hornerNearest, List.foldl_cons, ← hornerNearest,
        nearest_mul_add hlow hhigh he (hdigits d List.mem_cons_self), Nat.mul_assoc s, ← pow_add,
        ih (fun d hd => hdigits d (List.mem_cons_of_mem _ hd)) (by omega), List.length_cons,
        pow_add, pow_succ]
      ring

/-! ### The later digits -/

/-- **Later digits** change the nearest quotient only where they break a tie upwards. -/
theorem divHalfEven_mul_add {n d k rest : ℕ} (hk : rest < k) (heven : d % 2 = 0) (hd : 0 < d) :
    divHalfEven (n * k + rest) (d * k) =
      if rest ≠ 0 ∧ 2 * (n % d) = d ∧ n / d % 2 = 0 then divHalfEven n d + 1
      else divHalfEven n d := by
  have hkpos : 0 < k := by omega
  have hdk : 0 < d * k := Nat.mul_pos hd hkpos
  have hsplit : n * k + rest = d * k * (n / d) + (n % d * k + rest) := by
    conv_lhs => rw [← Nat.div_add_mod n d]
    ring
  have hrest : n % d * k + rest < d * k := by
    calc n % d * k + rest < (n % d + 1) * k := by rw [Nat.succ_mul]; omega
      _ ≤ d * k := Nat.mul_le_mul_right k (Nat.mod_lt n hd)
  have hdiv : (n * k + rest) / (d * k) = n / d := by
    rw [hsplit, Nat.mul_add_div hdk, Nat.div_eq_of_lt hrest, Nat.add_zero]
  have hmod : (n * k + rest) % (d * k) = n % d * k + rest := by
    rw [hsplit, Nat.mul_add_mod, Nat.mod_eq_of_lt hrest]
  rw [divHalfEven, hdiv, hmod, divHalfEven]
  obtain ⟨half, rfl⟩ : ∃ half, d = 2 * half := ⟨d / 2, by omega⟩
  generalize n % (2 * half) = m
  generalize n / (2 * half) = q
  obtain hlt | rfl | hgt := Nat.lt_trichotomy m half
  · have hle : (m + 1) * k ≤ half * k := Nat.mul_le_mul_right k hlt
    have : 2 * half * k = 2 * (half * k) := Nat.mul_assoc 2 half k
    rw [Nat.succ_mul] at hle
    rw [if_pos (by omega), if_neg (by omega), if_pos (by omega)]
  · have : 2 * m * k = 2 * (m * k) := Nat.mul_assoc 2 m k
    rw [if_neg (by omega), if_neg (lt_irrefl _), if_neg (lt_irrefl _)]
    split_ifs <;> omega
  · have hle : (half + 1) * k ≤ m * k := Nat.mul_le_mul_right k hgt
    have : 2 * half * k = 2 * (half * k) := Nat.mul_assoc 2 half k
    rw [Nat.succ_mul] at hle
    rw [if_neg (by omega), if_pos (by omega), if_neg (by omega), if_neg (by omega),
      if_pos (by omega)]

/-- A number that was read before later digits: it is rounded as with them, unless they break a
tie. -/
theorem nearest_mul_add_rest {n j rest : ℕ} (hn : 2 ^ 53 ≤ n) (hrest : rest < 2 ^ j) :
    nearest (n * 2 ^ j + rest) =
      if rest ≠ 0 ∧ 2 * (n % 2 ^ (n.log2 - 52)) = 2 ^ (n.log2 - 52) ∧
          n / 2 ^ (n.log2 - 52) % 2 = 0 then
        nearest n * 2 ^ j + 2 ^ (n.log2 - 52 + j)
      else nearest n * 2 ^ j := by
  have hne : n ≠ 0 := (Nat.two_pow_pos 53 |>.trans_le hn).ne'
  have hlog : 53 ≤ n.log2 := (Nat.le_log2 hne).mpr hn
  obtain ⟨s, low, hlow, hhigh, hlt, heq⟩ := exists_significand (n := n) (by omega)
  have heven : 2 ^ (n.log2 - 52) % 2 = 0 := by
    rw [show n.log2 - 52 = n.log2 - 53 + 1 by omega, pow_succ, Nat.mul_mod_left]
  have hsplit : n * 2 ^ j + rest = s * 2 ^ (n.log2 - 52 + j) + (low * 2 ^ j + rest) := by
    conv_lhs => rw [heq]
    rw [pow_add]
    ring
  have hlowrest : low * 2 ^ j + rest < 2 ^ (n.log2 - 52 + j) := by
    rw [pow_add]
    calc low * 2 ^ j + rest < (low + 1) * 2 ^ j := by rw [Nat.succ_mul]; omega
      _ ≤ _ := Nat.mul_le_mul_right _ hlt
  rw [hsplit, nearest_of_significand hlow hhigh hlowrest, ← hsplit, pow_add,
    divHalfEven_mul_add hrest heven (Nat.two_pow_pos _), nearest]
  split_ifs <;> ring

/-! ### Broken ties -/

section Ties

variable {k : ℕ} {digits : List ℕ}

/-- A number with a full significand whose rest is a tie, and that is rounded down to even. -/
theorem tie_iff {n : ℕ} (hn : 2 ^ 53 ≤ n) :
    2 * (n % 2 ^ (n.log2 - 52)) = 2 ^ (n.log2 - 52) ∧ n / 2 ^ (n.log2 - 52) % 2 = 0 ↔
      ∃ p u, 2 ^ 51 ≤ p ∧ p < 2 ^ 52 ∧ n = (4 * p + 1) * 2 ^ u := by
  have hne : n ≠ 0 := (Nat.two_pow_pos 53 |>.trans_le hn).ne'
  have hlog : 53 ≤ n.log2 := (Nat.le_log2 hne).mpr hn
  constructor
  · rintro ⟨htie, heven⟩
    obtain ⟨s, low, hlow, hhigh, hlt, heq⟩ := exists_significand (n := n) (by omega)
    obtain ⟨u, hu⟩ : ∃ u, n.log2 - 52 = u + 1 := ⟨n.log2 - 53, by omega⟩
    rw [hu] at htie heven hlt heq
    rw [heq, Nat.mul_comm s, Nat.mul_add_mod, Nat.mod_eq_of_lt hlt, pow_succ] at htie
    rw [heq, Nat.mul_comm s, Nat.mul_add_div (Nat.two_pow_pos _), Nat.div_eq_of_lt hlt] at heven
    refine ⟨s / 2, u, by omega, by omega, ?_⟩
    rw [heq, show 4 * (s / 2) = 2 * s by omega, show low = 2 ^ u by omega, pow_succ]
    ring
  · rintro ⟨p, u, hlow, hhigh, heq⟩
    have hsplit : n = 2 ^ (u + 1) * (2 * p) + 2 ^ u := by
      rw [heq, pow_succ]
      ring
    have hu : 2 ^ u < 2 ^ (u + 1) := Nat.pow_lt_pow_succ one_lt_two
    have hlog2 : n.log2 = 53 + u := by
      refine log2_of_bounds ?_ ?_
      · rw [heq, pow_add]
        exact Nat.mul_le_mul_right _ (by omega)
      · rw [heq, Nat.add_right_comm, pow_add]
        exact Nat.mul_lt_mul_of_pos_right (by omega) (Nat.two_pow_pos u)
    rw [hlog2, show 53 + u - 52 = u + 1 by omega, hsplit, Nat.mul_add_mod,
      Nat.mod_eq_of_lt hu, Nat.mul_add_div (Nat.two_pow_pos _), Nat.div_eq_of_lt hu]
    exact ⟨by rw [pow_succ, Nat.mul_comm], by omega⟩

/-- The first digits that fill the significand. -/
theorem full_of_concat {front : List ℕ} {d : ℕ} (hd : d < 2 ^ k)
    (hlt : ofDigits (2 ^ k) front < 2 ^ 53) :
    ofDigits (2 ^ k) (front ++ [d]) < 2 ^ 53 * 2 ^ k := by
  rw [ofDigits_concat]
  calc ofDigits (2 ^ k) front * 2 ^ k + d < (ofDigits (2 ^ k) front + 1) * 2 ^ k := by
        rw [Nat.succ_mul]
        omega
    _ ≤ 2 ^ 53 * 2 ^ k := Nat.mul_le_mul_right _ hlt

/-- Only the first digits that fill the significand can be a tie. -/
theorem brokenTie_iff {front rest : List ℕ} {d : ℕ} (hd : d < 2 ^ k)
    (hlt : ofDigits (2 ^ k) front < 2 ^ 53) (hge : 2 ^ 53 ≤ ofDigits (2 ^ k) (front ++ [d])) :
    BrokenTie (2 ^ k) ((front ++ [d]) ++ rest) ↔
      (∃ p u, 2 ^ 51 ≤ p ∧ p < 2 ^ 52 ∧ ofDigits (2 ^ k) (front ++ [d]) = (4 * p + 1) * 2 ^ u) ∧
        ofDigits (2 ^ k) rest ≠ 0 ∧ ofDigits (2 ^ k) ((front ++ [d]) ++ rest) < 2 ^ 1024 := by
  have hpos := Nat.two_pow_pos k
  constructor
  · rintro ⟨front', rest', p, u, hsplit, hlow, hhigh, hu, hfront, hrest, hbound⟩
    have hreach : 2 ^ 53 ≤ ofDigits (2 ^ k) front' := by
      rw [hfront]
      have := Nat.one_le_two_pow (n := u)
      nlinarith
    have hnotfull : ofDigits (2 ^ k) front' < 2 ^ 53 * 2 ^ k := by
      have hk : 2 ^ (u + 1) ≤ 2 ^ k :=
        Nat.pow_le_pow_right two_pos ((Nat.pow_lt_pow_iff_right one_lt_two).mp hu)
      rw [hfront]
      calc (4 * p + 1) * 2 ^ u < 2 ^ 54 * 2 ^ u :=
            Nat.mul_lt_mul_of_pos_right (by omega) (Nat.two_pow_pos u)
        _ = 2 ^ 53 * 2 ^ (u + 1) := by rw [pow_succ]; ring
        _ ≤ 2 ^ 53 * 2 ^ k := Nat.mul_le_mul_left _ hk
    -- A longer prefix is too large, and a shorter one too small.
    have heq : front' = front ++ [d] ∧ rest' = rest := by
      obtain ⟨more, hmore, hrest'⟩ | ⟨more, hmore, hrest'⟩ := List.append_eq_append_iff.mp hsplit
      · cases more with
        | nil =>
            rw [List.append_nil] at hmore
            exact ⟨hmore, hrest'.symm⟩
        | cons d' more =>
            have hlarge := @ofDigits_mul_le (2 ^ k) (front ++ [d]) (d' :: more)
            rw [← hmore, List.length_cons, pow_succ] at hlarge
            have : 2 ^ 53 * 2 ^ k ≤
                ofDigits (2 ^ k) (front ++ [d]) * ((2 ^ k) ^ more.length * 2 ^ k) :=
              Nat.mul_le_mul hge (Nat.le_mul_of_pos_left _ (Nat.pow_pos hpos))
            omega
      · obtain rfl | ⟨more', last, rfl⟩ := List.eq_nil_or_concat more
        · rw [List.append_nil] at hmore
          exact ⟨hmore.symm, hrest'⟩
        · have hprefix : front = front' ++ more' := by
            rw [List.concat_eq_append, ← List.append_assoc] at hmore
            exact (List.append_inj' hmore rfl).1
          have := ofDigits_le_append hpos front' more'
          rw [← hprefix] at this
          omega
    obtain ⟨rfl, rfl⟩ := heq
    exact ⟨⟨p, u, hlow, hhigh, hfront⟩, hrest, hbound⟩
  · rintro ⟨⟨p, u, hlow, hhigh, hfront⟩, hrest, hbound⟩
    refine ⟨front ++ [d], rest, p, u, rfl, hlow, hhigh, ?_, hfront, hrest, hbound⟩
    have hfull := full_of_concat hd hlt
    rw [hfront] at hfull
    have : 2 ^ 53 * 2 ^ u < 2 ^ 53 * 2 ^ k :=
      (Nat.mul_le_mul_right _ (by omega)).trans_lt hfull
    exact Nat.lt_of_mul_lt_mul_left this

/-- A number that is rounded and moved, against the number that is moved and rounded. -/
theorem double_moved_iff {n j rest : ℕ} (hn : 2 ^ 53 ≤ n) (hrest : rest < 2 ^ j) :
    double (nearest n * 2 ^ j) = double (n * 2 ^ j + rest) ↔
      ¬ ((2 * (n % 2 ^ (n.log2 - 52)) = 2 ^ (n.log2 - 52) ∧ n / 2 ^ (n.log2 - 52) % 2 = 0) ∧
        rest ≠ 0 ∧ n * 2 ^ j + rest < 2 ^ 1024) := by
  have hmoved : nearest (nearest n * 2 ^ j) = nearest n * 2 ^ j := by
    obtain ⟨s, e, -, hlow, hhigh, heq⟩ := exists_nearest (n := n) (by omega)
    rw [heq, Nat.mul_assoc, ← pow_add, nearest_mul_two_pow hlow hhigh]
  rw [double_eq_iff, hmoved, nearest_mul_add_rest hn hrest]
  split
  · next htie =>
      obtain ⟨hne, hhalf, heven⟩ := htie
      have hunit := Nat.two_pow_pos (n.log2 - 52 + j)
      -- The number is infinite if and only if its significand alone is.
      have hlarge : 2 ^ 1024 ≤ nearest n * 2 ^ j ↔ 2 ^ 1024 ≤ n * 2 ^ j + rest := by
        obtain ⟨s, low, hlow, hhigh, hlt, heq⟩ := exists_significand (n := n) (by omega)
        have hs : n / 2 ^ (n.log2 - 52) = s := by
          refine Nat.div_eq_of_lt_le (by omega) ?_
          rw [Nat.succ_mul]
          omega
        have hdown : nearest n = s * 2 ^ (n.log2 - 52) := by
          rw [nearest, divHalfEven, if_neg (by omega), if_neg (by omega), if_pos heven, hs]
        have hsplit : n * 2 ^ j + rest = s * 2 ^ (n.log2 - 52 + j) + (low * 2 ^ j + rest) := by
          conv_lhs => rw [heq]
          rw [pow_add]
          ring
        have hlowrest : low * 2 ^ j + rest < 2 ^ (n.log2 - 52 + j) := by
          rw [pow_add]
          calc low * 2 ^ j + rest < (low + 1) * 2 ^ j := by rw [Nat.succ_mul]; omega
            _ ≤ _ := Nat.mul_le_mul_right _ hlt
        rw [hdown, Nat.mul_assoc, ← pow_add, hsplit]
        refine ⟨fun h => h.trans (Nat.le_add_right _ _), fun h => ?_⟩
        have hexponent : 1024 < 53 + (n.log2 - 52 + j) := by
          refine (Nat.pow_lt_pow_iff_right one_lt_two).mp (h.trans_lt ?_)
          calc s * 2 ^ (n.log2 - 52 + j) + (low * 2 ^ j + rest)
              < (s + 1) * 2 ^ (n.log2 - 52 + j) := by rw [Nat.succ_mul]; omega
            _ ≤ 2 ^ 53 * 2 ^ (n.log2 - 52 + j) := Nat.mul_le_mul_right _ hhigh
            _ = 2 ^ (53 + (n.log2 - 52 + j)) := (pow_add _ _ _).symm
        calc 2 ^ 1024 ≤ 2 ^ (52 + (n.log2 - 52 + j)) := Nat.pow_le_pow_right two_pos (by omega)
          _ = 2 ^ 52 * 2 ^ (n.log2 - 52 + j) := pow_add _ _ _
          _ ≤ s * 2 ^ (n.log2 - 52 + j) := Nat.mul_le_mul_right _ hlow
      constructor
      · rintro (heq | ⟨hinfinite, -⟩) ⟨-, -, hfinite⟩
        · omega
        · exact absurd (hlarge.mp hinfinite) hfinite.not_ge
      · intro h
        have hinfinite : 2 ^ 1024 ≤ nearest n * 2 ^ j :=
          hlarge.mpr (not_lt.mp fun hlt => h ⟨⟨hhalf, heven⟩, hne, hlt⟩)
        exact .inr ⟨hinfinite, hinfinite.trans (Nat.le_add_right _ _)⟩
  · next hno => exact iff_of_true (.inl rfl) fun h => hno ⟨h.2.1, h.1⟩

theorem BrokenTie.lt {base : ℕ} (hbase : 0 < base) (h : BrokenTie base digits) :
    2 ^ 53 < ofDigits base digits := by
  obtain ⟨front, rest, p, u, rfl, hlow, -, -, hfront, -, -⟩ := h
  have hle := ofDigits_le_append hbase front rest
  have : 2 ^ 53 + 1 ≤ (4 * p + 1) * 2 ^ u :=
    (show 2 ^ 53 + 1 ≤ 4 * p + 1 by omega).trans (Nat.le_mul_of_pos_right _ (Nat.two_pow_pos u))
  omega

/-- **The rounded steps** end with the nearest double unless later digits break a tie that was
rounded down. -/
theorem hornerDouble_eq_iff (hk : k < 53) (hdigits : ∀ d ∈ digits, d < 2 ^ k) :
    hornerDouble (2 ^ k) digits = double (ofDigits (2 ^ k) digits) ↔
      ¬ BrokenTie (2 ^ k) digits := by
  have hpos := Nat.two_pow_pos k
  rw [hornerDouble_eq hpos.ne' (Nat.pow_lt_pow_right one_lt_two hk) hdigits]
  obtain hsmall | hlarge := Nat.lt_or_ge (ofDigits (2 ^ k) digits) (2 ^ 53)
  · rw [hornerNearest_of_lt hpos hsmall]
    exact iff_of_true rfl fun htie => (htie.lt hpos).not_gt hsmall
  · obtain ⟨front, d, rest, rfl, hlt, hge⟩ := exists_first_reaching (by decide) hlarge
    have hd : d < 2 ^ k := hdigits d (by simp)
    have hrest : ∀ d' ∈ rest, d' < 2 ^ k := fun d' h => hdigits d' (List.mem_append_right _ h)
    have hrestlt : ofDigits (2 ^ k) rest < 2 ^ (k * rest.length) := by
      have := ofDigits_lt hrest
      rwa [← pow_mul] at this
    -- The significand is full after the last of the first digits, and the rest only moves it.
    have hsteps : hornerNearest (2 ^ k) ((front ++ [d]) ++ rest) 0 =
        nearest (ofDigits (2 ^ k) (front ++ [d])) * 2 ^ (k * rest.length) := by
      have hexact := hornerNearest_of_lt hpos hlt
      obtain ⟨s, e, he, hlow, hhigh, heq⟩ := exists_nearest (n := ofDigits (2 ^ k) (front ++ [d]))
        (by omega)
      have hlog : 53 ≤ (ofDigits (2 ^ k) (front ++ [d])).log2 :=
        (Nat.le_log2 (by omega)).mpr hge
      rw [hornerNearest] at hexact ⊢
      rw [List.foldl_append, List.foldl_append, hexact, List.foldl_cons, List.foldl_nil,
        ← ofDigits_concat, heq, ← hornerNearest,
        hornerNearest_of_full hrest hlow hhigh (by omega), ← pow_mul]
    have hvalue : ofDigits (2 ^ k) ((front ++ [d]) ++ rest) =
        ofDigits (2 ^ k) (front ++ [d]) * 2 ^ (k * rest.length) + ofDigits (2 ^ k) rest := by
      rw [ofDigits_append, ← pow_mul]
    rw [brokenTie_iff hd hlt hge, ← tie_iff hge, hsteps, hvalue]
    exact double_moved_iff hge hrestlt

end Ties

end F64
