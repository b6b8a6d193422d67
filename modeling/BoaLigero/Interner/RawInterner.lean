import Mathlib.Algebra.Order.Ring.Nat
import Mathlib.Data.List.Basic
import Mathlib.Data.List.Forall2
import Mathlib.Data.List.Nodup

/-!
# The Raw Interner

Strings are appended to the head, an allocation of fixed capacity, and are known by pointers into
it. When a string does not fit, a new head is allocated and the old one is kept, so that no
pointer is left behind: an allocation that would have to grow would move, and what points into it
would dangle. A dereferenced pointer is a part of an allocation that is still held; everything
else has no result.

## Main results

* `RawInterner.Holds.intern`, `RawInterner.Holds.internStatic` — interning a string adds it to
  the strings held, at the index returned, and leaves what all the other pointers point to.
-/

namespace BoaLigero

/-- A pointer to an interned string: a part of an allocation, or a static slice. -/
inductive InternedStr (C : Type)
  | stored (allocation start len : ℕ)
  | static (string : List C)

/-- An allocation with the characters pushed so far. -/
structure FixedString (C : Type) where
  allocation : ℕ
  capacity : ℕ
  inner : List C

/-- What the allocations hold at a pointer; no result is a dangling pointer. -/
def InternedStr.asRef {C : Type} (memory : List (FixedString C)) : InternedStr C → Option (List C)
  | .static string => some string
  | .stored allocation start len =>
      (memory.find? fun m => m.allocation = allocation).bind fun m =>
        if start + len ≤ m.inner.length then some ((m.inner.drop start).take len) else none

namespace FixedString

variable {C : Type}

/-- Pushes a string behind the others; no result is a reallocation, which moves them. -/
def pushUnchecked (self : FixedString C) (string : List C) :
    Option (InternedStr C × FixedString C) :=
  if self.inner.length + string.length ≤ self.capacity then
    some (.stored self.allocation self.inner.length string.length,
      { self with inner := self.inner ++ string })
  else none

/-- Pushes a string if there is room for it. -/
def push (self : FixedString C) (string : List C) : Option (InternedStr C × FixedString C) :=
  if self.inner.length + string.length ≤ self.capacity then self.pushUnchecked string else none

end FixedString

/-- Raw string interner, generic by a char type. Allocations are numbered. -/
structure RawInterner (C : Type) where
  symbolCache : List (InternedStr C × ℕ)
  spans : List (InternedStr C)
  head : FixedString C
  full : List (FixedString C)
  allocations : ℕ

namespace RawInterner

variable {C : Type}

/-- An interner without strings, whose head was allocated with a capacity. -/
def withCapacity (capacity : ℕ) : RawInterner C :=
  ⟨[], [], ⟨0, capacity, []⟩, [], 1⟩

/-- The allocations that are held. -/
def memory (self : RawInterner C) : List (FixedString C) := self.head :: self.full

/-- The string of an index. -/
def index (self : RawInterner C) (index : ℕ) : Option (List C) :=
  self.spans[index]?.bind fun ptr => ptr.asRef self.memory

variable [DecidableEq C]

/-- The entry of a string in the map from strings to indices. -/
def entry (self : RawInterner C) (string : List C) : Option (InternedStr C × ℕ) :=
  self.symbolCache.find? fun e => e.1.asRef self.memory = some string

/-- The index of a string. -/
def get (self : RawInterner C) (string : List C) : Option ℕ := (self.entry string).map Prod.snd

/-- Adds a pointer to a string. A string that is a key of the map already keeps its pointer. -/
def nextIndex (self : RawInterner C) (ptr : InternedStr C) : ℕ × RawInterner C :=
  let next := self.spans.length
  let isKey (e : InternedStr C × ℕ) : Bool := e.1.asRef self.memory = ptr.asRef self.memory
  (next,
    { self with
      spans := self.spans ++ [ptr]
      symbolCache :=
        if self.symbolCache.any isKey then
          self.symbolCache.map fun e => if isKey e then (e.1, next) else e
        else (ptr, next) :: self.symbolCache })

/-- Interns a static string. -/
def internStatic (self : RawInterner C) (string : List C) : ℕ × RawInterner C :=
  self.nextIndex (.static string)

/-- The least power of two that is not less (`usize::next_power_of_two`). -/
def nextPowerOfTwo (n : ℕ) : ℕ := if n ≤ 1 then 1 else 2 ^ ((n - 1).log2 + 1)

/-- Interns a string; no result is a reallocation. `alloc` is the capacity that is allocated
where one is asked for. -/
def intern (alloc : ℕ → ℕ) (self : RawInterner C) (string : List C) :
    Option (ℕ × RawInterner C) :=
  match self.head.push string with
  | some (ptr, head) => some (nextIndex { self with head } ptr)
  | none => do
      let newCap := nextPowerOfTwo (max self.head.capacity string.length + 1)
      let newHead : FixedString C := ⟨self.allocations, alloc newCap, []⟩
      let full := if self.head.inner.isEmpty then self.full else self.full ++ [self.head]
      let (ptr, head) ← newHead.pushUnchecked string
      return nextIndex { self with head, full, allocations := self.allocations + 1 } ptr

omit [DecidableEq C] in
theorem le_nextPowerOfTwo (n : ℕ) : n ≤ nextPowerOfTwo n := by
  rw [nextPowerOfTwo]
  split
  · assumption
  · have hlt : n - 1 < 2 ^ ((n - 1).log2 + 1) := Nat.lt_log2_self
    omega

/-! ### Pointers -/

omit [DecidableEq C]

theorem asRef_stored_iff {memory : List (FixedString C)}
    (hnodup : (memory.map FixedString.allocation).Nodup) {allocation start len : ℕ}
    {string : List C} :
    (InternedStr.stored allocation start len).asRef memory = some string ↔
      ∃ m ∈ memory, m.allocation = allocation ∧ start + len ≤ m.inner.length ∧
        (m.inner.drop start).take len = string := by
  have hfind : ∀ m ∈ memory, m.allocation = allocation →
      memory.find? (fun m => m.allocation = allocation) = some m := by
    intro m hm heq
    induction memory with
    | nil => cases hm
    | cons m' memory ih =>
        rw [List.map_cons, List.nodup_cons] at hnodup
        obtain rfl | hm := List.mem_cons.mp hm
        · exact List.find?_cons_of_pos (by simpa using heq)
        · have hne : m'.allocation ≠ allocation := fun h =>
            hnodup.1 (h ▸ heq ▸ List.mem_map_of_mem hm)
          rw [List.find?_cons_of_neg (by simpa using hne)]
          exact ih hnodup.2 hm
  rw [InternedStr.asRef, Option.bind_eq_some_iff]
  constructor
  · rintro ⟨m, hm, h⟩
    obtain ⟨hle, hslice⟩ := Option.ite_none_right_eq_some.mp h
    exact ⟨m, List.mem_of_find?_eq_some hm, by simpa using List.find?_some hm, hle,
      Option.some.inj hslice⟩
  · rintro ⟨m, hm, heq, hle, rfl⟩
    exact ⟨m, hfind m hm heq, if_pos hle⟩

/-- **Memory that grew** in place: what an allocation held is still in front, and allocations
are only given up while they are empty. -/
structure Grows (memory memory' : List (FixedString C)) : Prop where
  nodup : (memory.map FixedString.allocation).Nodup
  nodup' : (memory'.map FixedString.allocation).Nodup
  kept : ∀ m ∈ memory, m.inner ≠ [] →
    ∃ m' ∈ memory', m'.allocation = m.allocation ∧ m.inner <+: m'.inner

/-- A pointer to a string that is not empty stays what it is. -/
theorem Grows.asRef {memory memory' : List (FixedString C)} (h : Grows memory memory')
    {ptr : InternedStr C} {string : List C}
    (hptr : ∀ allocation start len, ptr = .stored allocation start len → 0 < len)
    (href : ptr.asRef memory = some string) : ptr.asRef memory' = some string := by
  cases ptr with
  | static s => exact href
  | stored allocation start len =>
      have hpos := hptr allocation start len rfl
      obtain ⟨m, hm, rfl, hle, rfl⟩ := (asRef_stored_iff h.nodup).mp href
      have hne : m.inner ≠ [] := by
        rintro hnil
        rw [hnil, List.length_nil] at hle
        omega
      obtain ⟨m', hm', heq, rest, hrest⟩ := h.kept m hm hne
      refine (asRef_stored_iff h.nodup').mpr ⟨m', hm', heq, ?_, ?_⟩
      · rw [← hrest, List.length_append]
        omega
      · rw [← hrest, List.drop_append_of_le_length (by omega),
          List.take_append_of_le_length (by rw [List.length_drop]; omega)]

/-! ### What an interner holds -/

/-- **The strings of an interner**: every pointer points to its string, the map leads from each
string to an index it has, and the head never outgrew its capacity. -/
structure Holds (interner : RawInterner C) (contents : List (List C)) : Prop where
  spans : List.Forall₂ (fun ptr s => ptr.asRef interner.memory = some s) interner.spans contents
  nonempty : ∀ allocation start len, .stored allocation start len ∈ interner.spans → 0 < len
  cached : ∀ e ∈ interner.symbolCache, e.1 ∈ interner.spans ∧
    ∃ s, e.1.asRef interner.memory = some s ∧ contents[e.2]? = some s
  covers : ∀ s ∈ contents, ∃ e ∈ interner.symbolCache, e.1.asRef interner.memory = some s
  room : interner.head.inner.length ≤ interner.head.capacity
  nodup : (interner.memory.map FixedString.allocation).Nodup
  fresh : ∀ m ∈ interner.memory, m.allocation < interner.allocations

variable {self self' : RawInterner C} {contents : List (List C)} {string : List C}

theorem holds_withCapacity (capacity : ℕ) : (withCapacity capacity : RawInterner C).Holds [] where
  spans := .nil
  nonempty _ _ _ h := nomatch h
  cached _ h := nomatch h
  covers _ h := nomatch h
  room := Nat.zero_le _
  nodup := List.nodup_singleton _
  fresh m hm := by
    obtain rfl := List.mem_singleton.mp hm
    exact Nat.one_pos

theorem Holds.length_eq (h : self.Holds contents) : self.spans.length = contents.length :=
  h.spans.length_eq

/-- **An index leads to its string.** -/
theorem Holds.index_eq (h : self.Holds contents) (n : ℕ) : self.index n = contents[n]? := by
  rw [index]
  rcases Nat.lt_or_ge n contents.length with hn | hn
  · have hspan : n < self.spans.length := h.length_eq ▸ hn
    have href := h.spans.get hspan hn
    rw [List.getElem?_eq_getElem hspan, Option.bind_some, List.getElem?_eq_getElem hn]
    exact href
  · rw [List.getElem?_eq_none (h.length_eq.symm ▸ hn), List.getElem?_eq_none hn]
    rfl

theorem Holds.get_eq_none_iff [DecidableEq C] (h : self.Holds contents) :
    self.get string = none ↔ string ∉ contents := by
  rw [get, Option.map_eq_none_iff, entry, List.find?_eq_none]
  constructor
  · intro hnone hmem
    obtain ⟨e, he, href⟩ := h.covers string hmem
    exact hnone e he (by simpa using href)
  · intro hnot e he href
    obtain ⟨-, s, hs, hget⟩ := h.cached e he
    have heq : some s = some string := hs.symm.trans (by simpa using href)
    obtain rfl := Option.some.inj heq
    exact hnot (List.mem_of_getElem? hget)

/-- **The map leads to an index of the string.** -/
theorem Holds.getElem?_of_get [DecidableEq C] (h : self.Holds contents) {n : ℕ}
    (hget : self.get string = some n) : contents[n]? = some string := by
  obtain ⟨e, he, rfl⟩ := Option.map_eq_some_iff.mp hget
  have href : e.1.asRef self.memory = some string := by
    simpa using List.find?_some he
  obtain ⟨-, s, hs, hn⟩ := h.cached e (List.mem_of_find?_eq_some he)
  rw [hn, ← hs, href]

/-- What is held is still held when the memory grows. -/
theorem Holds.grow (h : self.Holds contents) (hspans : self'.spans = self.spans)
    (hcache : self'.symbolCache = self.symbolCache) (hmemory : Grows self.memory self'.memory)
    (hroom : self'.head.inner.length ≤ self'.head.capacity)
    (hfresh : ∀ m ∈ self'.memory, m.allocation < self'.allocations) : self'.Holds contents := by
  have hkept : ∀ ptr ∈ self.spans, ∀ s, ptr.asRef self.memory = some s →
      ptr.asRef self'.memory = some s := by
    intro ptr hptr s href
    refine hmemory.asRef (fun allocation start len heq => ?_) href
    exact h.nonempty allocation start len (heq ▸ hptr)
  refine ⟨?_, ?_, ?_, ?_, hroom, hmemory.nodup', hfresh⟩
  · rw [hspans]
    refine List.forall₂_iff_get.mpr ⟨h.length_eq, fun n hn hn' => ?_⟩
    exact hkept _ (List.get_mem ..) _ (h.spans.get hn hn')
  · rw [hspans]
    exact h.nonempty
  · intro e he
    rw [hcache] at he
    obtain ⟨hmem, s, href, hget⟩ := h.cached e he
    exact ⟨hspans ▸ hmem, s, hkept e.1 hmem s href, hget⟩
  · intro s hs
    obtain ⟨e, he, href⟩ := h.covers s hs
    exact ⟨e, hcache ▸ he, hkept e.1 (h.cached e he).1 s href⟩

/-! ### Interning -/

variable [DecidableEq C]

/-- **A pointer is added** behind the others. -/
theorem Holds.nextIndex (h : self.Holds contents) {ptr : InternedStr C}
    (href : ptr.asRef self.memory = some string)
    (hptr : ∀ allocation start len, ptr = .stored allocation start len → 0 < len) :
    (self.nextIndex ptr).1 = contents.length ∧
      (self.nextIndex ptr).2.Holds (contents ++ [string]) := by
  refine ⟨h.length_eq, ?_⟩
  have hlast : (contents ++ [string])[self.spans.length]? = some string := by
    rw [h.length_eq, List.getElem?_concat_length]
  have hold : ∀ (n : ℕ) (s : List C),
      contents[n]? = some s → (contents ++ [string])[n]? = some s := by
    intro n s hs
    rw [List.getElem?_append_left (List.getElem?_eq_some_iff.mp hs).1, hs]
  refine ⟨?_, ?_, ?_, ?_, h.room, h.nodup, h.fresh⟩
  · exact List.rel_append h.spans (.cons href .nil)
  · intro allocation start len hmem
    obtain hmem | hmem := List.mem_append.mp hmem
    · exact h.nonempty allocation start len hmem
    · exact hptr allocation start len (List.mem_singleton.mp hmem).symm
  · intro e he
    simp only [RawInterner.nextIndex] at he ⊢
    split at he
    · -- The entry of the string leads to the new index, the others are left.
      obtain ⟨e, hmem, rfl⟩ := List.mem_map.mp he
      obtain ⟨hspan, s, hs, hget⟩ := h.cached e hmem
      split
      · next hkey =>
          have heq : e.1.asRef self.memory = some string := by simpa [href] using hkey
          exact ⟨List.mem_append_left _ hspan, string, heq, hlast⟩
      · exact ⟨List.mem_append_left _ hspan, s, hs, hold e.2 s hget⟩
    · obtain rfl | hmem := List.mem_cons.mp he
      · exact ⟨List.mem_append_right _ List.mem_cons_self, string, href, hlast⟩
      · obtain ⟨hspan, s, hs, hget⟩ := h.cached e hmem
        exact ⟨List.mem_append_left _ hspan, s, hs, hold e.2 s hget⟩
  · intro s hs
    simp only [RawInterner.nextIndex]
    have hkeyed : s ∈ contents → ∃ e ∈ self.symbolCache, e.1.asRef self.memory = some s :=
      h.covers s
    split
    · next hany =>
        have hmem : ∃ e ∈ self.symbolCache, e.1.asRef self.memory = some s := by
          obtain hs | hs := List.mem_append.mp hs
          · exact hkeyed hs
          · obtain rfl := List.mem_singleton.mp hs
            obtain ⟨e, he, hkey⟩ := List.any_eq_true.mp hany
            exact ⟨e, he, by simpa [href] using hkey⟩
        obtain ⟨e, he, heq⟩ := hmem
        refine ⟨_, List.mem_map_of_mem he, ?_⟩
        split <;> exact heq
    · obtain hs | hs := List.mem_append.mp hs
      · obtain ⟨e, he, heq⟩ := hkeyed hs
        exact ⟨e, List.mem_cons_of_mem _ he, heq⟩
      · obtain rfl := List.mem_singleton.mp hs
        exact ⟨_, List.mem_cons_self, href⟩

/-- A static string is added. -/
theorem Holds.internStatic (h : self.Holds contents) (string : List C) :
    (self.internStatic string).1 = contents.length ∧
      (self.internStatic string).2.Holds (contents ++ [string]) :=
  h.nextIndex rfl fun _ _ _ heq => nomatch heq

omit [DecidableEq C] in
/-- A string that is pushed to the head is what its pointer points to. -/
theorem asRef_push {head : FixedString C} {full : List (FixedString C)}
    (hnodup : ((head :: full).map FixedString.allocation).Nodup) :
    (InternedStr.stored head.allocation head.inner.length string.length).asRef
      ({ head with inner := head.inner ++ string } :: full) = some string := by
  have hnodup' : (({ head with inner := head.inner ++ string } :: full).map
      FixedString.allocation).Nodup := hnodup
  refine (asRef_stored_iff hnodup').mpr ⟨_, List.mem_cons_self, rfl, ?_, ?_⟩
  · exact List.length_append.symm.le
  · rw [List.drop_left, List.take_length]

/-- **A string is added**, in the head or in a new one, without moving the others. -/
theorem Holds.intern {alloc : ℕ → ℕ} (halloc : ∀ n, n ≤ alloc n) (h : self.Holds contents)
    (hstring : string ≠ []) :
    ∃ self', self.intern alloc string = some (contents.length, self') ∧
      self'.Holds (contents ++ [string]) := by
  have hlen : 0 < string.length := List.length_pos_iff.mpr hstring
  rw [RawInterner.intern, FixedString.push]
  by_cases hroom : self.head.inner.length + string.length ≤ self.head.capacity
  · -- There is room in the head.
    rw [if_pos hroom, FixedString.pushUnchecked, if_pos hroom]
    have hgrows : Grows self.memory
        ({ self.head with inner := self.head.inner ++ string } :: self.full) := by
      refine ⟨h.nodup, h.nodup, fun m hm _ => ?_⟩
      obtain rfl | hm := List.mem_cons.mp hm
      · exact ⟨_, List.mem_cons_self, rfl, List.prefix_append ..⟩
      · exact ⟨m, List.mem_cons_of_mem _ hm, rfl, List.prefix_rfl⟩
    have hpushed : Holds
        { self with head := { self.head with inner := self.head.inner ++ string } } contents :=
      h.grow rfl rfl hgrows (by rw [List.length_append]; exact hroom) (fun m hm => by
        obtain rfl | hm := List.mem_cons.mp hm
        · exact h.fresh self.head List.mem_cons_self
        · exact h.fresh m (List.mem_cons_of_mem _ hm))
    have hnext := hpushed.nextIndex (asRef_push h.nodup) fun _ _ _ heq => by
      cases heq
      exact hlen
    exact ⟨_, congrArg some (Prod.ext hnext.1 rfl), hnext.2⟩
  · -- A new head is allocated, and the old one is kept unless it is empty.
    set newCap := nextPowerOfTwo (max self.head.capacity string.length + 1) with hnewCap
    have hcap : string.length ≤ alloc newCap := by
      have hpower := le_nextPowerOfTwo (max self.head.capacity string.length + 1)
      have hmax := le_max_right self.head.capacity string.length
      have hcapacity := halloc newCap
      omega
    set full := if self.head.inner.isEmpty then self.full else self.full ++ [self.head] with hfull
    set newHead : FixedString C := ⟨self.allocations, alloc newCap, []⟩ with hnewHead
    have hsub : ∀ m ∈ full, m ∈ self.memory := by
      intro m hm
      rw [hfull] at hm
      split at hm
      · exact List.mem_cons_of_mem _ hm
      · obtain hm | hm := List.mem_append.mp hm
        · exact List.mem_cons_of_mem _ hm
        · obtain rfl := List.mem_singleton.mp hm
          exact List.mem_cons_self
    have hkept : ∀ m ∈ self.memory, m.inner ≠ [] → m ∈ full := by
      intro m hm hne
      rw [hfull]
      obtain rfl | hm := List.mem_cons.mp hm
      · rw [if_neg (by simpa using hne)]
        exact List.mem_append_right _ List.mem_cons_self
      · split
        · exact hm
        · exact List.mem_append_left _ hm
    have hnodup : ((newHead :: full).map FixedString.allocation).Nodup := by
      rw [List.map_cons, List.nodup_cons]
      constructor
      · intro hmem
        obtain ⟨m, hm, heq⟩ := List.mem_map.mp hmem
        exact absurd heq (Nat.ne_of_lt (h.fresh m (hsub m hm)))
      · have hold := h.nodup
        rw [RawInterner.memory, List.map_cons, List.nodup_cons] at hold
        rw [hfull]
        split
        · exact hold.2
        · rw [List.map_append, List.map_singleton]
          exact hold.2.append (List.nodup_singleton _)
            (List.disjoint_singleton.mpr hold.1)
    have hgrows : Grows self.memory ({ newHead with inner := string } :: full) :=
      ⟨h.nodup, hnodup, fun m hm hne =>
        ⟨m, List.mem_cons_of_mem _ (hkept m hm hne), rfl, List.prefix_rfl⟩⟩
    have hpushed : Holds
        { self with
          head := { newHead with inner := string }, full, allocations := self.allocations + 1 }
        contents :=
      h.grow rfl rfl hgrows hcap (fun m hm => by
        obtain rfl | hm := List.mem_cons.mp hm
        · exact Nat.lt_succ_self _
        · exact Nat.lt_succ_of_lt (h.fresh m (hsub m hm)))
    have hnext := hpushed.nextIndex (asRef_push hnodup) fun _ _ _ heq => by
      cases heq
      exact hlen
    rw [if_neg hroom]
    simp only [FixedString.pushUnchecked]
    rw [if_pos (by simpa using hcap)]
    exact ⟨_, congrArg some (Prod.ext hnext.1 rfl), hnext.2⟩

end RawInterner

end BoaLigero
