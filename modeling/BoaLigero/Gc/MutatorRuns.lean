import BoaLigero.Gc.MemorySafety
import Mathlib.Data.List.Find

/-!
# Runs of Programs with a Garbage Collected Heap

Every step of a program keeps its heap sound, whatever it allocates, drops or moves, and wherever
its allocations run a collection. A step that allocates an ephemeron for a weak map does so while
the table is borrowed, so that the entries are held from outside.

## Main results

* `Sound.perform` — a step that is allowed leaves a sound program or fails for a reason that is
  the program's own.
* `sound_of_reachable` — every state that a program can reach is sound.
* `reachable_memory_safe` — in no run does a handle dangle, is a box freed twice or too early, or
  does an assertion of the collector fail.
* `reachable_weak_pointers` — a weak pointer has its box exactly as long as that exists.
* `reachable_collect` — what a collection leaves is what can be reached, and looks as before.
-/

namespace BoaLigero

variable {B E W : Type} [DecidableEq B] [DecidableEq E]

namespace Mutator

open BoaGc Liveness

variable {m m' : Mutator B E W}

/-! ### Allocation -/

/-- Allocating a box. -/
theorem Sound.gcNew (h : m.Sound) {node : B} {size : ℕ} {value : List (Handle B E)}
    (hfresh : m.FreshBox node) (hvalue : value.Subperm m.roots) :
    ∃ m', m.gcNew node size value = .ok m' ∧ m'.Sound := by
  obtain ⟨m₁, heq, hsound, hroots, -⟩ := h.manageState
  refine ⟨m₁.pushBox node size (.handles value), ?_, hsound.pushBox (hfresh m₁ heq) ?_⟩
  · rw [Mutator.gcNew, heq]
    rfl
  · rw [hroots]
    exact hvalue

/-- **Allocating an ephemeron** for a box that the program can get at. Borrowed cells are left
alone. -/
theorem Sound.ephemeronNew (h : m.Sound) {eph : E} (size : ℕ) {key : B}
    {value : List (Handle B E)} (hfresh : m.FreshEphemeron eph) (hkey : m.Reachable (.gc key))
    (hvalue : value.Subperm m.roots) :
    ∃ m', m.ephemeronNew eph size key value = .ok m' ∧ m'.Sound ∧
      m'.roots = .ephemeron eph :: m.roots.diff value ∧
      (∀ b, m.Reachable (.gc b) → b ∈ m'.gc.strongs) ∧ m'.gc.weakMaps ⊆ m.gc.weakMaps ∧
      ∀ b, (m'.gc.box b).value = (m.gc.box b).value ∨
        ∃ table, (m.gc.box b).value = .weakMap .unused table := by
  obtain ⟨m₁, heq, hsound, hroots, -, -, howns, hmaps, hvalues⟩ := h.manageState
  refine ⟨m₁.pushEphemeron eph size (some (key, value)), ?_, ?_, ?_, fun b hb => howns (.gc b) hb,
    hmaps, hvalues⟩
  · rw [Mutator.ephemeronNew, heq]
    rfl
  · refine hsound.pushEphemeron (hfresh m₁ heq) (fun k hk => ?_) ?_
    · obtain rfl : key = k := Option.some.inj hk
      exact howns (.gc key) hkey
    · rw [hroots]
      exact hvalue
  · rw [← hroots]
    rfl

/-- Allocating an ephemeron without a key. -/
theorem Sound.ephemeronEmpty (h : m.Sound) {eph : E} {size : ℕ} (hfresh : m.FreshEphemeron eph) :
    ∃ m', m.ephemeronEmpty eph size = .ok m' ∧ m'.Sound := by
  obtain ⟨m₁, heq, hsound, -⟩ := h.manageState
  refine ⟨m₁.pushEphemeron eph size none, ?_,
    hsound.pushEphemeron (hfresh m₁ heq) (fun k hk => ?_) (List.nil_subperm)⟩
  · rw [Mutator.ephemeronEmpty, heq]
    rfl
  · cases hk

/-- Giving a key to an ephemeron that never had one. -/
theorem Sound.set (h : m.Sound) {eph : E} {key : B} (heph : .ephemeron eph ∈ m.roots)
    (hnone : m.target eph = none) (hkey : .gc key ∈ m.roots) : (m.set eph key).Sound := by
  have hweak : eph ∈ m.gc.weaks := h.roots _ heph
  have hempty : m.gc.content (.ephemeron eph) = [] := by
    cases hdata : m.gc.key eph with
    | none =>
        rw [content, EphemeronBox.visited, Option.map_eq_none_iff.mp hdata]
    | some b =>
        have hkeyed := h.keyed eph hweak b hdata
        rw [hnone] at hkeyed
        cases hkeyed
  refine h.setData hweak (fun x => ?_) (fun k hk => ?_) (fun hd => ?_) fun e he => ?_
  · rw [hempty]
    rfl
  · obtain rfl : key = k := Option.some.inj hk
    exact ⟨h.roots _ hkey, Function.update_self ..⟩
  · cases hd
  · exact Function.update_of_ne he ..

/-! ### Handles -/

/-- Following a weak pointer. -/
theorem Sound.upgrade (h : m.Sound) {eph : E} (heph : m.Reachable (.ephemeron eph)) :
    (∃ m', m.upgrade eph = .ok m' ∧ m'.Sound) ∨ m.upgrade eph = .error .tooManyReferences := by
  rw [Mutator.upgrade]
  cases hkey : m.gc.key eph with
  | none => exact .inl ⟨m, rfl, h⟩
  | some key =>
      obtain ⟨data, hdata, rfl⟩ := Option.map_eq_some_iff.mp hkey
      have howned := (h.owned.values eph (h.owns heph) data.1 data.2 hdata).1
      rcases h.clone (x := .gc data.1) howned with hok | ⟨herror, -⟩
      · exact .inl hok
      · exact .inr herror

/-- Moving handles between a value and what is outside. -/
theorem count_move {old new roots : List (Handle B E)} (h : new.Subperm (roots ++ old))
    (x : Handle B E) :
    new.count x + ((roots ++ old).diff new).count x = old.count x + roots.count x := by
  have hle := h.count_le x
  rw [List.count_diff, List.count_append] at *
  omega

theorem Sound.write (h : m.Sound) {node : B} {handles : List (Handle B E)}
    (hnode : m.Reachable (.gc node))
    (hsub : handles.Subperm (m.roots ++ m.gc.content (.gc node))) :
    (m.write node handles).Sound :=
  h.setValue (h.owns hnode) fun x => count_move hsub x

theorem Sound.writeEphemeron (h : m.Sound) {eph : E} {handles : List (Handle B E)}
    (heph : m.Reachable (.ephemeron eph)) {key : B} (hkey : m.gc.key eph = some key)
    (hsub : handles.Subperm (m.roots ++ m.gc.content (.ephemeron eph))) :
    (m.writeEphemeron eph handles).Sound := by
  have hweak : eph ∈ m.gc.weaks := h.owns heph
  rw [Mutator.writeEphemeron, hkey]
  refine h.setData hweak (fun x => count_move hsub x) (fun k hk => ?_) (fun hd => ?_) fun _ _ => rfl
  · obtain rfl : key = k := Option.some.inj hk
    obtain ⟨data, hdata, rfl⟩ := Option.map_eq_some_iff.mp hkey
    exact ⟨(h.owned.values eph hweak data.1 data.2 hdata).1, h.keyed eph hweak data.1 hkey⟩
  · cases hd

/-! ### Weak maps -/

/-- Allocating a weak map. -/
theorem Sound.weakMapNew [DecidableEq W] (h : m.Sound) {node : B} {size : ℕ} {eph : E}
    {ephSize : ℕ} {map : W} (hnode : m.FreshBox node) (hmap : map ∉ m.gc.weakMaps)
    (heph : ∀ m', m.manageState = .ok m' →
      (m'.pushBox node size (.weakMap .unused [])).FreshEphemeron eph) :
    ∃ m', m.weakMapNew node size eph ephSize map = .ok m' ∧ m'.Sound := by
  obtain ⟨m₁, heq₁, hsound₁, -, -, -, -, hmaps₁, -⟩ := h.manageState
  have hsound₂ : (m₁.pushBox node size (.weakMap .unused [])).Sound :=
    hsound₁.pushBox (hnode m₁ heq₁) List.nil_subperm
  have hself : (m₁.pushBox node size (.weakMap .unused [])).Reachable (.gc node) :=
    hsound₂.reachable_root List.mem_cons_self
  obtain ⟨m₃, heq₃, hsound₃, hroots₃, -, hmaps₃, -⟩ := hsound₂.ephemeronNew ephSize
    (heph m₁ heq₁) hself List.nil_subperm
  refine ⟨m₃.pushWeakMap map eph, ?_, hsound₃.pushWeakMap (fun hw => hmap (hmaps₁ (hmaps₃ hw))) ?_⟩
  · rw [Mutator.weakMapNew, heq₁]
    change (Mutator.ephemeronNew _ eph ephSize node []).bind _ = _
    rw [heq₃]
    rfl
  · rw [hroots₃]
    exact List.mem_cons_self

/-- Borrowing a table for reading leaves its entries where they are. -/
theorem Sound.setBorrow (h : m.Sound) {node : B} (hnode : m.Reachable (.gc node))
    {state state' : BorrowState} {table : List E}
    (hvalue : (m.gc.box node).value = .weakMap state table) (hold : state ≠ .writing)
    (hnew : state' ≠ .writing) :
    ({ m with gc := m.gc.setValue node (.weakMap state' table) } : Mutator B E W).Sound := by
  have hvisited : ∀ s : BorrowState, s ≠ .writing →
      (GcValue.weakMap s table : GcValue B E).visited = table.map .ephemeron := by
    intro s hs
    cases s with
    | unused => rfl
    | reading => rfl
    | writing => exact absurd rfl hs
  refine h.setValue (h.owns hnode) fun x => ?_
  rw [content, hvalue, hvisited state hold, hvisited state' hnew]

theorem Sound.borrow (h : m.Sound) {node : B} (hnode : m.Reachable (.gc node)) :
    (∃ m', m.borrow node = .ok m' ∧ m'.Sound) ∨ m.borrow node = .error .alreadyBorrowed := by
  rw [Mutator.borrow]
  split
  · exact .inr rfl
  · next state table hstate hvalue =>
      refine .inl ⟨_, rfl, h.setBorrow hnode hvalue (fun hw => ?_) fun hw => ?_⟩
      · exact hstate hw
      · cases hw
  · exact .inl ⟨m, rfl, h⟩

theorem Sound.release (h : m.Sound) {node : B} (hnode : m.Reachable (.gc node)) :
    (m.release node).Sound := by
  rw [Mutator.release]
  split
  · next table hvalue =>
      refine h.setBorrow hnode hvalue (fun hw => ?_) fun hw => ?_
      · cases hw
      · cases hw
  · exact h

/-- Handles to ephemerons are as many as the ephemerons. -/
theorem count_map_ephemeron_le {table table' : List E} (h : table.Subperm table')
    (x : Handle B E) :
    (table.map Handle.ephemeron).count x ≤ (table'.map Handle.ephemeron).count x := by
  obtain ⟨kept, hperm, hsub⟩ := h
  rw [← (hperm.map _).count_eq]
  exact (hsub.map _).count_le x

omit [DecidableEq E] in
theorem value_openTable (node : B) (table kept : List E) :
    ((m.openTable node table kept).gc.box node).value = .weakMap .writing kept := by
  change (Function.update m.gc.box node _ node).value = _
  rw [Function.update_self]

/-- A table is borrowed for writing: its entries are held from outside. -/
theorem Sound.openTable (h : m.Sound) {node : B} {table : List E} (hnode : m.Reachable (.gc node))
    (hvalue : (m.gc.box node).value = .weakMap .unused table) (kept : List E) :
    (m.openTable node table kept).Sound := by
  refine h.setValue (h.owns hnode) fun x => ?_
  have hold : m.gc.content (.gc node) = table.map .ephemeron := by
    rw [content, hvalue]
    rfl
  have hnew : (GcValue.weakMap .writing kept : GcValue B E).visited = [] := rfl
  rw [hold, hnew, List.count_append, List.count_nil]
  omega

/-- What can be reached can still be reached when a table is borrowed. -/
theorem Sound.reachable_openTable (h : m.Sound) {node : B} {table kept : List E}
    (hnode : m.Reachable (.gc node))
    (hvalue : (m.gc.box node).value = .weakMap .unused table) {x : Handle B E}
    (hx : m.Reachable x) : (m.openTable node table kept).Reachable x := by
  have hopen := h.openTable hnode hvalue kept
  have hbox : ∀ b, b ≠ node → (m.openTable node table kept).gc.box b = m.gc.box b := fun b hb =>
    Function.update_of_ne hb ..
  refine Live.of_closed ⟨fun y hy => ?_, fun y z hy hedge => ?_,
    fun y gate z hy hgate hgated => ?_⟩ hx
  · exact hopen.reachable_root (List.mem_append_left _ hy.2)
  · obtain ⟨b, rfl, hz⟩ := hedge
    by_cases hb : b = node
    · -- The entries are outside now.
      rw [hb, hvalue] at hz
      exact hopen.reachable_root (List.mem_append_right _ hz)
    · refine .edge hy ⟨b, rfl, ?_⟩
      rw [hbox b hb]
      exact hz
  · exact .gated hy hgate hgated

/-- A table is given back. -/
theorem Sound.closeTable (h : m.Sound) {node : B} {kept table : List E}
    (hnode : node ∈ m.gc.strongs) (hvalue : (m.gc.box node).value = .weakMap .writing kept)
    (hsub : (table.map Handle.ephemeron).Subperm m.roots) :
    (m.closeTable node table).Sound := by
  refine h.setValue hnode fun x => ?_
  have hold : m.gc.content (.gc node) = [] := by
    rw [content, hvalue]
    rfl
  have hnew : (GcValue.weakMap .unused table : GcValue B E).visited = table.map .ephemeron := rfl
  have hle := hsub.count_le x
  rw [hold, hnew, List.count_nil, List.count_diff]
  omega

omit [DecidableEq E] in
/-- The entry of a table is in the table. -/
theorem entry_subperm (table : List E) (key : B) : (m.entry table key).toList.Subperm table := by
  cases heq : m.entry table key with
  | none => exact List.nil_subperm
  | some eph => exact List.singleton_subperm_iff.mpr (List.mem_of_find?_eq_some heq)

/-- A table is made up of an entry and the rest. -/
theorem count_entry_diff (table : List E) (key : B) (x : Handle B E) :
    ((m.entry table key).toList.map Handle.ephemeron).count x +
      ((table.diff (m.entry table key).toList).map Handle.ephemeron).count x =
      (table.map Handle.ephemeron).count x := by
  have hinj : Function.Injective (Handle.ephemeron : E → Handle B E) := fun d e heq =>
    Handle.ephemeron.inj heq
  have hle := count_map_ephemeron_le (m.entry_subperm table key) x
  rw [List.map_diff hinj, List.count_diff]
  omega

/-- **Putting an entry into a weak map**, while a collection may run. -/
theorem Sound.insert (h : m.Sound) {node key : B} {eph : E} (size : ℕ)
    {value : List (Handle B E)} (hnode : m.Reachable (.gc node)) (hkey : m.Reachable (.gc key))
    (hvalue : value.Subperm m.roots) (hfresh : ∀ table,
      (m.gc.box node).value = .weakMap .unused table →
        (m.openTable node table (table.diff (m.entry table key).toList)).FreshEphemeron eph) :
    (∃ m', m.insert node key eph size value = .ok m' ∧ m'.Sound) ∨
      m.insert node key eph size value = .error .alreadyBorrowed := by
  rw [Mutator.insert]
  split
  · next table htable =>
      have hsplit := count_entry_diff (m := m) table key
      have hfresh := hfresh table htable
      dsimp only
      generalize (m.entry table key).toList = old at hsplit hfresh ⊢
      generalize table.diff old = kept at hsplit hfresh ⊢
      have hopen := h.openTable hnode htable kept
      obtain ⟨m₁, heq, hsound, hroots, howns, -, hvalues⟩ := hopen.ephemeronNew size hfresh
        (h.reachable_openTable hnode htable hkey)
        (hvalue.trans (List.sublist_append_left ..).subperm)
      have hwriting := value_openTable (m := m) node table kept
      have hstill : (m₁.gc.box node).value = .weakMap .writing kept := by
        rcases hvalues node with hsame | ⟨other, hother⟩
        · rw [hsame, hwriting]
        · rw [hwriting] at hother
          cases hother
      have hcount : ∀ x, ((kept ++ [eph]).map Handle.ephemeron).count x +
          (old.map Handle.ephemeron).count x ≤ m₁.roots.count x := by
        intro x
        have hsplit := hsplit x
        have hle := hvalue.count_le x
        rw [hroots]
        change _ ≤ (Handle.ephemeron eph ::
          (m.roots ++ table.map Handle.ephemeron).diff value).count x
        rw [List.map_append, List.map_singleton, List.count_append, List.count_singleton,
          List.count_cons, List.count_diff, List.count_append]
        omega
      have hclose : (m₁.closeTable node (kept ++ [eph])).Sound :=
        hsound.closeTable (howns node (h.reachable_openTable hnode htable hnode)) hstill
          (List.subperm_iff_count.mpr fun x => Nat.le_of_add_right_le (hcount x))
      have hold : (old.map Handle.ephemeron).Subperm
          (m₁.roots.diff ((kept ++ [eph]).map Handle.ephemeron)) := by
        refine List.subperm_iff_count.mpr fun x => ?_
        have hcount := hcount x
        rw [List.count_diff]
        omega
      refine .inl ⟨_, ?_, hclose.foldl_drop hold⟩
      rw [heq]
      rfl
  · exact .inr rfl

/-- Removing an entry from a weak map. -/
theorem Sound.remove (h : m.Sound) {node : B} (key : B) (hnode : m.Reachable (.gc node)) :
    (∃ m', m.remove node key = .ok m' ∧ m'.Sound) ∨
      m.remove node key = .error .alreadyBorrowed := by
  rw [Mutator.remove]
  split
  · next table htable =>
      have hsplit := count_entry_diff (m := m) table key
      dsimp only
      generalize (m.entry table key).toList = old at hsplit ⊢
      generalize table.diff old = kept at hsplit ⊢
      have hopen := h.openTable hnode htable kept
      have hwriting := value_openTable (m := m) node table kept
      have hcount : ∀ x, (kept.map Handle.ephemeron).count x + (old.map Handle.ephemeron).count x ≤
          (m.openTable node table kept).roots.count x := by
        intro x
        have hsplit := hsplit x
        change _ ≤ (m.roots ++ table.map Handle.ephemeron).count x
        rw [List.count_append]
        omega
      have hclose := hopen.closeTable (h.owns hnode) hwriting
        (List.subperm_iff_count.mpr fun x => Nat.le_of_add_right_le (hcount x))
      have hold : (old.map Handle.ephemeron).Subperm
          ((m.openTable node table kept).roots.diff (kept.map Handle.ephemeron)) := by
        refine List.subperm_iff_count.mpr fun x => ?_
        have hcount := hcount x
        rw [List.count_diff]
        omega
      exact .inl ⟨_, rfl, hclose.foldl_drop hold⟩
  · exact .inr rfl

/-! ### Steps -/

/-- **A step that is allowed** leaves a sound program, or fails because there are too many handles
or because a weak map is borrowed. -/
theorem Sound.perform [DecidableEq W] (h : m.Sound) {a : MutatorAction B E W}
    (hallow : m.Allows a) : (∃ m', m.perform a = .ok m' ∧ m'.Sound) ∨
      m.perform a = .error .tooManyReferences ∨ m.perform a = .error .alreadyBorrowed := by
  cases a with
  | gcNew node size value => exact .inl (h.gcNew hallow.1 hallow.2)
  | ephemeronNew eph size key value =>
      obtain ⟨hfresh, hkey, hvalue⟩ := hallow
      obtain ⟨m', heq, hsound, -⟩ := h.ephemeronNew size hfresh hkey hvalue
      exact .inl ⟨m', heq, hsound⟩
  | ephemeronEmpty eph size => exact .inl (h.ephemeronEmpty hallow)
  | set eph key =>
      obtain ⟨heph, hnone, hkey⟩ := hallow
      exact .inl ⟨_, rfl, h.set heph hnone hkey⟩
  | clone x =>
      rcases h.clone (h.owns hallow) with hok | ⟨herror, -⟩
      · exact .inl hok
      · exact .inr (.inl herror)
  | drop x => exact .inl ⟨_, rfl, h.drop hallow⟩
  | upgrade eph =>
      rcases h.upgrade hallow with hok | herror
      · exact .inl hok
      · exact .inr (.inl herror)
  | write node handles =>
      obtain ⟨hnode, -, hsub⟩ := hallow
      exact .inl ⟨_, rfl, h.write hnode hsub⟩
  | writeEphemeron eph handles =>
      obtain ⟨heph, ⟨key, hkey, -⟩, hsub⟩ := hallow
      exact .inl ⟨_, rfl, h.writeEphemeron heph hkey hsub⟩
  | weakMapNew node size eph ephSize map =>
      obtain ⟨hnode, hmap, heph⟩ := hallow
      exact .inl (h.weakMapNew hnode hmap heph)
  | borrow node =>
      rcases h.borrow hallow with hok | herror
      · exact .inl hok
      · exact .inr (.inr herror)
  | release node => exact .inl ⟨_, rfl, h.release hallow⟩
  | insert node key eph size value =>
      obtain ⟨hnode, hkey, hvalue, hfresh⟩ := hallow
      rcases h.insert size hnode hkey hvalue hfresh with hok | herror
      · exact .inl hok
      · exact .inr (.inr herror)
  | remove node key =>
      rcases h.remove key hallow.1 with hok | herror
      · exact .inl hok
      · exact .inr (.inr herror)
  | forceCollect =>
      rw [Mutator.perform, Mutator.forceCollect]
      split
      · obtain ⟨m', heq, hsound, -⟩ := h.collect
        exact .inl ⟨m', heq, hsound⟩
      · exact .inl ⟨m, rfl, h⟩

/-! ### Runs -/

/-- **The programs**: they begin with an empty heap, and their steps are allowed. -/
def program [DecidableEq W] : TransitionSystem (Mutator B E W) (MutatorAction B E W) where
  init m := m.gc.strongs = [] ∧ m.gc.weaks = [] ∧ m.gc.weakMaps = [] ∧
    m.gc.bytesAllocated = 0 ∧ (∀ x, m.gc.isMarked x = false) ∧ m.roots = [] ∧
    m.allocated = [] ∧ m.freed = [] ∧ ∀ e, m.target e = none
  step m a m' := m.Allows a ∧ m.perform a = .ok m'

/-- **Every state that a program can reach is sound.** -/
theorem sound_of_reachable [DecidableEq W] (h : program.Reachable m) : m.Sound := by
  refine h.invariant (fun m hinit => ?_) fun m a m' hsound _ hstep => ?_
  · obtain ⟨hstrongs, hweaks, hmaps, hbytes, hmarks, hroots, hallocated, hfreed, htarget⟩ := hinit
    have howns : ∀ x, ¬ m.gc.Owns x := by
      intro x hx
      cases x with
      | gc b =>
          rw [Owns, hstrongs] at hx
          exact List.not_mem_nil hx
      | ephemeron e =>
          rw [Owns, hweaks] at hx
          exact List.not_mem_nil hx
    exact {
      strongs := hstrongs ▸ List.nodup_nil
      weaks := hweaks ▸ List.nodup_nil
      owned := ⟨fun b hb => absurd hb (howns (.gc b)),
        fun e he => absurd he (howns (.ephemeron e))⟩
      roots := fun x hx => absurd (hroots ▸ hx) List.not_mem_nil
      weakMaps := fun w hw => absurd (hmaps ▸ hw) List.not_mem_nil
      counted := fun x hx => absurd hx (howns x)
      max := fun x hx => absurd hx (howns x)
      clean := fun x hx => absurd hx (howns x)
      unmarked := hmarks
      bytes := by
        rw [hbytes, BoaGc.size, hstrongs, hweaks]
        rfl
      balance := fun b => by
        rw [hallocated, hfreed, hstrongs]
        rfl
      keyed := fun e he => absurd he (howns (.ephemeron e))
      expired := fun e he => absurd he (howns (.ephemeron e)) }
  · rcases hsound.perform hstep.1 with ⟨m₁, heq, hsound₁⟩ | herror | herror
    · rw [hstep.2] at heq
      obtain rfl : m' = m₁ := Except.ok.inj heq
      exact hsound₁
    · rw [hstep.2] at herror
      cases herror
    · rw [hstep.2] at herror
      cases herror

/-- **Memory safety.** In no run does a handle that the program can get at dangle, nor does one in
the heap; every allocation is freed once or still there; the reference counts are the numbers of
handles; and no assertion of the collector fails. -/
theorem reachable_memory_safe [DecidableEq W] (h : program.Reachable m) :
    (∀ x, m.Reachable x ∨ x ∈ m.gc.contents → m.gc.Owns x) ∧
      (∀ b, m.allocated.count b = m.freed.count b + if b ∈ m.gc.strongs then 1 else 0) ∧
      (∀ x, m.gc.Owns x → (m.gc.header x).refCount.toNat =
        m.gc.contents.count x + m.gc.weakMapHandles.count x + m.roots.count x) ∧
      ∀ a, m.Allows a → m.perform a ≠ .error .assertion := by
  have hsound := sound_of_reachable h
  refine ⟨fun x hx => ?_, fun b => ?_, hsound.counted, fun a hallow hassert => ?_⟩
  · rcases hx with hx | hx
    · exact hsound.owns hx
    · exact hsound.owned.contents hx
  · rw [hsound.balance b, hsound.strongs.count]
  · rcases hsound.perform hallow with ⟨m', hok, -⟩ | herror | herror
    · rw [hassert] at hok
      cases hok
    · rw [hassert] at herror
      cases herror
    · rw [hassert] at herror
      cases herror

/-- **Weak pointers.** An ephemeron that was made for a box has this box as its key as long as the
box is there, and has no key afterwards, even if there is another box at the same address. -/
theorem reachable_weak_pointers [DecidableEq W] (h : program.Reachable m) {e : E}
    (he : e ∈ m.gc.weaks) {b : B} {n : ℕ} (htarget : m.target e = some (b, n)) (c : B) :
    m.gc.key e = some c ↔ c = b ∧ b ∈ m.gc.strongs ∧ m.allocated.count b = n := by
  have hsound := sound_of_reachable h
  constructor
  · intro hkey
    have hkeyed := hsound.keyed e he c hkey
    rw [htarget] at hkeyed
    obtain ⟨rfl, rfl⟩ := Prod.mk.inj (Option.some.inj hkeyed)
    obtain ⟨data, hdata, rfl⟩ := Option.map_eq_some_iff.mp hkey
    exact ⟨rfl, (hsound.owned.values e he data.1 data.2 hdata).1, rfl⟩
  · rintro ⟨rfl, hbox, hcount⟩
    obtain ⟨-, hexpired⟩ := hsound.expired e he c n htarget
    cases hkey : m.gc.key e with
    | none =>
        rcases hexpired hkey with hgone | hlater
        · exact absurd hbox hgone
        · omega
    | some c' =>
        have hkeyed := hsound.keyed e he c' hkey
        rw [htarget] at hkeyed
        rw [(Prod.mk.inj (Option.some.inj hkeyed)).1]

/-! ### Collections that nobody sees -/

/-- **A program cannot tell** `m'` **from** `m` by what it can get at. -/
structure Unobserved (m m' : Mutator B E W) : Prop where
  reachable : ∀ b, m'.Reachable (.gc b) ↔ m.Reachable (.gc b)
  handles : ∀ b, m.Reachable (.gc b) → ∀ hs, (m.gc.box b).value = .handles hs →
    (m'.gc.box b).value = .handles hs
  entries : ∀ b, m.Reachable (.gc b) → ∀ state table,
    (m.gc.box b).value = .weakMap state table → state ≠ .writing →
      ∃ table', (m'.gc.box b).value = .weakMap state table' ∧
        ∀ key, m.Reachable (.gc key) → m'.entry table' key = m.entry table key
  data : ∀ e, m.Reachable (.ephemeron e) → ∀ key, m.Reachable (.gc key) → ∀ value,
    (m'.gc.ephemeron e).data = some (key, value) ↔ (m.gc.ephemeron e).data = some (key, value)

section Collection

variable (h : m.Sound) (hsound : m'.Sound) (hc : Collected m.gc m'.gc)
  (hk : Kept m.roots m.gc m'.gc) (hroots : m'.roots = m.roots)

include h hc in
/-- What was live is left. -/
theorem Sound.owns_collected {x : Handle B E} (hx : m.Reachable x) : m'.gc.Owns x := by
  have hlive := h.isLive hx
  cases x with
  | gc b => exact (hc.strongs.2 b).mpr hlive
  | ephemeron e => exact (hc.weaks.2 e).mpr hlive

include h hc in
/-- The keys that a program can get at stay where they are. -/
theorem Sound.key_collected {e : E} (he : m'.gc.Owns (.ephemeron e)) {key : B}
    (hkey : m.Reachable (.gc key)) : m'.gc.key e = some key ↔ m.gc.key e = some key := by
  rw [hc.key e he key, and_iff_left]
  exact fun hdrop => ((hc.dropped.2 key).mp hdrop).2 (h.isLive hkey)

include hc hk in
/-- An ephemeron whose key is live keeps its value. -/
theorem data_collected {e : E} (he : m'.gc.Owns (.ephemeron e)) {key : B}
    {value : List (Handle B E)} : (m'.gc.ephemeron e).data = some (key, value) ↔
      (m.gc.ephemeron e).data = some (key, value) ∧ m.gc.IsLive (.gc key) := by
  have hlive : m.gc.IsLive (.ephemeron e) := (hc.weaks.2 e).mp he
  constructor
  · intro hdata
    have hkey : m'.gc.key e = some key := by
      rw [BoaGc.key, hdata]
      rfl
    have hold := ((hc.key e he key).mp hkey).1
    have hlive' : m.gc.IsLive (.gc key) := by
      obtain ⟨data, hdata', rfl⟩ := Option.map_eq_some_iff.mp hkey
      exact (hc.strongs.2 data.1).mp (hc.owned.values e he data.1 data.2 hdata').1
    obtain ⟨data, hdata', rfl⟩ := Option.map_eq_some_iff.mp hold
    have hkept := hk.data e hlive data.1 data.2 hdata' hlive'
    rw [hdata] at hkept
    exact ⟨hdata'.trans hkept.symm, hlive'⟩
  · rintro ⟨hdata, hkey⟩
    exact hk.data e hlive key value hdata hkey

include h hc hk hroots in
/-- What a program can get at, but for entries of weak maps that are dropped, is what it could
get at before. -/
theorem Sound.reachable_collected {x : Handle B E} (hx : m.Reachable x) :
    m'.Reachable x ∨ ∃ e, x = .ephemeron e ∧ m'.gc.hasValue e = false := by
  induction hx with
  | @root x hx =>
      refine .inl (.root ⟨h.owns_collected hc (.root hx), ?_⟩)
      rw [hroots]
      exact hx.2
  | @edge x y hx hedge ih =>
      obtain ⟨b, rfl, hy⟩ := hedge
      have hb : m'.Reachable (.gc b) := by
        rcases ih with hb | ⟨e, heq, -⟩
        · exact hb
        · cases heq
      rcases hk.value b with hsame | ⟨table, hold, hnew⟩
      · exact .inl (.edge hb ⟨b, rfl, hsame ▸ hy⟩)
      · rw [hold] at hy
        obtain ⟨e, he, rfl⟩ := List.mem_map.mp hy
        cases hvalue : m'.gc.hasValue e with
        | false => exact .inr ⟨e, rfl, hvalue⟩
        | true =>
            refine .inl (.edge hb ⟨b, rfl, ?_⟩)
            rw [hnew]
            exact List.mem_map_of_mem (List.mem_filter.mpr ⟨he, hvalue⟩)
  | @gated x gate y hx hgate hgated ih ihgate =>
      obtain ⟨e, key, value, rfl, rfl, hdata, hy⟩ := hgated
      have hkey : m'.Reachable (.gc key) := by
        rcases ihgate with hkey | ⟨d, heq, -⟩
        · exact hkey
        · cases heq
      have hdata' := (data_collected hc hk (h.owns_collected hc hx)).mpr ⟨hdata, h.isLive hgate⟩
      rcases ih with he | ⟨d, heq, hnone⟩
      · exact .inl (.gated he hkey ⟨e, key, value, rfl, rfl, hdata', hy⟩)
      · obtain rfl := Handle.ephemeron.inj heq
        rw [hasValue, hdata'] at hnone
        cases hnone

include h hsound hc hk hroots in
theorem Sound.reachable_of_collected {x : Handle B E} (hx : m'.Reachable x) : m.Reachable x := by
  induction hx with
  | root hx => exact h.reachable_root (hroots ▸ hx.2)
  | @edge x y hx hedge ih =>
      obtain ⟨b, rfl, hy⟩ := hedge
      rcases hk.value b with hsame | ⟨table, hold, hnew⟩
      · exact .edge ih ⟨b, rfl, hsame ▸ hy⟩
      · rw [hnew] at hy
        obtain ⟨e, he, rfl⟩ := List.mem_map.mp hy
        refine .edge ih ⟨b, rfl, ?_⟩
        rw [hold]
        exact List.mem_map_of_mem (List.mem_of_mem_filter he)
  | @gated x gate y hx hgate hgated ih ihgate =>
      obtain ⟨e, key, value, rfl, rfl, hdata, hy⟩ := hgated
      have hold := (data_collected hc hk (hsound.owns hx)).mp hdata
      exact .gated ih ihgate ⟨e, key, value, rfl, rfl, hold.1, hy⟩

include h hsound hc hk hroots in
/-- **A collection is not seen** by the program. -/
theorem Sound.unobserved : Unobserved m m' where
  reachable b := by
    constructor
    · exact fun hb => h.reachable_of_collected hsound hc hk hroots hb
    · intro hb
      rcases h.reachable_collected hc hk hroots hb with hb' | ⟨e, heq, -⟩
      · exact hb'
      · cases heq
  handles b _ hs hvalue := by
    rcases hk.value b with hsame | ⟨table, hold, -⟩
    · exact hsame.trans hvalue
    · rw [hvalue] at hold
      cases hold
  entries b hb state table hvalue hstate := by
    have hedge : ∀ e ∈ table, m.Reachable (.ephemeron e) := by
      intro e he
      refine .edge hb ⟨b, rfl, ?_⟩
      rw [hvalue]
      cases state with
      | unused => exact List.mem_map_of_mem he
      | reading => exact List.mem_map_of_mem he
      | writing => exact absurd rfl hstate
    have hkeys : ∀ e ∈ table, ∀ key, m.Reachable (.gc key) →
        (m'.gc.key e = some key ↔ m.gc.key e = some key) := fun e he key hkey =>
      h.key_collected hc (h.owns_collected hc (hedge e he)) hkey
    rcases hk.value b with hsame | ⟨other, hold, hnew⟩
    · refine ⟨table, hsame.trans hvalue, fun key hkey => List.find?_congr fun e he => ?_⟩
      rw [decide_eq_decide]
      exact hkeys e he key hkey
    · rw [hvalue] at hold
      injection hold with hunused hother
      subst hunused hother
      refine ⟨table.filter m'.gc.hasValue, hnew, fun key hkey => ?_⟩
      rw [entry, entry, List.find?_filter]
      refine List.find?_congr fun e he => ?_
      rw [Bool.eq_iff_iff, decide_eq_true_iff, decide_eq_true_iff, decide_eq_true_iff,
        ← hkeys e he key hkey, and_iff_right_iff_imp]
      intro hkey'
      obtain ⟨data, hdata, -⟩ := Option.map_eq_some_iff.mp hkey'
      rw [hasValue, hdata]
      rfl
  data e he key hkey value := by
    rw [data_collected hc hk (h.owns_collected hc he), and_iff_left (h.isLive hkey)]

end Collection

/-- **What a collection does.** In every state that a program can reach, a collection leaves what
is reachable from the program's handles and from the weak maps, and nothing else; and of this the
program sees no difference. -/
theorem reachable_collect [DecidableEq W] (h : program.Reachable m) :
    ∃ m', m.collect = .ok m' ∧ m'.roots = m.roots ∧ Unobserved m m' ∧
      (∀ x, m'.gc.Owns x ↔
        Live (m.gc.graph fun y => y ∈ m.roots ∨ y ∈ m.gc.weakMapHandles) x) ∧
      m'.gc.bytesAllocated = m'.gc.size := by
  have hsound := sound_of_reachable h
  obtain ⟨m', heq, hsound', hc, hk, hroots, -⟩ := hsound.collect
  refine ⟨m', heq, hroots, hsound.unobserved hsound' hc hk hroots, fun x => ?_, hsound'.bytes⟩
  have hgraph : m.gc.graph m.gc.External =
      m.gc.graph fun y => y ∈ m.roots ∨ y ∈ m.gc.weakMapHandles := by
    rw [graph, graph, Liveness.Graph.mk.injEq]
    refine ⟨funext fun y => propext (and_congr_right fun hy => hsound.external_iff hy), rfl, rfl⟩
  rw [← hgraph]
  cases x with
  | gc b => exact hc.strongs.2 b
  | ephemeron e => exact hc.weaks.2 e

/-! ### A run -/

/-- An empty heap. -/
def emptyHeap : Mutator ℕ ℕ ℕ where
  gc :=
    { collections := 0, bytesAllocated := 0, strongs := [], weaks := [], weakMaps := []
      box := fun _ => ⟨⟨0, 0⟩, .handles [], 0⟩, ephemeron := fun _ => ⟨⟨0, 0⟩, none, 0⟩
      weakMap := id, finalized := [], dropped := [] }
  threshold := 10
  roots := []
  allocated := []
  freed := []
  target := fun _ => none

/-- The state after a step that does not fail. -/
def next (m : Mutator ℕ ℕ ℕ) (a : MutatorAction ℕ ℕ ℕ) : Mutator ℕ ℕ ℕ :=
  (m.perform a).toOption.getD m

/-- A box, a weak pointer to it, and after its last handle is dropped another box in its place. -/
def reusedAddress : Mutator ℕ ℕ ℕ :=
  (((emptyHeap.next (.gcNew 0 20 [])).next (.ephemeronNew 0 10 0 [])).next
    (.drop (.gc 0))).next (.gcNew 0 20 [])

theorem reachable_next {m : Mutator ℕ ℕ ℕ} (h : program.Reachable m) {a : MutatorAction ℕ ℕ ℕ}
    (hallow : m.Allows a) (hok : (m.perform a).toOption.isSome) :
    program.Reachable (m.next a) := by
  refine h.next trivial ⟨hallow, ?_⟩
  rw [next]
  cases heq : m.perform a with
  | error e =>
      rw [heq] at hok
      cases hok
  | ok m' => rfl

theorem reachable_reusedAddress : program.Reachable reusedAddress := by
  have hzero : GcHeader.isMarked ⟨0, 0⟩ = false := by decide
  have hstart : program.Reachable emptyHeap :=
    .start ⟨rfl, rfl, rfl, rfl, fun x => by cases x <;> exact hzero, rfl, rfl, rfl, fun _ => rfl⟩
  have hbox : program.Reachable (emptyHeap.next (.gcNew 0 20 [])) := by
    refine reachable_next hstart ⟨fun m' heq => ?_, List.nil_subperm⟩ rfl
    rw [← Except.ok.inj heq]
    exact List.not_mem_nil
  have hweak := reachable_next hbox (a := .ephemeronNew 0 10 0 []) (by
    refine ⟨fun m' heq => ?_, .root ⟨List.mem_cons_self, List.mem_cons_self⟩, List.nil_subperm⟩
    have hweaks : some [] = some m'.gc.weaks :=
      congrArg (fun r => r.toOption.map fun m => m.gc.weaks) heq
    rw [← Option.some.inj hweaks]
    exact List.not_mem_nil) rfl
  have hdrop := reachable_next hweak (a := .drop (.gc 0)) (List.mem_of_elem_eq_true rfl) rfl
  refine reachable_next hdrop ⟨fun m' heq => ?_, List.nil_subperm⟩ rfl
  have hstrongs : some [] = some m'.gc.strongs :=
    congrArg (fun r => r.toOption.map fun m => m.gc.strongs) heq
  rw [← Option.some.inj hstrongs]
  exact List.not_mem_nil

/-- There is a box at the address of a box that was freed. -/
theorem reusedAddress_memory_safe : reusedAddress.gc.Owns (.gc 0) ∧
    reusedAddress.allocated.count 0 = reusedAddress.freed.count 0 + 1 ∧
    reusedAddress.perform .forceCollect ≠ .error .assertion := by
  obtain ⟨hsafe, hcount, -, hassert⟩ := reachable_memory_safe reachable_reusedAddress
  exact ⟨hsafe (.gc 0) (.inl (.root ⟨List.mem_cons_self, List.mem_cons_self⟩)), hcount 0,
    hassert .forceCollect trivial⟩

/-- The weak pointer to the box that was freed does not lead to the box that is there. -/
theorem reusedAddress_weak_pointers :
    reusedAddress.gc.strongs = [0] ∧ reusedAddress.gc.key 0 ≠ some 0 := by
  have hweak := reachable_weak_pointers reachable_reusedAddress (e := 0) (b := 0) (n := 1)
    List.mem_cons_self rfl 0
  refine ⟨rfl, ?_⟩
  rw [Ne, hweak]
  decide

/-- Another collection leaves the new box in the heap. -/
theorem reusedAddress_collect :
    ∃ m', reusedAddress.collect = .ok m' ∧ m'.roots = [.gc 0, .ephemeron 0] ∧
      m'.gc.Owns (.gc 0) := by
  obtain ⟨m', heq, hroots, -, howns, -⟩ := reachable_collect reachable_reusedAddress
  exact ⟨m', heq, hroots, (howns (.gc 0)).mpr (.root ⟨List.mem_cons_self, .inl List.mem_cons_self⟩)⟩

end Mutator

end BoaLigero
