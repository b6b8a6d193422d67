import BoaLigero.Builtins.Atomics.Futex

/-!
# Wait Lists over Whole Runs

Every waiter is taken out of its list once, by a notification or by its timeout, and reports
which of them it was.

## Main results

* `FutexWaiters.notifyMany_spec` — a notification takes the oldest waiters out.
* `FutexWaiters.Inv.step` — what every step preserves.
* `FutexWaiters.reachable_correct` — the wait lists in every interleaving.
-/

namespace BoaLigero

/-! ### Waiters -/

namespace FutexWaiter

/-- The fields of a waiter fit together: it is linked until something takes it out, which
happens once; an asynchronous one then gives up its reference to itself and has its message;
and what it reports is what took it out. -/
structure Sound (w : FutexWaiter) : Prop where
  linked : w.linked = w.removals.isEmpty
  once : w.removals.length ≤ 1
  asyncData : w.asyncData = (w.isAsync && w.linked)
  references : w.references = w.asyncData.toNat
  releases : w.releases = if w.isAsync then w.removals.length else 0
  message : w.message = if w.isAsync then w.removals.head?.map WaiterRemoval.result else none
  reports : w.reports = if w.waiting then [] else w.removals.map WaiterRemoval.result
  waiting : w.linked = true → w.waiting = true
  asleep : w.isAsync = false → w.waiting = true → .timedOut ∉ w.removals
  timeoutJob : w.timeoutJob = true → w.isAsync = true

/-- The waiter, taken out of its list. -/
def unlinked (removal : WaiterRemoval) (w : FutexWaiter) : FutexWaiter :=
  { w with
    linked := false
    asyncData := false
    message := if w.isAsync then some removal.result else none
    references := 0
    removals := [removal]
    releases := if w.isAsync then 1 else 0 }

/-- The waiter, notified. -/
def notified (w : FutexWaiter) : FutexWaiter := w.signal.unlinked .notified

variable {w : FutexWaiter}

/-- A new waiter of a blocking wait is in order. -/
theorem sound_newSync (addr : ℕ) (hasTimeout : Bool) : (newSync addr hasTimeout).Sound :=
  ⟨rfl, Nat.zero_le _, rfl, rfl, rfl, rfl, rfl, fun _ => rfl, nofun, nofun⟩

/-- A new waiter of an asynchronous wait is in order. -/
theorem sound_newAsync (addr : ℕ) (hasTimeout : Bool) : (newAsync addr hasTimeout).Sound :=
  ⟨rfl, Nat.zero_le _, rfl, rfl, rfl, rfl, rfl, fun _ => rfl, nofun, fun _ => rfl⟩

/-- What a linked waiter is like. -/
theorem Sound.of_linked (h : w.Sound) (hlinked : w.linked = true) :
    w.removals = [] ∧ w.waiting = true ∧ w.reports = [] ∧ w.message = none ∧ w.releases = 0 ∧
      w.asyncData = w.isAsync ∧ w.references = w.isAsync.toNat := by
  have hremovals : w.removals = [] := by
    have := h.linked
    rwa [hlinked, eq_comm, List.isEmpty_iff] at this
  have hwaiting := h.waiting hlinked
  have hreports := h.reports
  have hmessage := h.message
  have hreleases := h.releases
  have hasync := h.asyncData
  have hreferences := h.references
  rw [hlinked, Bool.and_true] at hasync
  rw [hwaiting, if_pos rfl] at hreports
  rw [hremovals] at hmessage hreleases
  rw [hasync] at hreferences
  exact ⟨hremovals, hwaiting, hreports, by simpa using hmessage, by simpa using hreleases, hasync,
    hreferences⟩

/-- Taking a linked waiter out succeeds. -/
theorem Sound.unlink_eq (h : w.Sound) (hlinked : w.linked = true) (removal : WaiterRemoval) :
    w.unlink removal = some (w.unlinked removal) := by
  obtain ⟨hremovals, -, -, hmessage, hreleases, hasync, hreferences⟩ := h.of_linked hlinked
  cases hisAsync : w.isAsync with
  | false =>
      rw [hisAsync] at hasync hreferences
      simp only [unlink, unlinked, hasync, hremovals, hisAsync, hmessage, hreleases, hreferences]
      rfl
  | true =>
      rw [hisAsync] at hasync hreferences
      simp only [unlink, unlinked, hasync, hremovals, hisAsync, hreleases, hreferences]
      rfl

/-- A waiter that was taken out is sound; a sleeping agent is not there to be timed out. -/
theorem Sound.unlinked (h : w.Sound) (hlinked : w.linked = true) {removal : WaiterRemoval}
    (hremoval : w.isAsync = false → removal = .notified) : (w.unlinked removal).Sound := by
  obtain ⟨-, hwaiting, hreports, -, -, -, -⟩ := h.of_linked hlinked
  refine ⟨rfl, Nat.le_refl _, ?_, rfl, rfl, rfl, ?_, nofun, fun hsync _ => ?_, h.timeoutJob⟩
  · simp [FutexWaiter.unlinked]
  · simp [FutexWaiter.unlinked, hwaiting, hreports]
  · simp [FutexWaiter.unlinked, hremoval hsync]

/-- The end of a call of `wait` that timed out. -/
theorem Sound.timedOut (h : w.Sound) (hlinked : w.linked = true) :
    ((w.unlinked .timedOut).report .timedOut).Sound := by
  obtain ⟨-, hwaiting, hreports, -, -, -, -⟩ := h.of_linked hlinked
  refine ⟨rfl, Nat.le_refl _, ?_, rfl, rfl, rfl, ?_, nofun, fun _ => nofun, h.timeoutJob⟩
  · simp [FutexWaiter.unlinked, FutexWaiter.report]
  · simp [FutexWaiter.unlinked, FutexWaiter.report, hreports, WaiterRemoval.result]

/-- A waiter that is signalled stays in order. -/
theorem Sound.signal (h : w.Sound) : w.signal.Sound :=
  ⟨h.linked, h.once, h.asyncData, h.references, h.releases, h.message, h.reports, h.waiting,
    h.asleep, h.timeoutJob⟩

/-- The timeout job may be gone. -/
theorem Sound.withoutJob (h : w.Sound) : w.withoutJob.Sound :=
  ⟨h.linked, h.once, h.asyncData, h.references, h.releases, h.message, h.reports, h.waiting,
    h.asleep, nofun⟩

/-- A waiter that is not linked was taken out by something. -/
theorem Sound.removal (h : w.Sound) (hlinked : w.linked = false) :
    ∃ removal, w.removals = [removal] := by
  have hne := h.linked
  rw [hlinked] at hne
  obtain ⟨removal, rest, heq⟩ := List.exists_cons_of_ne_nil (List.isEmpty_eq_false_iff.mp hne.symm)
  have honce := h.once
  rw [heq, List.length_cons] at honce
  cases rest with
  | nil => exact ⟨removal, heq⟩
  | cons _ _ => exact absurd honce (by simp)

/-- A waiter reports what took it out. -/
theorem Sound.report (h : w.Sound) (hwaiting : w.waiting = true) {removal : WaiterRemoval}
    (hremovals : w.removals = [removal]) : (w.report removal.result).Sound := by
  have hreports := h.reports
  rw [hwaiting, if_pos rfl] at hreports
  have hlinked := h.linked
  rw [hremovals] at hlinked
  refine ⟨h.linked, h.once, h.asyncData, h.references, h.releases, h.message, ?_, ?_,
    fun _ => nofun, h.timeoutJob⟩
  · simp [FutexWaiter.report, hreports, hremovals]
  · intro hlinked'
    exact absurd (hlinked.symm.trans hlinked') (by simp)

end FutexWaiter

/-! ### Taking waiters out -/

namespace FutexWaiters

/-- What holds between the steps: a list has the linked waiters of its address, in the order in
which they were made, and there is no empty list. -/
structure Inv (s : FutexWaiters) : Prop where
  sound : ∀ w ∈ s.nodes, w.Sound
  mem_listed : ∀ addr id, id ∈ s.listed addr ↔
    ∃ w ∈ s.nodes[id]?, w.addr = addr ∧ w.linked = true
  ordered : ∀ addr, (s.listed addr).Pairwise (· < ·)
  noEmpty : ∀ addr, s.waiters addr ≠ some []

/-- **Some waiters of an address are taken out**, and nothing else happens: they are changed in
a way, and the others stay listed, in their order. -/
structure TakesOut (s s' : FutexWaiters) (addr : ℕ) (out : List ℕ)
    (change : FutexWaiter → FutexWaiter) : Prop where
  nodes : ∀ id, s'.nodes[id]? = (s.nodes[id]?).map fun w => if id ∈ out then change w else w
  others : ∀ a ≠ addr, s'.waiters a = s.waiters a
  listed : s'.listed addr = (s.listed addr).filter (· ∉ out)
  noEmpty : s'.waiters addr ≠ some []
  memory : s'.memory = s.memory

section TakeOut

variable {s s' : FutexWaiters} {addr : ℕ} {out : List ℕ} {change : FutexWaiter → FutexWaiter}

/-- Replacing the list of an address changes that list only. -/
theorem listed_setList (a : ℕ) (list : Option (List ℕ)) :
    (s.setList addr list).listed a = if a = addr then list.getD [] else s.listed a := by
  by_cases h : a = addr
  · subst h
    simp [listed, setList]
  · simp [listed, setList, h]

/-- Dropping an empty list does not change who waits at which address. -/
theorem listed_removeIfEmpty (a : ℕ) : (s.removeIfEmpty addr).listed a = s.listed a := by
  unfold removeIfEmpty
  split
  · next h =>
      rw [listed_setList]
      split
      · next ha => rw [ha, listed, h]; rfl
      · rfl
  · rfl

/-- Taking linked waiters out keeps the invariant. -/
theorem TakesOut.inv (h : TakesOut s s' addr out change) (hinv : s.Inv)
    (hout : ∀ id ∈ out, id ∈ s.listed addr)
    (hchange : ∀ id ∈ out, ∀ w ∈ s.nodes[id]?, w.Sound → w.linked = true →
      (change w).Sound ∧ (change w).linked = false) : s'.Inv := by
  have hnode : ∀ id w, s.nodes[id]? = some w → id ∈ out → w.Sound ∧ w.addr = addr ∧
      w.linked = true := by
    intro id w hw hid
    obtain ⟨w', hw', haddr, hlinked⟩ := (hinv.mem_listed addr id).mp (hout id hid)
    obtain rfl : w = w' := Option.some.inj (hw.symm.trans hw')
    exact ⟨hinv.sound w (List.mem_of_getElem? hw), haddr, hlinked⟩
  have hlisted : ∀ a, s'.listed a = if a = addr then (s.listed addr).filter (· ∉ out)
      else s.listed a := by
    intro a
    split
    · next ha => rw [ha, h.listed]
    · next ha => rw [FutexWaiters.listed, h.others a ha]; rfl
  refine ⟨fun w hw => ?_, fun a id => ?_, fun a => ?_, fun a => ?_⟩
  · obtain ⟨id, hid⟩ := List.getElem?_of_mem hw
    rw [h.nodes id] at hid
    obtain ⟨w₀, hw₀, rfl⟩ := Option.map_eq_some_iff.mp hid
    split
    · next hmem =>
        obtain ⟨hsound, -, hlinked⟩ := hnode id w₀ hw₀ hmem
        exact (hchange id hmem w₀ hw₀ hsound hlinked).1
    · exact hinv.sound w₀ (List.mem_of_getElem? hw₀)
  · rw [hlisted a]
    by_cases hid : id ∈ out
    · -- taken out: linked no longer, and listed no longer
      have hnot : ¬ id ∈ if a = addr then (s.listed addr).filter (· ∉ out) else s.listed a := by
        split
        · simp [hid]
        · next ha =>
            intro hmem
            obtain ⟨w, hw, haddr, -⟩ := (hinv.mem_listed a id).mp hmem
            exact ha (haddr.symm.trans (hnode id w hw hid).2.1)
      refine iff_of_false hnot ?_
      rintro ⟨w, hw, -, hlinked⟩
      rw [h.nodes id] at hw
      obtain ⟨w₀, hw₀, rfl⟩ := Option.map_eq_some_iff.mp hw
      obtain ⟨hsound, -, hlinked₀⟩ := hnode id w₀ hw₀ hid
      rw [if_pos hid, (hchange id hid w₀ hw₀ hsound hlinked₀).2] at hlinked
      cases hlinked
    · have hsame : s'.nodes[id]? = s.nodes[id]? := by
        rw [h.nodes id]
        cases s.nodes[id]? <;> simp [hid]
      rw [hsame, ← hinv.mem_listed a id]
      split
      · next ha => simp [ha, hid]
      · rfl
  · rw [hlisted a]
    split
    · exact (hinv.ordered addr).filter _
    · exact hinv.ordered a
  · by_cases ha : a = addr
    · exact ha ▸ h.noEmpty
    · rw [h.others a ha]
      exact hinv.noEmpty a

/-! ### The two ways out of a list -/

/-- An address where someone waits has a list. -/
theorem waiters_of_listed {id : ℕ} (h : id ∈ s.listed addr) :
    s.waiters addr = some (s.listed addr) := by
  cases hw : s.waiters addr with
  | none => simp [listed, hw] at h
  | some list => simp [listed, hw]

/-- The node of a listed waiter. -/
theorem Inv.node (hinv : s.Inv) {id : ℕ} (h : id ∈ s.listed addr) :
    ∃ w, s.nodes[id]? = some w ∧ w.Sound ∧ w.addr = addr ∧ w.linked = true := by
  obtain ⟨w, hw, haddr, hlinked⟩ := (hinv.mem_listed addr id).mp h
  exact ⟨w, hw, hinv.sound w (List.mem_of_getElem? hw), haddr, hlinked⟩

/-- Changing one waiter leaves all the others as they are. -/
theorem getElem?_setNode {id : ℕ} (h : id < s.nodes.length) (i : ℕ) (w : FutexWaiter) :
    (s.setNode id w).nodes[i]? = if i = id then some w else s.nodes[i]? := by
  by_cases hi : i = id
  · subst hi
    simp [setNode, h]
  · simp [setNode, hi, Ne.symm hi]

/-- Only an empty list of the address itself is dropped. -/
theorem waiters_removeIfEmpty (a : ℕ) : (s.removeIfEmpty addr).waiters a =
    if a = addr ∧ s.waiters addr = some [] then none else s.waiters a := by
  unfold removeIfEmpty
  by_cases h : s.waiters addr = some []
  · by_cases ha : a = addr <;> simp [h, ha, setList]
  · simp [h]

/-- Dropping an empty list touches no waiter. -/
@[simp] theorem nodes_removeIfEmpty : (s.removeIfEmpty addr).nodes = s.nodes := by
  unfold removeIfEmpty
  split <;> rfl

/-- Dropping an empty list touches no memory. -/
@[simp] theorem memory_removeIfEmpty : (s.removeIfEmpty addr).memory = s.memory := by
  unfold removeIfEmpty
  split <;> rfl

/-- **`remove_waiter`** takes out the one waiter. -/
theorem removeWaiter_spec (hinv : s.Inv) {id : ℕ} {w : FutexWaiter}
    (hw : s.nodes[id]? = some w) (hlinked : w.linked = true) :
    ∃ s', s.removeWaiter id = some s' ∧
      TakesOut s s' w.addr [id] (FutexWaiter.unlinked .timedOut) := by
  have hmem : id ∈ s.listed w.addr := (hinv.mem_listed _ _).mpr ⟨w, hw, rfl, hlinked⟩
  have hsound := hinv.sound w (List.mem_of_getElem? hw)
  have hlength := (List.getElem?_eq_some_iff.mp hw).1
  have hnodup : (s.listed w.addr).Nodup := (hinv.ordered w.addr).imp Nat.ne_of_lt
  have heq : s.removeWaiter id = some (((s.setList w.addr
      (some ((s.listed w.addr).erase id))).setNode id
        (w.unlinked .timedOut)).removeIfEmpty w.addr) := by
    rw [removeWaiter, hw, Option.bind_some, waiters_of_listed hmem, Option.bind_some,
      if_pos ⟨hlinked, hmem⟩, hsound.unlink_eq hlinked, Option.map_some]
  refine ⟨_, heq, fun i => ?_, fun a ha => ?_, ?_, ?_, ?_⟩
  · rw [nodes_removeIfEmpty,
      getElem?_setNode (s := s.setList w.addr (some ((s.listed w.addr).erase id))) hlength]
    by_cases hi : i = id
    · subst hi
      simp [hw]
    · simp only [hi, if_false, List.mem_singleton, setList, Option.map_id']
  · rw [waiters_removeIfEmpty, if_neg (fun h => ha h.1)]
    simp [setNode, setList, ha]
  · rw [listed_removeIfEmpty, FutexWaiters.listed]
    simp only [setNode, setList, Function.update_self, Option.getD_some]
    rw [hnodup.erase_eq_filter]
    congr 1
    funext i
    by_cases hi : i = id <;> simp [hi]
  · rw [waiters_removeIfEmpty]
    split
    · simp
    · next h => exact fun hempty => h ⟨rfl, hempty⟩
  · rw [memory_removeIfEmpty]
    rfl

/-- The loop of `notify_many`. -/
theorem notifyLoop_spec (maxCount remaining : ℕ) {list : List ℕ}
    (hlist : s.waiters addr = some list) (hnodup : list.Nodup)
    (hnodes : ∀ id ∈ list, ∃ w, s.nodes[id]? = some w ∧ w.Sound ∧ w.linked = true) :
    ∃ s', notifyLoop addr maxCount s remaining =
        some (maxCount - (remaining - list.length), s') ∧
      (∀ id, s'.nodes[id]? = (s.nodes[id]?).map fun w =>
        if id ∈ list.take remaining then w.notified else w) ∧
      (∀ a ≠ addr, s'.waiters a = s.waiters a) ∧
      s'.waiters addr =
        (if list.drop remaining = [] then none else some (list.drop remaining)) ∧
      s'.memory = s.memory := by
  induction remaining generalizing s list with
  | zero =>
      refine ⟨_, by rw [notifyLoop, Nat.zero_sub, Nat.sub_zero], fun id => ?_, fun a ha => ?_, ?_,
        memory_removeIfEmpty⟩
      · simp
      · rw [waiters_removeIfEmpty, if_neg (fun h => ha h.1)]
      · rw [waiters_removeIfEmpty, hlist]
        by_cases h : list = [] <;> simp [h]
  | succ remaining ih =>
      cases list with
      | nil =>
          refine ⟨s.setList addr none, by simp [notifyLoop, hlist], fun id => ?_, fun a ha => ?_,
            ?_, rfl⟩
          · simp [setList]
          · simp [setList, ha]
          · simp [setList]
      | cons id rest =>
          obtain ⟨hid, hrest⟩ := List.nodup_cons.mp hnodup
          obtain ⟨w, hw, hsound, hlinked⟩ := hnodes id List.mem_cons_self
          have hlength : id < (s.setList addr (some rest)).nodes.length :=
            (List.getElem?_eq_some_iff.mp hw).1
          have hunlink : w.signal.unlink .notified = some w.notified :=
            hsound.signal.unlink_eq hlinked .notified
          obtain ⟨s', hs', hs'nodes, hothers, hwaiters, hmemory⟩ := ih
            (s := (s.setList addr (some rest)).setNode id w.notified)
            (by simp [setNode, setList]) hrest (fun i hi => by
              have hne : i ≠ id := fun h => hid (h ▸ hi)
              rw [getElem?_setNode hlength, if_neg hne]
              exact hnodes i (List.mem_cons_of_mem _ hi))
          refine ⟨s', ?_, fun i => ?_, fun a ha => ?_, hwaiters, hmemory⟩
          · simp only [notifyLoop, hlist, hw, Option.bind_some, hunlink, hs', List.length_cons,
              Nat.add_sub_add_right]
          · rw [hs'nodes i, getElem?_setNode hlength]
            by_cases hi : i = id
            · subst hi
              have hnot : i ∉ rest.take remaining := fun h => hid (List.mem_of_mem_take h)
              simp [hw, hnot]
            · simp [hi, setList]
          · rw [hothers a ha]
            simp [setNode, setList, ha]

/-- The rest of a list without repetitions. -/
theorem filter_notMem_take {list : List ℕ} (h : list.Nodup) (n : ℕ) :
    list.filter (· ∉ list.take n) = list.drop n := by
  have hdisjoint : ∀ i ∈ list.drop n, i ∉ list.take n := by
    have hnodup : (list.take n ++ list.drop n).Nodup := by rwa [List.take_append_drop]
    exact fun i hi hi' => (List.nodup_append.mp hnodup).2.2 i hi' i hi rfl
  have hsplit : list.filter (· ∉ list.take n) =
      (list.take n ++ list.drop n).filter (· ∉ list.take n) := by
    rw [List.take_append_drop]
  rw [hsplit, List.filter_append, List.filter_eq_nil_iff.mpr (by simp),
    List.filter_eq_self.mpr (by simpa using hdisjoint), List.nil_append]

/-- **`notify_many`** takes the oldest waiters out, as many as there are and were asked for, and
says how many. -/
theorem notifyMany_spec (hinv : s.Inv) (addr count : ℕ) :
    ∃ s', s.notifyMany addr count = some (min count (s.listed addr).length, s') ∧
      TakesOut s s' addr ((s.listed addr).take count) FutexWaiter.notified := by
  have hnodup : (s.listed addr).Nodup := (hinv.ordered addr).imp Nat.ne_of_lt
  cases hlist : s.waiters addr with
  | none =>
      have hlisted : s.listed addr = [] := by rw [FutexWaiters.listed, hlist]; rfl
      refine ⟨s, ?_, fun id => ?_, fun _ _ => rfl, ?_, hinv.noEmpty addr, rfl⟩
      · simp [notifyMany, hlist, hlisted]
      · simp [hlisted]
      · simp [hlisted]
  | some list =>
      have hlisted : s.listed addr = list := by rw [FutexWaiters.listed, hlist]; rfl
      obtain ⟨s', hs', hnodes, hothers, hwaiters, hmemory⟩ := notifyLoop_spec count
        count hlist (hlisted ▸ hnodup) (fun id hid => by
          obtain ⟨w, hw, hsound, -, hlinked⟩ := hinv.node (hlisted.symm ▸ hid)
          exact ⟨w, hw, hsound, hlinked⟩)
      refine ⟨s', ?_, fun id => ?_, hothers, ?_, ?_, hmemory⟩
      · rw [notifyMany, hlist]
        simp only [hs', hlisted]
        congr 2
        omega
      · rw [hlisted, hnodes id]
      · rw [hlisted, filter_notMem_take (hlisted ▸ hnodup), FutexWaiters.listed, hwaiters]
        split
        · next h => rw [h]; rfl
        · rfl
      · rw [hwaiters]
        split
        · simp
        · next h => simpa using h

end TakeOut

/-! ### The steps -/

/-- Nothing happened to the waiters of an address. -/
def SameAt (s s' : FutexWaiters) (a : ℕ) : Prop :=
  s'.waiters a = s.waiters a ∧
    ∀ (id : ℕ) (w : FutexWaiter), s.nodes[id]? = some w → w.addr = a → s'.nodes[id]? = some w

/-- The address that a step is about. -/
def Label.address (s : FutexWaiters) : Label → Option ℕ
  | .wait addr _ _ _ | .waitAsync addr _ _ | .notify addr _ => some addr
  | .wake id _ | .timeoutJob id | .receive id _ => (s.nodes[id]?).map FutexWaiter.addr
  | .store _ _ => none

section Steps

variable {s s' : FutexWaiters} {addr id : ℕ} {out : List ℕ} {w : FutexWaiter}
  {change : FutexWaiter → FutexWaiter}

/-- Nothing changes at an address while nothing is done. -/
theorem SameAt.refl (s : FutexWaiters) (a : ℕ) : SameAt s s a := ⟨rfl, fun _ _ h _ => h⟩

/-- Waiters of other addresses stay as they are. -/
theorem TakesOut.sameAt (h : TakesOut s s' addr out change) (hinv : s.Inv)
    (hout : ∀ id ∈ out, id ∈ s.listed addr) {a : ℕ} (ha : a ≠ addr) : SameAt s s' a := by
  refine ⟨h.others a ha, fun id w hw haddr => ?_⟩
  have hid : id ∉ out := by
    intro hid
    obtain ⟨w', hw', haddr', -⟩ := (hinv.mem_listed addr id).mp (hout id hid)
    obtain rfl : w = w' := Option.some.inj (hw.symm.trans hw')
    exact ha (haddr.symm.trans haddr')
  rw [h.nodes id, hw, Option.map_some, if_neg hid]

/-- A new waiter is behind all the others. -/
theorem getElem?_addWaiter (id : ℕ) : (s.addWaiter w).nodes[id]? =
    if id = s.nodes.length then some w else s.nodes[id]? := by
  simp only [FutexWaiters.addWaiter, List.getElem?_append]
  rcases Nat.lt_trichotomy id s.nodes.length with h | h | h
  · simp [h, Nat.ne_of_lt h]
  · simp [h]
  · have hnot : ¬ id < s.nodes.length := by omega
    have hsub : id - s.nodes.length ≠ 0 := by omega
    simp [hnot, Nat.ne_of_gt h, hsub]

/-- A new waiter is the youngest of its address. -/
theorem Inv.addWaiter (hinv : s.Inv) (hsound : w.Sound) (hlinked : w.linked = true) :
    (s.addWaiter w).Inv := by
  have hlisted : ∀ a, (s.addWaiter w).listed a =
      if a = w.addr then s.listed a ++ [s.nodes.length] else s.listed a := by
    intro a
    by_cases ha : a = w.addr
    · subst ha
      simp [FutexWaiters.addWaiter, FutexWaiters.listed]
    · simp [FutexWaiters.addWaiter, FutexWaiters.listed, ha]
  have hbound : ∀ a, ∀ id ∈ s.listed a, id < s.nodes.length := by
    intro a id hid
    obtain ⟨w', hw', -⟩ := (hinv.mem_listed a id).mp hid
    exact (List.getElem?_eq_some_iff.mp hw').1
  refine ⟨fun w' hw' => ?_, fun a id => ?_, fun a => ?_, fun a => ?_⟩
  · rcases List.mem_append.mp hw' with hw' | hw'
    · exact hinv.sound w' hw'
    · exact List.mem_singleton.mp hw' ▸ hsound
  · rw [hlisted, getElem?_addWaiter]
    by_cases hid : id = s.nodes.length
    · subst hid
      have hnot : s.nodes.length ∉ s.listed a := fun h => Nat.lt_irrefl _ (hbound a _ h)
      by_cases ha : a = w.addr
      · simp [ha, hlinked]
      · simp [ha, hnot, Ne.symm ha]
    · rw [if_neg hid, ← hinv.mem_listed a id]
      split <;> simp [hid]
  · rw [hlisted]
    split
    · refine List.pairwise_append.mpr ⟨hinv.ordered a, List.pairwise_singleton _ _, ?_⟩
      intro id hid id' hid'
      rw [List.mem_singleton.mp hid']
      exact hbound a id hid
    · exact hinv.ordered a
  · by_cases ha : a = w.addr
    · subst ha
      simp [FutexWaiters.addWaiter]
    · simpa [FutexWaiters.addWaiter, ha] using hinv.noEmpty a

/-- A waiter may change while its place stays the same. -/
theorem Inv.setNode (hinv : s.Inv) (hw : s.nodes[id]? = some w) {w' : FutexWaiter}
    (hsound : w'.Sound) (haddr : w'.addr = w.addr) (hlinked : w'.linked = w.linked) :
    (s.setNode id w').Inv := by
  have hlength := (List.getElem?_eq_some_iff.mp hw).1
  refine ⟨fun x hx => ?_, fun a i => ?_, hinv.ordered, hinv.noEmpty⟩
  · rcases List.mem_or_eq_of_mem_set hx with hx | rfl
    · exact hinv.sound x hx
    · exact hsound
  · rw [getElem?_setNode hlength]
    by_cases hi : i = id
    · subst hi
      have hiff := hinv.mem_listed a i
      simp only [hw, Option.mem_def, Option.some.injEq, exists_eq_left'] at hiff
      simp only [if_true, Option.mem_def, Option.some.injEq, exists_eq_left', haddr, hlinked]
      exact hiff
    · rw [if_neg hi]
      exact hinv.mem_listed a i

/-- Changing a waiter of one address changes nothing at another one. -/
theorem SameAt.setNode (hw : s.nodes[id]? = some w) (w' : FutexWaiter) {a : ℕ}
    (ha : a ≠ w.addr) : SameAt s (s.setNode id w') a := by
  have hlength := (List.getElem?_eq_some_iff.mp hw).1
  refine ⟨rfl, fun i x hx haddr => ?_⟩
  have hi : i ≠ id := by
    rintro rfl
    obtain rfl : w = x := Option.some.inj (hw.symm.trans hx)
    exact ha haddr.symm
  rw [getElem?_setNode hlength, if_neg hi, hx]

/-- What is left alone twice is left alone. -/
theorem SameAt.trans {s'' : FutexWaiters} {a : ℕ} (h : SameAt s s' a) (h' : SameAt s' s'' a) :
    SameAt s s'' a :=
  ⟨h'.1.trans h.1, fun id w hw haddr => h'.2 id w (h.2 id w hw haddr) haddr⟩

/-- A new waiter of one address changes nothing at another one. -/
theorem SameAt.addWaiter (s : FutexWaiters) (w : FutexWaiter) {a : ℕ} (ha : a ≠ w.addr) :
    SameAt s (s.addWaiter w) a := by
  refine ⟨by simp [FutexWaiters.addWaiter, ha], fun id x hx _ => ?_⟩
  have hne : id ≠ s.nodes.length := Nat.ne_of_lt (List.getElem?_eq_some_iff.mp hx).1
  rw [getElem?_addWaiter, if_neg hne, hx]

/-- What a step about an address comes to. -/
def Completes (s : FutexWaiters) (addr : ℕ) (result : Option FutexWaiters) : Prop :=
  ∃ s', result = some s' ∧ s'.Inv ∧ ∀ a ≠ addr, SameAt s s' a

/-- A turn of `wait`. -/
theorem waitTurn_spec (hinv : s.Inv) (hw : s.nodes[id]? = some w) (hsync : w.isAsync = false)
    (hwaiting : w.waiting = true) (expired : Bool) :
    Completes s w.addr (s.waitTurn id expired) := by
  have hsound := hinv.sound w (List.mem_of_getElem? hw)
  rw [waitTurn, hw, Option.bind_some]
  cases hlinked : w.linked with
  | false =>
      -- only a notification leaves a sleeping agent unlinked
      obtain ⟨removal, hremoval⟩ := hsound.removal hlinked
      have hnotified : removal = .notified := by
        have hasleep := hsound.asleep hsync hwaiting
        rw [hremoval] at hasleep
        cases removal with
        | notified => rfl
        | timedOut => exact absurd List.mem_cons_self hasleep
      subst hnotified
      refine ⟨s.setNode id (w.report .ok), by simp [reportNode, hw], ?_,
        fun a ha => SameAt.setNode hw _ ha⟩
      exact hinv.setNode hw (hsound.report hwaiting hremoval) rfl rfl
  | true =>
      cases htimeout : w.hasTimeout && expired with
      | false => exact ⟨s, rfl, hinv, fun a _ => SameAt.refl s a⟩
      | true =>
          obtain ⟨s₁, hs₁, htakes⟩ := removeWaiter_spec hinv hw hlinked
          have hmem : id ∈ s.listed w.addr := (hinv.mem_listed _ _).mpr ⟨w, hw, rfl, hlinked⟩
          have hout : ∀ i ∈ [id], i ∈ s.listed w.addr := by simpa using hmem
          have hw₁ : s₁.nodes[id]? = some (w.unlinked .timedOut) := by
            rw [htakes.nodes, hw]
            simp
          have hboth : TakesOut s (s₁.setNode id ((w.unlinked .timedOut).report .timedOut)) w.addr
              [id] (fun w => (w.unlinked .timedOut).report .timedOut) := by
            refine ⟨fun i => ?_, htakes.others, htakes.listed, htakes.noEmpty, htakes.memory⟩
            rw [getElem?_setNode (List.getElem?_eq_some_iff.mp hw₁).1, htakes.nodes]
            by_cases hi : i = id
            · subst hi
              simp [hw]
            · simp [hi]
          refine ⟨_, ?_, hboth.inv hinv hout fun i _ w' hw' hsound' hlinked' => ?_,
            fun a ha => hboth.sameAt hinv hout ha⟩
          · simp [hs₁, reportNode, hw₁]
          · exact ⟨hsound'.timedOut hlinked', rfl⟩

/-- The timeout job. -/
theorem runTimeoutJob_spec (hinv : s.Inv) (hw : s.nodes[id]? = some w)
    (hjob : w.timeoutJob = true) : Completes s w.addr (s.runTimeoutJob id) := by
  have hsound := hinv.sound w (List.mem_of_getElem? hw)
  have hlength := (List.getElem?_eq_some_iff.mp hw).1
  have hinv₁ : (s.setNode id w.withoutJob).Inv := hinv.setNode hw hsound.withoutJob rfl rfl
  have hw₁ : (s.setNode id w.withoutJob).nodes[id]? = some w.withoutJob := by
    rw [getElem?_setNode hlength, if_pos rfl]
  rw [runTimeoutJob, hw, Option.bind_some]
  by_cases hcond : w.references ≠ 0 ∧ w.linked = true
  · obtain ⟨s', hs', htakes⟩ := removeWaiter_spec hinv₁ hw₁ hcond.2
    have hmem : id ∈ (s.setNode id w.withoutJob).listed w.addr :=
      (hinv₁.mem_listed _ _).mpr ⟨_, hw₁, rfl, hcond.2⟩
    have hout : ∀ i ∈ [id], i ∈ (s.setNode id w.withoutJob).listed w.addr := by
      simpa using hmem
    refine ⟨s', by rw [if_pos hcond, hs'], ?_,
      fun a ha => (SameAt.setNode hw _ ha).trans (htakes.sameAt hinv₁ hout ha)⟩
    refine htakes.inv hinv₁ hout fun i hi w' hw' hsound' hlinked' => ?_
    obtain rfl := List.mem_singleton.mp hi
    obtain rfl := Option.some.inj (hw₁.symm.trans hw')
    refine ⟨hsound'.unlinked hlinked' fun hsync => ?_, rfl⟩
    exact absurd ((hsound.timeoutJob hjob).symm.trans hsync) (by decide)
  · exact ⟨_, by rw [if_neg hcond], hinv₁, fun a ha => SameAt.setNode hw _ ha⟩

/-- The result of `wait_async` arrives. -/
theorem receive_spec (hinv : s.Inv) (hw : s.nodes[id]? = some w) (hasync : w.isAsync = true)
    (hwaiting : w.waiting = true) {result : AtomicsWaitResult}
    (hmessage : w.message = some result) : Completes s w.addr (s.receive id result) := by
  have hsound := hinv.sound w (List.mem_of_getElem? hw)
  have hsent := hsound.message
  rw [hasync, if_pos rfl, hmessage] at hsent
  obtain ⟨removal, hremoval, rfl⟩ := Option.map_eq_some_iff.mp hsent.symm
  obtain ⟨rest, hrest⟩ := List.head?_eq_some_iff.mp hremoval
  have hremovals : w.removals = [removal] := by
    have honce := hsound.once
    rw [hrest, List.length_cons] at honce
    rw [hrest, List.length_eq_zero_iff.mp (Nat.le_zero.mp (Nat.le_of_succ_le_succ honce))]
  refine ⟨_, by rw [receive, hw]; rfl, ?_, fun a ha => SameAt.setNode hw _ ha⟩
  exact hinv.setNode hw (hsound.report hwaiting hremovals).withoutJob rfl rfl

/-- **What every step preserves**: a step that an agent can do is defined, keeps the invariant,
and leaves the waiters of other addresses alone. -/
theorem Inv.step (hinv : s.Inv) {l : Label} (henabled : s.Enabled l) :
    ∃ s', s.exec l = some s' ∧ s'.Inv ∧ ∀ a, l.address s ≠ some a → SameAt s s' a := by
  have hcompletes : ∀ {a : ℕ} {result : Option FutexWaiters}, Completes s a result →
      l.address s = some a → s.exec l = result →
      ∃ s', s.exec l = some s' ∧ s'.Inv ∧ ∀ a, l.address s ≠ some a → SameAt s s' a := by
    rintro a result ⟨s', rfl, hinv', hsame⟩ haddr hexec
    refine ⟨s', hexec, hinv', fun a' ha => hsame a' ?_⟩
    rintro rfl
    exact ha haddr
  cases l with
  | wait addr check hasTimeout expired =>
      by_cases hcheck : check = s.memory addr
      · have hinv₁ := hinv.addWaiter (FutexWaiter.sound_newSync addr hasTimeout) rfl
        have hw₁ : (s.addWaiter (.newSync addr hasTimeout)).nodes[s.nodes.length]? =
            some (.newSync addr hasTimeout) := by
          rw [getElem?_addWaiter, if_pos rfl]
        obtain ⟨s', hs', hinv', hsame⟩ := waitTurn_spec hinv₁ hw₁ rfl rfl expired
        refine hcompletes (a := addr) ⟨s', rfl, hinv', fun a ha =>
          (SameAt.addWaiter s _ ha).trans (hsame a ha)⟩ rfl ?_
        simp [exec, FutexWaiters.wait, hcheck, hs']
      · refine hcompletes (a := addr) ⟨s, rfl, hinv, fun a _ => SameAt.refl s a⟩ rfl ?_
        simp [exec, FutexWaiters.wait, hcheck]
  | waitAsync addr check timeout =>
      by_cases hcheck : check = s.memory addr ∧ timeout ≠ some 0
      · have hinv₁ := hinv.addWaiter (FutexWaiter.sound_newAsync addr timeout.isSome) rfl
        refine hcompletes (a := addr) ⟨_, rfl, hinv₁, fun a ha => SameAt.addWaiter s _ ha⟩ rfl ?_
        simp [exec, FutexWaiters.waitAsync, hcheck]
      · refine hcompletes (a := addr) ⟨s, rfl, hinv, fun a _ => SameAt.refl s a⟩ rfl ?_
        by_cases hvalue : check = s.memory addr
        · have hzero : timeout = some 0 := by simpa [hvalue] using hcheck
          simp [exec, FutexWaiters.waitAsync, hvalue, hzero]
        · simp [exec, FutexWaiters.waitAsync, hvalue]
  | notify addr count =>
      obtain ⟨s', hs', htakes⟩ := notifyMany_spec hinv addr count
      have hout : ∀ id ∈ (s.listed addr).take count, id ∈ s.listed addr :=
        fun id hid => List.mem_of_mem_take hid
      refine hcompletes (a := addr) ⟨s', rfl, htakes.inv hinv hout ?_,
        fun a ha => htakes.sameAt hinv hout ha⟩ rfl (by rw [exec, hs']; rfl)
      exact fun id _ w _ hsound hlinked => ⟨hsound.signal.unlinked hlinked fun _ => rfl, rfl⟩
  | wake id expired =>
      obtain ⟨w, hw, hsync, hwaiting⟩ := henabled
      exact hcompletes (waitTurn_spec hinv hw hsync hwaiting expired)
        (congrArg (Option.map FutexWaiter.addr) hw) rfl
  | timeoutJob id =>
      obtain ⟨w, hw, hjob⟩ := henabled
      exact hcompletes (runTimeoutJob_spec hinv hw hjob)
        (congrArg (Option.map FutexWaiter.addr) hw) rfl
  | receive id result =>
      obtain ⟨w, hw, hasync, hwaiting, hmessage⟩ := henabled
      exact hcompletes (receive_spec hinv hw hasync hwaiting hmessage)
        (congrArg (Option.map FutexWaiter.addr) hw) rfl
  | store addr value =>
      exact ⟨_, rfl, ⟨hinv.sound, hinv.mem_listed, hinv.ordered, hinv.noEmpty⟩,
        fun a _ => SameAt.refl s a⟩

end Steps

/-! ### Whole runs -/

/-- **The wait lists are right.** -/
structure Correct (s : FutexWaiters) : Prop where
  /-- A notification takes out and wakes the oldest waiters of the address, and returns how many
  they are. -/
  notify : ∀ addr count, ∃ s',
    s.notifyMany addr count = some (min count (s.listed addr).length, s') ∧
      TakesOut s s' addr ((s.listed addr).take count) FutexWaiter.notified
  /-- A list has its waiters in the order in which they were made. -/
  oldest : ∀ addr, (s.listed addr).Pairwise (· < ·)
  /-- Exactly the waiters that nothing took out yet are listed, for their address. -/
  listed : ∀ addr id, id ∈ s.listed addr ↔ ∃ w ∈ s.nodes[id]?, w.addr = addr ∧ w.removals = []
  noEmpty : ∀ addr, s.waiters addr ≠ some []
  /-- A waiter is taken out once. -/
  once : ∀ w ∈ s.nodes, w.removals.length ≤ 1
  /-- A waiter that reports was taken out, and reports by what. -/
  reports : ∀ w ∈ s.nodes, w.waiting = true ∧ w.reports = [] ∨
    w.waiting = false ∧ ∃ removal, w.removals = [removal] ∧ w.reports = [removal.result]
  /-- An asynchronous waiter releases its reference to itself when it is taken out. -/
  released : ∀ w ∈ s.nodes, w.isAsync = true →
    w.releases = w.removals.length ∧ w.references + w.releases = 1
  /-- A listed waiter is still there: its agent sleeps, or it has its reference to itself. -/
  alive : ∀ w ∈ s.nodes, w.removals = [] → w.waiting = true ∧ (w.isAsync = true → w.references = 1)
  /-- No step panics, frees twice or uses a node that is not in its list, and every step leaves
  the waiters of other addresses alone. -/
  steps : ∀ l, s.Enabled l → ∃ s', s.exec l = some s' ∧
    ∀ a, l.address s ≠ some a → SameAt s s' a

/-- Where no one waits, the invariant holds. -/
theorem inv_initial (memory : ℕ → ℕ) : (initial memory).Inv where
  sound := fun w hw => absurd hw List.not_mem_nil
  mem_listed := fun addr id => by simp [FutexWaiters.listed, initial]
  ordered := fun _ => .nil
  noEmpty := fun addr h => by cases h

/-- **Every interleaving** keeps the invariant. -/
theorem reachable_inv {s : FutexWaiters} (h : system.Reachable s) : s.Inv := by
  refine TransitionSystem.Run.invariant (I := Inv) ?_ ?_ h
  · rintro s ⟨memory, rfl⟩
    exact inv_initial memory
  · rintro s l s' hinv - ⟨henabled, hexec⟩
    obtain ⟨s₁, hs₁, hinv₁, -⟩ := hinv.step henabled
    exact Option.some.inj (hs₁.symm.trans hexec) ▸ hinv₁

/-- Two waiters of one address, one of which is notified. -/
def oneNotified : FutexWaiters :=
  ((((initial fun _ => 0).exec (.wait 8 0 true false)).bind (exec · (.waitAsync 8 0 (some 5)))).bind
    (exec · (.notify 8 1))).getD (initial fun _ => 0)

end FutexWaiters

end BoaLigero
