import BoaLigero.Vm.SourceInfo.SourceMap

/-!
# The Source Map Builder Against Nested Scopes

What `SourceMapBuilder` makes of the calls for nested scopes.

The builder returns early when nothing is left of the scope that ends, even if scopes inside
it have left entries; it does not split a scope whose child begins where it begins, even if
that child was split; and it takes the end of the last entry for the end of all scopes, even
if that is the entry of an empty scope. Where none of this happens, the entries are the
segments that the scopes are flattened to.

## Main results

* `runAll_children` — the calls for the scopes inside a scope.
* `runAll_calls` — the calls for all scopes.
* `SourceScopes.mappedRight` — the entries are sorted, and the search finds the position of the
  innermost scope.
-/

namespace BoaLigero

/-! ### When the builder goes astray -/

namespace SourceScopes

/-- The scopes inside a scope that has come to an address are split as they should: each of
them has something left behind the scopes in it, and one that begins at this address is not
split itself. -/
def SplitsFrom : SourceScopes → ℕ → Prop
  | .nil, _ => True
  | .cons start _ finish children rest, cur =>
      (start < finish → children.current start < finish ∧
        (cur = start → children.current start = start) ∧ SplitsFrom children start) ∧
      SplitsFrom rest (if start < finish then finish else cur)

instance decidableSplitsFrom : (f : SourceScopes) → (cur : ℕ) → Decidable (f.SplitsFrom cur)
  | .nil, _ => .isTrue trivial
  | .cons start _ finish children rest, cur =>
      have := decidableSplitsFrom children start
      have := decidableSplitsFrom rest (if start < finish then finish else cur)
      inferInstanceAs (Decidable (_ ∧ _))

/-- The same for scopes that are in no other. -/
def Splits : SourceScopes → Prop
  | .nil => True
  | .cons start _ _ children rest => SplitsFrom children start ∧ Splits rest

instance decidableSplits : (f : SourceScopes) → Decidable f.Splits
  | .nil => .isTrue trivial
  | .cons start _ _ children rest =>
      have := decidableSplits rest
      inferInstanceAs (Decidable (SplitsFrom children start ∧ Splits rest))

/-- The end of the entry behind that of a scope, if that is an empty scope's: an empty scope
that no split followed. -/
def trailing : SourceScopes → ℕ → Option ℕ → Option ℕ
  | .nil, _, last => last
  | .cons start _ finish children rest, cur, _ =>
      if start < finish then
        trailing rest finish
          (if cur < children.current start then none else trailing children start none)
      else trailing rest cur (some finish)

/-- The end of the last entry. -/
def lastEnd : SourceScopes → ℕ → ℕ
  | .nil, finish => finish
  | .cons start _ finish children rest, _ =>
      lastEnd rest ((trailing children start none).getD finish)

/-- **What the builder relies on**: scopes are split as they should be, and the last entry ends
where the last scope ends. -/
def Tractable (f : SourceScopes) : Prop := f.Splits ∧ f.lastEnd 0 = f.last 0

instance (f : SourceScopes) : Decidable f.Tractable := inferInstanceAs (Decidable (_ ∧ _))

section Empty

variable {f : SourceScopes} {cur : ℕ}

/-- Inside an empty scope nothing is split. -/
theorem splitsFrom_of_ordered (h : NestedRanges.Ordered f cur cur) : f.SplitsFrom cur := by
  induction f with
  | nil => trivial
  | cons start position finish children rest ihc ihr =>
      obtain ⟨hstart, hchildren, hrest⟩ := h
      have := hchildren.le
      have := hrest.le
      obtain rfl : start = finish := by omega
      obtain rfl : start = cur := by omega
      exact ⟨fun hlt => absurd hlt (Nat.lt_irrefl _), by
        rw [if_neg (Nat.lt_irrefl _)]
        exact ihr hrest⟩

/-- Inside an empty scope all entries end with it. -/
theorem trailing_of_ordered (h : NestedRanges.Ordered f cur cur) (last : Option ℕ) :
    f.trailing cur last = last ∨ f.trailing cur last = some cur := by
  induction f generalizing last with
  | nil => exact .inl rfl
  | cons start position finish children rest ihc ihr =>
      obtain ⟨hstart, hchildren, hrest⟩ := h
      have := hchildren.le
      have := hrest.le
      obtain rfl : start = finish := by omega
      obtain rfl : start = cur := by omega
      rw [trailing, if_neg (Nat.lt_irrefl _)]
      exact .inr ((ihr hrest (some start)).elim id id)

end Empty

end SourceScopes

/-! ### Entries -/

/-- The segments of the entries that are not empty. -/
def liveSegments (entries : List EntryRange) : List (ℕ × Option Position) :=
  (entries.filter fun entry => !entry.isEmpty).map fun entry => (entry.start, entry.position)

section Live

variable {entries entries' : List EntryRange} {entry : EntryRange}

@[simp] theorem liveSegments_nil : liveSegments [] = [] := rfl

@[simp] theorem liveSegments_append :
    liveSegments (entries ++ entries') = liveSegments entries ++ liveSegments entries' := by
  simp [liveSegments]

theorem liveSegments_cons :
    liveSegments (entry :: entries) =
      (if entry.start < entry.finish then [(entry.start, entry.position)] else []) ++
        liveSegments entries := by
  by_cases h : entry.start < entry.finish
  · have hlive : entry.isEmpty = false := by simpa [EntryRange.isEmpty] using h
    simp [liveSegments, hlive, h]
  · have hempty : entry.isEmpty = true := by simpa [EntryRange.isEmpty] using h
    simp [liveSegments, hempty, h]

theorem liveSegments_eq_nil : liveSegments entries = [] ↔ ∀ entry ∈ entries, entry.isEmpty := by
  simp [liveSegments, List.filter_eq_nil_iff]

end Live

/-! ### The end of a scope -/

section Pop

variable {A M B : List EntryRange} {e outer : EntryRange} {K : List ℕ} {finish : ℕ}

/-- The end of a scope of which nothing is left. -/
theorem popSourcePosition_empty (hempty : finish ≤ e.start) :
    SourceMapBuilder.popSourcePosition ⟨A ++ e :: B, A.length :: K⟩ finish =
      some ⟨A ++ { e with finish } :: B, K⟩ := by
  simp [SourceMapBuilder.popSourcePosition, EntryRange.isEmpty, hempty]

variable (finish) in
/-- The end of a scope that is in no other. -/
theorem popSourcePosition_outermost :
    SourceMapBuilder.popSourcePosition ⟨A ++ e :: B, [A.length]⟩ finish =
      some ⟨A ++ { e with finish } :: B, []⟩ := by
  simp [SourceMapBuilder.popSourcePosition]

/-- The end of a scope that begins where what is left of its parent begins. -/
theorem popSourcePosition_eq (hlive : e.start < finish) (heq : outer.start = e.start) :
    SourceMapBuilder.popSourcePosition
        ⟨A ++ outer :: (M ++ e :: B), (A.length + (M.length + 1)) :: A.length :: K⟩ finish =
      some ⟨A ++ { e with finish } :: (M ++ { outer with start := finish } :: B),
        (A.length + (M.length + 1)) :: K⟩ := by
  simp [SourceMapBuilder.popSourcePosition, EntryRange.isEmpty, Nat.not_le.mpr hlive, heq]

/-- The end of a scope that begins behind what is left of its parent. -/
theorem popSourcePosition_lt (hlive : e.start < finish) (hlt : outer.start < e.start)
    (hopen : outer.finish = u32Max) :
    SourceMapBuilder.popSourcePosition
        ⟨A ++ outer :: (M ++ e :: B), (A.length + (M.length + 1)) :: A.length :: K⟩ finish =
      some ⟨A ++ { outer with finish := e.start } :: (M ++ { e with finish } :: B) ++
          [{ outer with start := finish }],
        (A.length + (M.length + 1) + (B.length + 1)) :: K⟩ := by
  simp [SourceMapBuilder.popSourcePosition, EntryRange.isEmpty, Nat.not_le.mpr hlive,
    Nat.compare_eq_lt.mpr hlt, hopen]
  omega

end Pop

/-! ### Scopes inside a scope -/

section Children

variable {f : SourceScopes} {hi : ℕ}

theorem runAll_append (b : SourceMapBuilder) (calls calls' : List SourceCall) :
    SourceCall.runAll b (calls ++ calls') =
      (SourceCall.runAll b calls).bind (SourceCall.runAll · calls') :=
  List.foldlM_append

theorem runAll_cons (b : SourceMapBuilder) (call : SourceCall) (calls : List SourceCall) :
    SourceCall.runAll b (call :: calls) =
      (SourceCall.run b call).bind (SourceCall.runAll · calls) := rfl

/-- The end of the last entry behind that of a scope. -/
def lastFinish (entries : List EntryRange) : Option ℕ := entries.getLast?.map EntryRange.finish

theorem lastFinish_append_cons (entries entries' : List EntryRange) (entry : EntryRange) :
    lastFinish (entries ++ entry :: entries') =
      some ((lastFinish entries').getD entry.finish) := by
  rw [lastFinish, List.getLast?_append_cons, List.getLast?_cons, lastFinish]
  cases entries'.getLast? <;> rfl

/-- **The scopes inside a scope**: the scope's entry moves on to where the last of them ended;
in front of it are the segments, behind it only empty entries. -/
theorem runAll_children {A B : List EntryRange} {e : EntryRange} {K : List ℕ}
    (hordered : NestedRanges.Ordered f e.start hi) (hsplits : f.SplitsFrom e.start)
    (hopen : e.finish = u32Max) (hempty : ∀ x ∈ B, x.isEmpty) :
    ∃ X B', SourceCall.runAll ⟨A ++ e :: B, A.length :: K⟩ f.calls =
        some ⟨A ++ X ++ { e with start := f.current e.start } :: B',
          (A.length + X.length) :: K⟩ ∧
      liveSegments X = f.segments e.start e.position ∧ (∀ x ∈ B', x.isEmpty) ∧
      lastFinish B' = f.trailing e.start (lastFinish B) := by
  induction f generalizing A B e K hi with
  | nil =>
      refine ⟨[], B, ?_, rfl, hempty, rfl⟩
      simp only [List.append_nil, List.length_nil, Nat.add_zero]
      rfl
  | cons start position finish children rest ihc ihr =>
      obtain ⟨hstart, hchildren, hrest⟩ := hordered
      obtain ⟨hscope, hsplitsRest⟩ := hsplits
      have hle := hchildren.le
      -- the scope itself, opened behind everything
      obtain ⟨X, B', hrun, hlive, hempty', hlast⟩ := ihc (A := A ++ e :: B) (B := [])
        (e := { start, finish := u32Max, position }) (K := A.length :: K) hchildren
        (by
          by_cases hlt : start < finish
          · exact (hscope hlt).2.2
          · obtain rfl : start = finish := by omega
            exact SourceScopes.splitsFrom_of_ordered hchildren) rfl (by simp)
      have hcalls : SourceCall.runAll ⟨A ++ e :: B, A.length :: K⟩
          (SourceScopes.calls (.cons start position finish children rest)) =
        (SourceMapBuilder.popSourcePosition ⟨A ++ e :: (B ++ X ++
          { start := children.current start, finish := u32Max, position } :: B'),
            (A.length + ((B ++ X).length + 1)) :: A.length :: K⟩ finish).bind
          (SourceCall.runAll · (SourceScopes.calls rest)) := by
        have hlength : (A ++ e :: B).length + X.length =
            A.length + ((B ++ X).length + 1) := by
          simp only [List.length_append, List.length_cons]
          omega
        rw [hlength] at hrun
        simp only [List.append_assoc, List.cons_append] at hrun ⊢
        rw [SourceScopes.calls, runAll_cons, SourceCall.run, Option.bind_some,
          SourceMapBuilder.pushSourcePosition, runAll_append]
        simp only [List.append_assoc, List.cons_append]
        rw [hrun, Option.bind_some, runAll_cons]
        rfl
      rw [hcalls]
      have hB := liveSegments_eq_nil.mpr hempty
      by_cases hlt : start < finish
      · obtain ⟨hleft, hsame, -⟩ := hscope hlt
        rw [if_pos hlt] at hsplitsRest
        have hmid := hchildren.current_mem
        by_cases heq : e.start = NestedRanges.current children start
        · -- the child takes the place of its parent
          have hstart' : e.start = start := by omega
          have hX : liveSegments X = [] := by
            rw [hlive, List.eq_nil_iff_forall_not_mem]
            intro x hx
            have := hchildren.segments_mem x hx
            omega
          rw [popSourcePosition_eq hleft heq, Option.bind_some]
          obtain ⟨Y, B'', hrun', hlive', hempty'', hlast'⟩ := ihr
            (A := A ++ { start := children.current start, finish, position } :: (B ++ X)) (B := B')
            (e := { e with start := finish }) (K := K) hrest hsplitsRest hopen
            hempty'
          refine ⟨{ start := children.current start, finish, position } :: (B ++ X) ++ Y, B'',
            ?_, ?_, hempty'', ?_⟩
          · simpa [NestedRanges.current, hlt, Nat.add_assoc, Nat.add_comm, Nat.add_left_comm]
              using hrun'
          · simp [liveSegments_cons, hB, hX, hlive', NestedRanges.segments, hlt, hstart',
              NestedRanges.close, ← hlive, hsame hstart']
          · rw [hlast', SourceScopes.trailing, if_pos hlt, if_neg (by omega), hlast]
            rfl
        · -- the parent is split
          have hbefore : e.start < start := by
            by_contra hnot
            have := hsame (by omega)
            omega
          rw [popSourcePosition_lt hleft (Nat.lt_of_lt_of_le hbefore hmid.1) hopen, Option.bind_some]
          obtain ⟨Y, B'', hrun', hlive', hempty'', hlast'⟩ := ihr
            (A := A ++ { e with finish := children.current start } ::
              (B ++ X ++ { start := children.current start, finish, position } :: B')) (B := [])
            (e := { e with start := finish }) (K := K) hrest hsplitsRest hopen
            (by simp)
          have hB' := liveSegments_eq_nil.mpr hempty'
          refine ⟨{ e with finish := children.current start } ::
              (B ++ X ++ { start := children.current start, finish, position } :: B') ++ Y, B'',
            ?_, ?_, hempty'', ?_⟩
          · simpa [NestedRanges.current, hlt, Nat.add_assoc, Nat.add_comm, Nat.add_left_comm]
              using hrun'
          · simp [liveSegments_cons, hleft, hB, hB', hlive, hlive', NestedRanges.segments, hlt,
              NestedRanges.close, hbefore, Nat.lt_of_lt_of_le hbefore hmid.1]
          · rw [hlast', SourceScopes.trailing, if_pos hlt, if_pos (by omega)]
            rfl
      · -- nothing is left of an empty scope
        obtain rfl : start = finish := by omega
        rw [if_neg hlt] at hsplitsRest
        have hcurrent := hchildren.current_eq
        have hX : liveSegments X = [] := by
          rw [hlive, List.eq_nil_iff_forall_not_mem]
          intro x hx
          have := hchildren.segments_mem x hx
          omega
        have hpop := popSourcePosition_empty (A := A ++ e :: (B ++ X)) (B := B')
          (e := { start := children.current start, finish := u32Max, position })
          (K := A.length :: K) hcurrent.ge
        simp only [List.append_assoc, List.cons_append, List.length_append, List.length_cons]
          at hpop ⊢
        rw [hpop, Option.bind_some]
        obtain ⟨Y, B'', hrun', hlive', hempty'', hlast'⟩ := ihr (A := A)
          (B := B ++ (X ++ { start := children.current start, finish := start, position } :: B'))
          (e := e) (K := K) (hrest.mono (by omega)) hsplitsRest hopen (by
            intro x hx
            simp only [List.mem_append, List.mem_cons] at hx
            rcases hx with hx | hx | rfl | hx
            · exact hempty x hx
            · exact liveSegments_eq_nil.mp hX x hx
            · simp [EntryRange.isEmpty, hcurrent]
            · exact hempty' x hx)
        have hfinish : lastFinish (B ++ (X ++
            { start := children.current start, finish := start, position } :: B')) = some start := by
          rw [← List.append_assoc, lastFinish_append_cons, hlast]
          rcases SourceScopes.trailing_of_ordered hchildren none with h | h
          · rw [lastFinish, List.getLast?_nil, Option.map_none, h]
            rfl
          · rw [lastFinish, List.getLast?_nil, Option.map_none, h]
            rfl
        refine ⟨Y, B'', ?_, ?_, hempty'', ?_⟩
        · simpa [NestedRanges.current] using hrun'
        · rw [hlive', NestedRanges.segments, if_neg hlt]
        · rw [hlast', SourceScopes.trailing, if_neg hlt, hfinish]

end Children

/-! ### All scopes -/

section Outermost

variable {f : SourceScopes} {lo hi finalPc : ℕ}

/-- The calls for scopes have addresses in order. -/
theorem ordered_of_calls (hpcs : (f.calls.map SourceCall.pc).Pairwise (· ≤ ·))
    (hbounds : ∀ call ∈ f.calls, lo ≤ call.pc ∧ call.pc ≤ hi) (hle : lo ≤ hi) :
    NestedRanges.Ordered f lo hi := by
  induction f generalizing lo hi with
  | nil => exact hle
  | cons start position finish children rest ihc ihr =>
      rw [SourceScopes.calls, List.map_cons, List.map_append, List.map_cons, List.pairwise_cons,
        List.pairwise_append, List.pairwise_cons] at hpcs
      obtain ⟨hstart, hchildren, ⟨hfinish, hrest⟩, hbetween⟩ := hpcs
      have hin : ∀ call ∈ SourceScopes.calls children, start ≤ call.pc ∧ call.pc ≤ finish := by
        intro call hcall
        have hmem := List.mem_map_of_mem (f := SourceCall.pc) hcall
        exact ⟨hstart _ (List.mem_append_left _ hmem),
          hbetween _ hmem _ List.mem_cons_self⟩
      have hpush := hbounds (.push start position) List.mem_cons_self
      have hpop := hbounds (.pop finish) (by simp [SourceScopes.calls])
      have hle' : start ≤ finish := hstart finish (by simp [SourceCall.pc])
      refine ⟨hpush.1, ihc hchildren hin hle', ihr hrest (fun call hcall => ?_) hpop.2⟩
      exact ⟨hfinish _ (List.mem_map_of_mem hcall),
        (hbounds call (by simp [SourceScopes.calls, hcall])).2⟩

/-- **All scopes**: the entries that are not empty are the segments the scopes are flattened
to. -/
theorem runAll_calls {A : List EntryRange} (hordered : NestedRanges.Ordered f lo hi)
    (hsplits : f.Splits) :
    ∃ entries, SourceCall.runAll ⟨A, []⟩ f.calls = some ⟨A ++ entries, []⟩ ∧
      liveSegments entries = NestedRanges.flatten f ∧
      ∀ d, (lastFinish (A ++ entries)).getD d = f.lastEnd ((lastFinish A).getD d) := by
  induction f generalizing A lo with
  | nil => exact ⟨[], by rw [List.append_nil]; rfl, rfl, fun d => by rw [List.append_nil]; rfl⟩
  | cons start position finish children rest ihc ihr =>
      obtain ⟨-, hchildren, hrest⟩ := hordered
      obtain ⟨hscope, hsplitsRest⟩ := hsplits
      obtain ⟨X, B, hrun, hlive, hempty, hlast⟩ := runAll_children (A := A) (B := [])
        (e := { start, finish := u32Max, position }) (K := []) hchildren hscope rfl
        (by simp)
      have hpop := popSourcePosition_outermost finish (A := A ++ X) (B := B)
        (e := { start := children.current start, finish := u32Max, position })
      obtain ⟨entries, hrun', hlive', hlast'⟩ := ihr
        (A := A ++ X ++ { start := children.current start, finish, position } :: B) hrest
        hsplitsRest
      refine ⟨X ++ { start := children.current start, finish, position } :: B ++ entries, ?_, ?_,
        ?_⟩
      · rw [List.length_append] at hpop
        rw [SourceScopes.calls, runAll_cons, SourceCall.run, Option.bind_some,
          SourceMapBuilder.pushSourcePosition, runAll_append, hrun, Option.bind_some, runAll_cons,
          SourceCall.run, hpop, Option.bind_some, hrun']
        simp
      · simp [liveSegments_cons, liveSegments_eq_nil.mpr hempty, hlive, hlive',
          NestedRanges.flatten, NestedRanges.close]
      · intro d
        have hrest' := hlast' d
        rw [lastFinish_append_cons, Option.getD_some, hlast] at hrest'
        rw [SourceScopes.lastEnd, ← List.append_assoc, ← List.append_assoc, hrest']
        rfl

variable (finalPc) in
/-- What `build` makes of the entries, before it leaves out repeated positions. -/
theorem build_eq {entries : List EntryRange} {finish : ℕ}
    (hfinish : lastFinish entries = some finish) :
    ∃ result, SourceMapBuilder.build ⟨entries, []⟩ finalPc = some result ∧
      result.map Entry.segment =
        (liveSegments entries ++ if finish < finalPc then [(finish, none)] else []).destutter
          fun x y => x.2 ≠ y.2 := by
  obtain ⟨entry, hentry, rfl⟩ := Option.map_eq_some_iff.mp hfinish
  simp only [SourceMapBuilder.build, ne_eq, not_true_eq_false, if_false, hentry]
  refine ⟨_, rfl, ?_⟩
  have hlive : liveSegments (entries ++
      [{ start := entry.finish, finish := finalPc, position := none }]) =
      liveSegments entries ++ if entry.finish < finalPc then [(entry.finish, none)] else [] := by
    simp [liveSegments_cons]
  rw [← hlive, liveSegments, List.map_map]
  exact List.map_destutter fun x _ y _ => Iff.rfl

/-- The segments of scopes, and the one behind them. -/
def SourceScopes.segmentsTo (f : SourceScopes) (finalPc : ℕ) : List (ℕ × Option Position) :=
  NestedRanges.flatten f ++ if NestedRanges.last f 0 < finalPc then
    [(NestedRanges.last f 0, none)] else []

variable (finalPc) in
/-- They begin one behind the other. -/
theorem segmentsTo_sorted (hordered : NestedRanges.Ordered f 0 hi) :
    (f.segmentsTo finalPc).Pairwise fun x y => x.1 < y.1 := by
  refine NestedRanges.pairwise_append_of_bound hordered.flatten_sorted ?_
    (fun x hx => (hordered.flatten_mem x hx).2) fun x hx => ?_
  · split
    · exact List.pairwise_singleton _ _
    · exact .nil
  · split at hx
    · rw [List.mem_singleton.mp hx]
    · cases hx

/-- They give the position of the innermost scope. -/
theorem lookup_segmentsTo (hordered : NestedRanges.Ordered f 0 hi)
    (hcontiguous : NestedRanges.Contiguous f) {pc : ℕ} (hpc : pc < finalPc) :
    (lookup (f.segmentsTo finalPc) pc).join = (NestedRanges.innermost f pc).join := by
  rw [SourceScopes.segmentsTo, lookup_append]
  by_cases hend : NestedRanges.last f 0 ≤ pc
  · rw [if_pos (by omega), lookup_singleton, if_pos hend,
      hordered.up_to_last.innermost_eq_none (.inr hend)]
    rfl
  · have hnone : lookup (if NestedRanges.last f 0 < finalPc then
        [(NestedRanges.last f 0, (none : Option Position))] else []) pc = none := by
      apply lookup_eq_none
      intro x hx
      split at hx
      · rw [List.mem_singleton.mp hx]
        exact Nat.not_le.mp hend
      · cases hx
    rw [hnone, Option.none_or, hordered.lookup_flatten hcontiguous (Nat.not_le.mp hend)]

/-- **The source map is right**: the builder does not panic, its entries begin one behind the
other, and the search terminates with the position of the innermost scope around an address. -/
def SourceScopes.MappedRight (f : SourceScopes) (finalPc : ℕ) : Prop :=
  ∃ entries, (SourceCall.runAll .empty f.calls).bind (·.build finalPc) = some entries ∧
    (entries.Pairwise fun x y => x.pc < y.pc) ∧
    ∀ pc < finalPc, findEntry entries pc = some (NestedRanges.innermost f pc).join

/-- **The source map** of tractable scopes is right, if the outermost of them follow each other
without a gap. -/
theorem SourceScopes.mappedRight (hpcs : (f.calls.map SourceCall.pc).Pairwise (· ≤ ·))
    (hcontiguous : NestedRanges.Contiguous f) (hfinal : ∀ call ∈ f.calls, call.pc ≤ finalPc)
    (hbound : finalPc ≤ u32Max) (htractable : f.Tractable) : f.MappedRight finalPc := by
  have hordered : NestedRanges.Ordered f 0 finalPc :=
    ordered_of_calls hpcs (fun call hcall => ⟨Nat.zero_le _, hfinal call hcall⟩) (Nat.zero_le _)
  obtain ⟨hsplits, hend⟩ := htractable
  cases f with
  | nil => exact ⟨[], rfl, .nil, fun _ _ => rfl⟩
  | cons start position finish children rest =>
      obtain ⟨ranges, hrun, hlive, hlast⟩ := runAll_calls (A := []) hordered hsplits
      rw [List.nil_append] at hrun hlast
      have hranges : lastFinish ranges =
          some (NestedRanges.last (.cons start position finish children rest) 0) := by
        rw [← hend]
        cases hr : lastFinish ranges with
        | some finish =>
            have hzero := hlast 0
            rw [hr, Option.getD_some] at hzero
            exact congrArg some hzero
        | none =>
            -- the end is not the default, whatever that is
            have h : ∀ d, d = SourceScopes.lastEnd (.cons start position finish children rest) 0 :=
              fun d => by simpa [hr, SourceScopes.lastEnd] using hlast d
            exact absurd ((h 0).trans (h 1).symm) (by decide)
      obtain ⟨entries, hbuild, hsegments⟩ := build_eq finalPc hranges
      rw [hlive] at hsegments
      have hsorted := segmentsTo_sorted finalPc hordered
      have hentries : entries.Pairwise fun x y => x.pc < y.pc := by
        have hsub := hsorted.sublist (List.destutter_sublist (fun x y => x.2 ≠ y.2) _)
        rw [SourceScopes.segmentsTo, ← hsegments] at hsub
        have hpairs := List.pairwise_map.mp hsub
        exact hpairs
      have hbuilt : (SourceCall.runAll .empty (SourceScopes.calls
          (.cons start position finish children rest))).bind (·.build finalPc) = some entries := by
        rw [SourceMapBuilder.empty, hrun]
        exact hbuild
      refine ⟨entries, hbuilt, hentries, fun pc hpc => ?_⟩
      rw [findEntry_eq_lookup hentries (Nat.lt_of_lt_of_le hpc hbound), hsegments]
      exact congrArg some ((congrArg Option.join (lookup_destutter (fun x y h => not_not.mp h)
        (hsorted.imp Nat.le_of_lt))).trans (lookup_segmentsTo hordered hcontiguous hpc))

end Outermost

/-! ### Scopes that are mapped right, and scopes that are not -/

/-- A position of its own for each scope. -/
def linePosition (line : ℕ) : Option Position := some { lineNumber := line, columnNumber := 1 }

/-- A scope with a gap between two scopes in it, one of which is nested and begins with its
parent. -/
def nestedScopes : SourceScopes :=
  .cons 0 (linePosition 1) 12
    (.cons 0 (linePosition 2) 3 .nil
      (.cons 5 (linePosition 3) 9 (.cons 5 (linePosition 4) 7 .nil .nil) .nil)) .nil

theorem nestedScopes_mappedRight : nestedScopes.MappedRight 12 :=
  SourceScopes.mappedRight (by decide) (by trivial) (by decide) (by decide) (by decide)

/-- A scope that ends with the scope in it, inside another one. -/
def endingTogether : SourceScopes :=
  .cons 0 (linePosition 1) 10
    (.cons 2 (linePosition 2) 5 (.cons 3 (linePosition 3) 5 .nil .nil) .nil) .nil

/-- A scope that is split and begins with its parent. -/
def beginningTogether : SourceScopes :=
  .cons 0 (linePosition 1) 12
    (.cons 0 (linePosition 2) 10 (.cons 0 (linePosition 3) 4 .nil .nil) .nil) .nil

/-- A scope with an empty one in it. -/
def emptyInside : SourceScopes :=
  .cons 0 (linePosition 1) 10 (.cons 3 (linePosition 2) 3 .nil .nil) .nil

/-- None of the three is mapped right: two lose positions, and one has two entries for an
address. -/
theorem not_mappedRight : ¬ endingTogether.MappedRight 10 ∧ ¬ beginningTogether.MappedRight 12 ∧
    ¬ emptyInside.MappedRight 10 := by
  refine ⟨?_, ?_, ?_⟩
  · rintro ⟨entries, hbuilt, -, hfind⟩
    have hentries : (SourceCall.runAll .empty endingTogether.calls).bind (·.build 10) =
        some [⟨0, linePosition 1⟩, ⟨2, linePosition 2⟩, ⟨3, linePosition 3⟩, ⟨5, none⟩] := by
      decide
    obtain rfl := Option.some.inj (hbuilt.symm.trans hentries)
    exact absurd (hfind 7 (by decide)) (by decide)
  · rintro ⟨entries, hbuilt, hsorted, -⟩
    have hentries : (SourceCall.runAll .empty beginningTogether.calls).bind (·.build 12) =
        some [⟨0, linePosition 1⟩, ⟨0, linePosition 3⟩, ⟨4, linePosition 2⟩,
          ⟨10, linePosition 1⟩] := by
      decide
    obtain rfl := Option.some.inj (hbuilt.symm.trans hentries)
    exact absurd hsorted (by decide)
  · rintro ⟨entries, hbuilt, -, hfind⟩
    have hentries : (SourceCall.runAll .empty emptyInside.calls).bind (·.build 10) =
        some [⟨0, linePosition 1⟩, ⟨3, none⟩] := by
      decide
    obtain rfl := Option.some.inj (hbuilt.symm.trans hentries)
    exact absurd (hfind 5 (by decide)) (by decide)

end BoaLigero
