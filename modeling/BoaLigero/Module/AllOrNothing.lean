import BoaLigero.Module.Linking

/-!
# Linking, All or Nothing

A call of `link` is to link every module that the root requests, directly or not, or, if the
environment of one cannot be initialised, to leave no trace but modules that are linked with
everything they request.

The search gives a module its environment as soon as its own requests were searched, and
links it as soon as it requests nothing that is being linked. A pre-linked module that is on
the stack when another one fails cannot be made unlinked again, and one that is off it stays
linked. Neither does harm if the modules with new environments request only one another and
modules that are linked: `Undisturbed` says so of the modules that come before the first
failing one in depth-first order.

## Main results

* `link_all_or_nothing_iff` — linking is all or nothing exactly where the modules initialised
  before the failing one are undisturbed.
* `not_all_or_nothing` — a cycle of two modules whose first one fails is a panic, one of
  three leaves two modules linked without it.
-/

namespace BoaLigero

open DepthFirst

variable {M Q S E C X : Type}

namespace ModuleGraph

variable [DecidableEq M] [Fintype M] (g : ModuleGraph M Q S E X)

/-- The modules to be linked in a search from a module, in depth-first order. -/
def order (modules : Modules M S E C X) (root : M) : List M :=
  DepthFirst.order (g.imports modules) (skips modules) root

omit [DecidableEq M] [Fintype M] in
/-- Whether the environment of a module cannot be initialised. -/
def fails (modules : Modules M S E C X) (m : M) : Bool :=
  match modules m with
  | .sourceText (.unlinked source) =>
      match g.environmentOf m source with
      | .error _ => true
      | .ok _ => false
  | _ => false

/-- The modules before the first one that fails. -/
def initialised (modules : Modules M S E C X) (root : M) : List M :=
  (g.order modules root).takeWhile fun m => !g.fails modules m

/-- If a module fails, the modules initialised before it request only one another and
modules that were linked already. -/
def Undisturbed (modules : Modules M S E C X) (root : M) : Prop :=
  (∃ m ∈ g.order modules root, g.fails modules m) →
    ∀ m ∈ g.initialised modules root, ∀ d ∈ g.imports modules m,
      (modules d).isLinkedOrLater ∨ d ∈ g.initialised modules root

/-- A module requests another, directly or not. -/
def Depends (modules : Modules M S E C X) : M → M → Prop :=
  Relation.ReflTransGen fun m d => d ∈ g.imports modules m

/-- What a successful call leaves: everything the root requests is linked, and nothing is
being linked. -/
structure AllLinked (modules : Modules M S E C X) (root : M) (st : LinkState M S E C X) : Prop where
  linked : ∀ d, g.Depends modules root d → (st.modules d).isLinkedOrLater
  notInLinking : ∀ m, (st.modules m).isInLinking = false

/-- What a failed call leaves: the modules of the stack are unlinked as before, and so is the
root; nothing is being linked; linked modules request linked ones only, directly or not; and
a later call succeeds exactly where it would have without the failed one. -/
structure RolledBack (modules : Modules M S E C X) (root : M) (st : LinkState M S E C X) : Prop where
  unlinked : ∀ m ∈ st.stack, st.modules m = modules m ∧
    ∃ source, st.modules m = .sourceText (.unlinked source)
  root : ∃ source, st.modules root = .sourceText (.unlinked source)
  notInLinking : ∀ m, (st.modules m).isInLinking = false
  closed : ∀ m, (st.modules m).isLinkedOrLater → ∀ d, g.Depends modules m d →
    (st.modules d).isLinkedOrLater
  later : ∀ m, (g.link st.modules m).isOk = (g.link modules m).isOk

/-- **Linking is all or nothing.** -/
def AllOrNothing (modules : Modules M S E C X) (root : M) :
    Completion (LinkState M S E C X) X Unit → Prop
  | .normal _ st => g.AllLinked modules root st
  | .throw _ st => g.RolledBack modules root st
  | .panic => False

variable {g} {s : Modules M S E C X} {root : M} {st : LinkState M S E C X}

omit [DecidableEq M] [Fintype M] in
theorem fails_iff {m : M} : g.fails s m = true ↔ g.Fails s m := by
  rw [fails, Fails]
  cases s m with
  | synthetic status => simp
  | sourceText status =>
      cases status with
      | unlinked source => cases h : g.environmentOf m source <;> simp [h]
      | linking | preLinked | linked | evaluating | evaluatingAsync | evaluated => simp

omit [DecidableEq M] [Fintype M] in
/-- A module that `link` may be asked of is not being linked. -/
theorem isInLinking_of_mayLink {kind : ModuleKind M S E C X} (h : mayLink kind) :
    kind.isInLinking = false := by
  cases kind with
  | synthetic status => rfl
  | sourceText status => cases status <;> first | rfl | cases h

/-! ### Modules that were linked -/

variable (g) in
/-- The modules `left` were linked, with all they request, and the others are as before. -/
structure Advanced (s : Modules M S E C X) (left : List M) (s' : Modules M S E C X) : Prop where
  imports_eq : ∀ m, g.imports s' m = g.imports s m
  linked : ∀ m ∈ left, (s' m).isLinkedOrLater ∧ mayLink (s' m)
  same : ∀ m, m ∉ left → s' m = s m
  requests : ∀ m ∈ left, ∀ d ∈ g.imports s m, (s d).isLinkedOrLater ∨ d ∈ left
  passed : ∀ m ∈ left, (s m).isLinkedOrLater = false ∧ ¬ g.Fails s m

namespace Advanced

variable {s' : Modules M S E C X} {left : List M}

omit [DecidableEq M] [Fintype M] in
theorem linked_iff (h : g.Advanced s left s') (m : M) :
    (s' m).isLinkedOrLater ↔ (s m).isLinkedOrLater ∨ m ∈ left := by
  by_cases hm : m ∈ left
  · simp [hm, (h.linked m hm).1]
  · simp [hm, h.same m hm]

omit [DecidableEq M] [Fintype M] in
theorem settled (h : g.Advanced s left s') (hs : g.Settled s) : g.Settled s' where
  stable m := by
    by_cases hm : m ∈ left
    · exact (h.linked m hm).2
    · exact h.same m hm ▸ hs.stable m
  closed m hm d hd := by
    rw [h.imports_eq] at hd
    rw [h.linked_iff]
    rcases (h.linked_iff m).mp hm with hold | hleft
    · exact .inl (hs.closed m hold d hd)
    · exact h.requests m hleft d hd

omit [DecidableEq M] [Fintype M] in
/-- Linked modules request linked ones only, directly or not. -/
theorem closed (h : g.Advanced s left s') (hs : g.Settled s) {m d : M}
    (hm : (s' m).isLinkedOrLater) (hpath : g.Depends s m d) : (s' d).isLinkedOrLater := by
  induction hpath with
  | refl => exact hm
  | tail _ hstep ih => exact (h.settled hs).closed _ ih _ (by rwa [h.imports_eq])

/-- The modules still to be linked are those that were not linked. -/
theorem mem_order_iff (h : g.Advanced s left s') {root m : M} :
    m ∈ g.order s' root ↔ m ∈ g.order s root ∧ m ∉ left := by
  rw [order, order, DepthFirst.mem_order_iff, DepthFirst.mem_order_iff, funext h.imports_eq]
  refine reaches_iff_of_closed (fun x => ?_) fun x hx w hw => h.requests x hx w hw
  simp only [skips, ← Bool.not_eq_true, h.linked_iff, not_or]

omit [DecidableEq M] [Fintype M] in
/-- What fails is not linked, and does so before and after. -/
theorem fails_iff (h : g.Advanced s left s') {m : M} : g.Fails s' m ↔ g.Fails s m := by
  by_cases hm : m ∈ left
  · refine iff_of_false ?_ (h.passed m hm).2
    rintro ⟨source, e, hsource, -⟩
    have hlinked := (h.linked m hm).1
    rw [hsource] at hlinked
    cases hlinked
  · rw [Fails, Fails, h.same m hm]

end Advanced

/-! ### How the search of `link` ends -/

/-- **The search of `link`**: it links everything, or fails. -/
theorem searched_root (hs : g.Settled s) (hloaded : g.Loaded) (root : M) :
    g.Searched s ⟨[], []⟩ (visit (g.imports s) (skips s) (Fintype.card M + 1) ⟨[], []⟩ root)
      { modules := s, stack := [] } root
      (g.innerLink (Fintype.card M + 1) root 0 { modules := s, stack := [] }) := by
  refine innerLink_spec hs hloaded _ _ _ _ unentered_nil_lt (linking_initial s) ?_
  intro pre m post heq
  cases pre <;> cases heq

omit [DecidableEq M] [Fintype M] in
/-- If the modules left request only one another and linked ones, none is on the stack. -/
theorem not_mem_stack {t : Visit M} (h : g.Linking s t st) (ha : g.Anchored s t.left st.stack)
    (hrequests : ∀ m ∈ t.left, ∀ d ∈ g.imports s m, (s d).isLinkedOrLater ∨ d ∈ t.left) :
    ∀ m ∈ st.stack, m ∉ t.left := by
  -- From the bottom of the stack up.
  have hbelow : ∀ post pre, st.stack = pre ++ post → ∀ m ∈ post, m ∉ t.left := by
    intro post
    induction post with
    | nil => exact fun _ _ m hm => nomatch hm
    | cons x post ih =>
        intro pre heq m hm hleft
        have hrest := ih (pre ++ [x]) (by simp [heq])
        rcases List.mem_cons.mp hm with rfl | hm
        · obtain ⟨d, hd, hpost⟩ := ha pre m post heq hleft
          have hentered : d ∈ t.entered := h.stack_sub (heq ▸ by simp [hpost])
          rcases hrequests m hleft d hd with hlinked | hdleft
          · simp [h.entered d hentered] at hlinked
          · exact hrest d hpost hdleft
        · exact hrest m hm hleft
  exact hbelow st.stack [] rfl

omit [DecidableEq M] [Fintype M] in
/-- A search that left everything it entered has linked it, and the stack is empty. -/
theorem Linking.advanced {t : Visit M} (h : g.Linking s t st)
    (ha : g.Anchored s t.left st.stack) (hleft : t.entered ⊆ t.left) :
    st.stack = [] ∧ g.Advanced s t.left st.modules := by
  have hrequests : ∀ m ∈ t.left, ∀ d ∈ g.imports s m, (s d).isLinkedOrLater ∨ d ∈ t.left :=
    fun m hm d hd => (h.requests m hm d hd).imp_right fun hin => hleft hin
  have hstack : st.stack = [] := List.eq_nil_iff_forall_not_mem.mpr fun m hm =>
    not_mem_stack h ha hrequests m hm (hleft (h.stack_sub hm))
  refine ⟨hstack, h.imports_eq, fun m hm => ?_, fun m hm => h.fresh m fun hin => hm (hleft hin),
    hrequests, fun m hm => ⟨h.entered m (h.left_sub hm), h.passed m hm⟩⟩
  rcases h.left m hm with ⟨environment, index, -, hon⟩ | ⟨hlinked, hmay, -⟩
  · simp [hstack] at hon
  · exact ⟨hlinked, hmay⟩

variable (g) in
/-- How the search of `link` ends: everything in the order was linked, or a module of it
failed after those before it were left. -/
inductive Ended (s : Modules M S E C X) (root : M) : Completion (LinkState M S E C X) X ℕ → Prop
  | normal {index : ℕ} {st : LinkState M S E C X} (hstack : st.stack = [])
      (hadvanced : g.Advanced s (g.order s root) st.modules) : Ended s root (.normal index st)
  | throw {e : X} {st : LinkState M S E C X} {u : Visit M} {f : M} {rest : List M}
      (hlinking : g.Linking s u st) (hanchored : g.Anchored s u.left st.stack) (horder : g.order s root = u.left ++ f :: rest)
      (hfails : g.Fails s f) (hroot : root ∈ u.entered ∧ root ∉ u.left) :
      Ended s root (.throw e st)

theorem ended_root (hs : g.Settled s) (hloaded : g.Loaded) (root : M) :
    g.Ended s root (g.innerLink (Fintype.card M + 1) root 0 { modules := s, stack := [] }) := by
  have hvisits : Visits (g.imports s) (skips s) [root] ⟨[], []⟩
      (visit (g.imports s) (skips s) (Fintype.card M + 1) ⟨[], []⟩ root) :=
    visits_visit unentered_nil_lt root fun _ hx => hx
  have hsearched := searched_root hs hloaded root
  generalize g.innerLink (Fintype.card M + 1) root 0 { modules := s, stack := [] } = r at hsearched
  cases hsearched with
  | normal hlinking hanchored _ _ _ =>
      obtain ⟨hstack, hadvanced⟩ :=
        hlinking.advanced hanchored fun m hm => (hvisits.new m hm List.not_mem_nil).1
      exact .normal hstack hadvanced
  | throw hfailed =>
      obtain ⟨u, f, rest, hlinking, hanchored, hleft, hfails, hactive⟩ := hfailed
      exact .throw hlinking hanchored hleft hfails (hactive root (.inl rfl))

/-- A call of `link` whose search links everything succeeds. -/
theorem link_of_advanced (hs : g.Settled s) {index : ℕ}
    (heq : g.innerLink (Fintype.card M + 1) root 0 { modules := s, stack := [] } =
      .normal index st)
    (hstack : st.stack = []) (hadvanced : g.Advanced s (g.order s root) st.modules) :
    g.link s root = .normal () st := by
  have hroot : (st.modules root).isLinkedOrLater := by
    rw [hadvanced.linked_iff]
    by_cases hlinked : (s root).isLinkedOrLater
    · exact .inl hlinked
    · exact .inr (DepthFirst.mem_order_iff.mpr ⟨by simpa [skips] using hlinked, .refl⟩)
  have hmay := (hadvanced.settled hs).stable root
  simp only [link, hs.stable root, heq, hroot, hmay, hstack]
  rfl

/-- A call of `link` whose search fails is a panic, or goes through the error path. -/
theorem link_throw_cases (hs : g.Settled s) {e : X}
    (heq : g.innerLink (Fintype.card M + 1) root 0 { modules := s, stack := [] } = .throw e st) :
    g.link s root = .panic ∨ ∃ modules', unlinkAll st.stack st.modules = some modules' ∧
      g.link s root = .throw e { st with modules := modules' } := by
  simp only [link, hs.stable root, heq, if_true]
  cases unlinkAll st.stack st.modules with
  | none => exact .inl rfl
  | some modules' =>
      dsimp only
      split
      · exact .inr ⟨modules', rfl, rfl⟩
      · exact .inl rfl

/-- A call of `link` succeeds unless a module to be linked fails. -/
theorem isOk_link_iff (hs : g.Settled s) (hloaded : g.Loaded) (root : M) :
    (g.link s root).isOk ↔ ∀ m ∈ g.order s root, ¬ g.Fails s m := by
  have hended := ended_root hs hloaded root
  generalize heq : g.innerLink (Fintype.card M + 1) root 0 { modules := s, stack := [] } = r
    at hended
  cases hended with
  | normal hstack hadvanced =>
      rw [link_of_advanced hs heq hstack hadvanced]
      exact iff_of_true rfl fun m hm => (hadvanced.passed m hm).2
  | @throw e st u f rest _ _ horder hfails _ =>
      refine iff_of_false ?_ fun hall => hall f (by simp [horder]) hfails
      rcases link_throw_cases hs heq with hlink | ⟨modules', -, hlink⟩
      · rw [hlink]
        exact Bool.noConfusion
      · rw [hlink]
        exact Bool.noConfusion

/-! ### The error path -/

omit [Fintype M] in
/-- Modules that are being linked are made unlinked again. -/
theorem unlinkAll_of_linking {stack : List M} {modules : Modules M S E C X}
    (hstack : ∀ m ∈ stack, ∃ source index, s m = .sourceText (.unlinked source) ∧
      modules m = .sourceText (.linking source index)) (hnd : stack.Nodup) :
    ∃ modules', unlinkAll stack modules = some modules' ∧ (∀ m ∈ stack, modules' m = s m) ∧
      ∀ m, m ∉ stack → modules' m = modules m := by
  induction stack generalizing modules with
  | nil => exact ⟨modules, rfl, fun _ hm => (nomatch hm), fun _ _ => rfl⟩
  | cons x stack ih =>
      obtain ⟨hfresh, hnd⟩ := List.nodup_cons.mp hnd
      obtain ⟨source, index, hold, hx⟩ := hstack x List.mem_cons_self
      have hrest : ∀ m ∈ stack, ∃ source' index, s m = .sourceText (.unlinked source') ∧
          Function.update modules x (.sourceText (.unlinked source)) m =
            .sourceText (.linking source' index) := by
        intro m hm
        have hne : m ≠ x := fun heq => hfresh (heq ▸ hm)
        rw [Function.update_of_ne hne]
        exact hstack m (List.mem_cons_of_mem _ hm)
      obtain ⟨modules', heq, hsame, hother⟩ := ih hrest hnd
      refine ⟨modules', by rw [unlinkAll, hx]; exact heq, fun m hm => ?_, fun m hm => ?_⟩
      · rcases List.mem_cons.mp hm with rfl | hm
        · rw [hother m hfresh, Function.update_self, hold]
        · exact hsame m hm
      · obtain ⟨hne, hm⟩ := not_or.mp (mt List.mem_cons.mpr hm)
        rw [hother m hm, Function.update_of_ne hne]

omit [Fintype M] in
/-- The error path goes through only if no module of the stack is pre-linked, and leaves
those off the stack alone. -/
theorem unlinkAll_eq_some {stack : List M} {modules modules' : Modules M S E C X}
    (h : unlinkAll stack modules = some modules') (hnd : stack.Nodup) :
    (∀ m ∈ stack, ∀ environment index,
      modules m ≠ .sourceText (.preLinked environment index)) ∧
    ∀ m, m ∉ stack → modules' m = modules m := by
  induction stack generalizing modules with
  | nil =>
      cases h
      exact ⟨fun _ hm => (nomatch hm), fun _ _ => rfl⟩
  | cons x stack ih =>
      obtain ⟨hfresh, hnd⟩ := List.nodup_cons.mp hnd
      have hne : ∀ m ∈ stack, m ≠ x := fun m hm heq => hfresh (heq ▸ hm)
      rw [unlinkAll] at h
      split at h
      · next status hx =>
          obtain ⟨hpre, hother⟩ := ih h hnd
          refine ⟨fun m hm => ?_, fun m hm => hother m fun hin => hm (List.mem_cons_of_mem _ hin)⟩
          rcases List.mem_cons.mp hm with rfl | hm
          · simp [hx]
          · exact hpre m hm
      · next source index hx =>
          obtain ⟨hpre, hother⟩ := ih h hnd
          refine ⟨fun m hm => ?_, fun m hm => ?_⟩
          · rcases List.mem_cons.mp hm with rfl | hm
            · simp [hx]
            · have hm' := hpre m hm
              rwa [Function.update_of_ne (hne m hm)] at hm'
          · obtain ⟨hnot, hm⟩ := not_or.mp (mt List.mem_cons.mpr hm)
            rw [hother m hm, Function.update_of_ne hnot]
      · cases h

/-! ### All or nothing -/

/-- What was initialised before a module that fails. -/
theorem initialised_eq {left rest : List M} {f : M} (horder : g.order s root = left ++ f :: rest)
    (hleft : ∀ m ∈ left, ¬ g.Fails s m) (hf : g.Fails s f) : g.initialised s root = left := by
  rw [initialised, horder, List.takeWhile_append_of_pos, List.takeWhile_cons_of_neg,
    List.append_nil]
  · simp [fails_iff.mpr hf]
  · exact fun m hm => by simpa using mt fails_iff.mp (hleft m hm)

omit [Fintype M] in
/-- After a failure the modules left are linked, with what they request, if they were not
disturbed; the others are as before. -/
theorem Linking.unlinkAll {u : Visit M} (h : g.Linking s u st)
    (ha : g.Anchored s u.left st.stack)
    (hrequests : ∀ m ∈ u.left, ∀ d ∈ g.imports s m, (s d).isLinkedOrLater ∨ d ∈ u.left) :
    ∃ modules', ModuleGraph.unlinkAll st.stack st.modules = some modules' ∧
      (∀ m ∈ st.stack, modules' m = s m) ∧ g.Advanced s u.left modules' := by
  have hnot := not_mem_stack h ha hrequests
  obtain ⟨modules', heq, hsame, hother⟩ := unlinkAll_of_linking (s := s) (fun m hm => by
    obtain ⟨source, index, hold, hst, -⟩ := h.active m (h.stack_sub hm) (hnot m hm)
    exact ⟨source, index, hold, hst⟩) h.nodup
  have hrest : ∀ m, m ∉ u.left → modules' m = s m := by
    intro m hm
    by_cases hon : m ∈ st.stack
    · exact hsame m hon
    · rw [hother m hon]
      refine h.fresh m fun hin => ?_
      obtain ⟨-, -, -, -, hstack⟩ := h.active m hin hm
      exact hon hstack
  have hlinked : ∀ m ∈ u.left, (st.modules m).isLinkedOrLater ∧ mayLink (st.modules m) ∧
      modules' m = st.modules m := by
    intro m hm
    rcases h.left m hm with ⟨environment, index, -, hon⟩ | ⟨hl, hmay, hoff⟩
    · exact absurd hm (hnot m hon)
    · exact ⟨hl, hmay, hother m hoff⟩
  refine ⟨modules', heq, hsame, fun m => ?_, fun m hm => ?_, hrest, hrequests,
    fun m hm => ⟨h.entered m (h.left_sub hm), h.passed m hm⟩⟩
  · by_cases hm : m ∈ u.left
    · rw [← h.imports_eq m, imports, imports, (hlinked m hm).2.2]
    · rw [imports, imports, hrest m hm]
  · obtain ⟨hl, hmay, hm'⟩ := hlinked m hm
    exact hm' ▸ ⟨hl, hmay⟩

/-- A call of `link` whose search fails, and whose error path goes through. -/
theorem link_eq_throw (hs : g.Settled s) {e : X} {modules' : Modules M S E C X} {source : S}
    (heq : g.innerLink (Fintype.card M + 1) root 0 { modules := s, stack := [] } = .throw e st)
    (hunlink : unlinkAll st.stack st.modules = some modules')
    (hroot : modules' root = .sourceText (.unlinked source)) :
    g.link s root = .throw e { st with modules := modules' } := by
  simp only [link, hs.stable root, heq, hunlink, hroot, if_true]

/-- Where the modules left were not disturbed, a failed call is rolled back. -/
theorem Advanced.rolledBack {s' : Modules M S E C X} {left stack : List M}
    (h : g.Advanced s left s') (hs : g.Settled s) (hloaded : g.Loaded)
    (hstack : ∀ m ∈ stack, s' m = s m ∧ ∃ source, s' m = .sourceText (.unlinked source))
    (hroot : ∃ source, s' root = .sourceText (.unlinked source)) :
    g.RolledBack s root { modules := s', stack } := by
  refine ⟨hstack, hroot, fun m => isInLinking_of_mayLink ((h.settled hs).stable m),
    fun m hm d hd => h.closed hs hm hd, fun m => ?_⟩
  rw [Bool.eq_iff_iff, isOk_link_iff (h.settled hs) hloaded, isOk_link_iff hs hloaded]
  constructor
  · intro hall x hx hfails
    refine hall x (h.mem_order_iff.mpr ⟨hx, fun hin => ?_⟩) (h.fails_iff.mpr hfails)
    exact (h.passed x hin).2 hfails
  · exact fun hall x hx hfails => hall x (h.mem_order_iff.mp hx).1 (h.fails_iff.mp hfails)

/-- **Linking is all or nothing** exactly where no module that was initialised before the
failing one requests a module that was not. -/
theorem link_all_or_nothing_iff (hs : g.Settled s) (hloaded : g.Loaded) (root : M) :
    g.AllOrNothing s root (g.link s root) ↔ g.Undisturbed s root := by
  have hended := ended_root hs hloaded root
  generalize heq : g.innerLink (Fintype.card M + 1) root 0 { modules := s, stack := [] } = r
    at hended
  cases hended with
  | @normal index st hstack hadvanced =>
      rw [link_of_advanced hs heq hstack hadvanced]
      refine iff_of_true ⟨fun d hd => ?_, fun m => ?_⟩ ?_
      · refine hadvanced.closed hs ?_ hd
        rw [hadvanced.linked_iff]
        by_cases hlinked : (s root).isLinkedOrLater
        · exact .inl hlinked
        · exact .inr (DepthFirst.mem_order_iff.mpr ⟨by simpa [skips] using hlinked, .refl⟩)
      · exact isInLinking_of_mayLink ((hadvanced.settled hs).stable m)
      · rintro ⟨m, hm, hfails⟩
        exact absurd (fails_iff.mp hfails) (hadvanced.passed m hm).2
  | @throw e st u f rest hlinking hanchored horder hfails hroot =>
      have hinitialised := initialised_eq horder hlinking.passed hfails
      have hexists : ∃ m ∈ g.order s root, g.fails s m :=
        ⟨f, by simp [horder], fails_iff.mpr hfails⟩
      rw [Undisturbed, hinitialised]
      obtain ⟨source, index, hroot₀, -, honStack⟩ := hlinking.active root hroot.1 hroot.2
      constructor
      · intro hall _ m hm d hd
        by_contra hdisturbed
        obtain ⟨hnotLinked, hnotLeft⟩ := not_or.mp hdisturbed
        -- The requested module is on the path to the failing one.
        have hentered := (hlinking.requests m hm d hd).resolve_left hnotLinked
        obtain ⟨source', index', hd₀, -, hdstack⟩ := hlinking.active d hentered hnotLeft
        rcases link_throw_cases hs heq with hlink | ⟨modules', hunlink, hlink⟩
        · rw [hlink] at hall
          exact hall
        · rw [hlink] at hall
          obtain ⟨hpre, hother⟩ := unlinkAll_eq_some hunlink hlinking.nodup
          rcases hlinking.left m hm with ⟨environment, i, hm', hon⟩ | ⟨hl, -, hoff⟩
          · exact hpre m hon environment i hm'
          · -- A module that was linked requests one that is unlinked again.
            have hdlinked := hall.closed m (by simpa [hother m hoff] using hl) d (.single hd)
            rw [(hall.unlinked d hdstack).1, hd₀] at hdlinked
            cases hdlinked
      · intro hundisturbed
        obtain ⟨modules', hunlink, hsame, hadvanced⟩ :=
          hlinking.unlinkAll hanchored (hundisturbed hexists)
        have hroot' : modules' root = .sourceText (.unlinked source) := by
          rw [hsame root honStack, hroot₀]
        rw [link_eq_throw hs heq hunlink hroot']
        refine hadvanced.rolledBack hs hloaded (fun m hm => ⟨hsame m hm, ?_⟩) ⟨source, hroot'⟩
        have hnot := not_mem_stack hlinking hanchored (hundisturbed hexists) m hm
        obtain ⟨source', index', hold, -, -⟩ := hlinking.active m (hlinking.stack_sub hm) hnot
        exact ⟨source', (hsame m hm).trans hold⟩

/-! ### A cycle whose first module fails -/

/-- Modules in a cycle, each requesting the next, where the first one fails. -/
def cycle (n : ℕ) [NeZero n] : ModuleGraph (Fin n) Unit Unit Unit Unit where
  requestedModules _ := [()]
  loadedModules m _ := some (m + 1)
  environmentOf m _ := if m = 0 then .error () else .ok ()

/-- Modules of which none has been linked. -/
def unlinked (M : Type) : Modules M Unit Unit Unit Unit := fun _ => .sourceText (.unlinked ())

theorem cycle_loaded (n : ℕ) [NeZero n] : (cycle n).Loaded := fun _ _ _ => rfl

theorem cycle_settled (n : ℕ) [NeZero n] : (cycle n).Settled (unlinked (Fin n)) :=
  ⟨fun _ => rfl, fun _ h => Bool.noConfusion h⟩

/-- **Linking is not all or nothing.** In a cycle of two modules whose first one fails, the
call is a panic; in one of three, the second and third module stay linked while the first is
unlinked, and linking the second one succeeds from then on. -/
theorem not_all_or_nothing :
    (cycle 2).link (unlinked (Fin 2)) 0 = .panic ∧
    ¬ (cycle 2).AllOrNothing (unlinked (Fin 2)) 0 ((cycle 2).link (unlinked (Fin 2)) 0) ∧
    ¬ (cycle 3).AllOrNothing (unlinked (Fin 3)) 0 ((cycle 3).link (unlinked (Fin 3)) 0) ∧
    ∃ st, (cycle 3).link (unlinked (Fin 3)) 0 = .throw () st ∧
      (st.modules 1).isLinkedOrLater ∧ (st.modules 2).isLinkedOrLater ∧
      st.modules 0 = .sourceText (.unlinked ()) ∧
      ((cycle 3).link (unlinked (Fin 3)) 1).isOk = false ∧
      ((cycle 3).link st.modules 1).isOk = true := by
  have hthree : ∃ st, (cycle 3).link (unlinked (Fin 3)) 0 = .throw () st ∧
      (st.modules 1).isLinkedOrLater ∧ (st.modules 2).isLinkedOrLater ∧
      st.modules 0 = .sourceText (.unlinked ()) ∧
      ((cycle 3).link (unlinked (Fin 3)) 1).isOk = false ∧
      ((cycle 3).link st.modules 1).isOk = true :=
    ⟨_, rfl, by decide, by decide, by decide, by decide, by decide⟩
  refine ⟨rfl, fun h => h, fun h => ?_, hthree⟩
  obtain ⟨st, heq, -, -, -, hbefore, hafter⟩ := hthree
  rw [heq] at h
  have hlater := h.later 1
  rw [hbefore, hafter] at hlater
  cases hlater

/-- A root that requests two modules without requests, and fails. -/
def fork : ModuleGraph (Fin 3) (Fin 3) Unit Unit Unit where
  requestedModules m := if m = 0 then [1, 2] else []
  loadedModules _ required := some required
  environmentOf m _ := if m = 0 then .error () else .ok ()

/-- Its call fails and is rolled back: the two modules stay linked. -/
theorem link_fork : ((fork.link (unlinked (Fin 3)) 0).isOk = false ∧
    fork.Undisturbed (unlinked (Fin 3)) 0) ∧
    fork.AllOrNothing (unlinked (Fin 3)) 0 (fork.link (unlinked (Fin 3)) 0) := by
  have hundisturbed : fork.Undisturbed (unlinked (Fin 3)) 0 := by
    intro _
    decide
  have hsettled : fork.Settled (unlinked (Fin 3)) :=
    ⟨fun _ => rfl, fun _ h => Bool.noConfusion h⟩
  exact ⟨⟨by decide, hundisturbed⟩,
    (link_all_or_nothing_iff hsettled (fun _ _ _ => rfl) 0).mpr hundisturbed⟩

end ModuleGraph

end BoaLigero
