import BoaLigero.Module.Source

/-!
# What Linking Does

The search of `inner_link` goes through the modules in depth-first order. `Linking` relates
its state to such a search: a module that was entered and not left is being linked and on
the stack; one that was left is either linked, and off the stack, or pre-linked and still on
it. A module stays on the stack because it requests one that is further down.

A module that fails stops the search. Then the modules left so far have their environments,
and those on the path to the failing one do not.

## Main results

* `innerLink_spec` — the search, as a depth-first one, up to the first failing module.
-/

namespace BoaLigero

open DepthFirst

variable {M Q S E C X : Type}

namespace ModuleGraph

variable [DecidableEq M] (g : ModuleGraph M Q S E X)

/-- A module whose environment cannot be initialised. -/
def Fails (modules : Modules M S E C X) (m : M) : Prop :=
  ∃ source e, modules m = .sourceText (.unlinked source) ∧ g.environmentOf m source = .error e

/-- Linked, or in a later state. -/
def skips (modules : Modules M S E C X) (m : M) : Bool := (modules m).isLinkedOrLater

/-- The requested modules are loaded. -/
def Loaded : Prop := ∀ m, ∀ required ∈ g.requestedModules m, (g.loadedModules m required).isSome

/-- No module is being linked or evaluated, and linked modules request linked ones. -/
structure Settled (modules : Modules M S E C X) : Prop where
  stable : ∀ m, mayLink (modules m)
  closed : ∀ m, (modules m).isLinkedOrLater → ∀ d ∈ g.imports modules m,
    (modules d).isLinkedOrLater

/-- **The state of the search**: modules `t.entered` were entered, modules `t.left` left, and
`s` are the modules from before. -/
structure Linking (s : Modules M S E C X) (t : Visit M) (st : LinkState M S E C X) : Prop where
  imports_eq : ∀ m, g.imports st.modules m = g.imports s m
  fresh : ∀ m, m ∉ t.entered → st.modules m = s m
  entered : ∀ m ∈ t.entered, (s m).isLinkedOrLater = false
  left_sub : t.left ⊆ t.entered
  active : ∀ m ∈ t.entered, m ∉ t.left → ∃ source index, s m = .sourceText (.unlinked source) ∧
    st.modules m = .sourceText (.linking source index) ∧ m ∈ st.stack
  left : ∀ m ∈ t.left,
    (∃ environment index, st.modules m = .sourceText (.preLinked environment index) ∧
      m ∈ st.stack) ∨ (st.modules m).isLinkedOrLater ∧ mayLink (st.modules m) ∧ m ∉ st.stack
  stack_sub : st.stack ⊆ t.entered
  nodup : st.stack.Nodup
  requests : ∀ m ∈ t.left, ∀ d ∈ g.imports s m, (s d).isLinkedOrLater ∨ d ∈ t.entered
  passed : ∀ m ∈ t.left, ¬ g.Fails s m

/-- A module that was left and is still on the stack requests one further down. -/
def Anchored (s : Modules M S E C X) (left stack : List M) : Prop :=
  ∀ pre m post, stack = pre ++ m :: post → m ∈ left → ∃ d ∈ g.imports s m, d ∈ post

variable {g} {s : Modules M S E C X} {t : Visit M} {st st' : LinkState M S E C X} {m : M}

/-- The requests of a module depend on its kind only. -/
theorem imports_transition {status status' : ModuleStatus M S E C X}
    (hm : st.modules m = .sourceText status) (x : M) :
    g.imports (st.transition m status').modules x = g.imports st.modules x := by
  by_cases hx : x = m
  · subst hx
    simp [imports, LinkState.transition, hm]
  · simp [imports, LinkState.transition, Function.update_of_ne hx]

omit [DecidableEq M] in
/-- A module that is not linked yet is unlinked. -/
theorem Settled.unlinked (hs : g.Settled s) (hm : (s m).isLinkedOrLater = false) :
    (∃ source, s m = .sourceText (.unlinked source)) ∨ s m = .synthetic .unlinked := by
  have hmay := hs.stable m
  cases hk : s m with
  | synthetic status =>
      rw [hk] at hm
      cases status with
      | unlinked => exact .inr rfl
      | linked | evaluated => cases hm
  | sourceText status =>
      rw [hk] at hm hmay
      cases status with
      | unlinked source => exact .inl ⟨source, rfl⟩
      | linking | preLinked => cases hmay
      | linked | evaluating | evaluatingAsync | evaluated => cases hm

omit [DecidableEq M] in
/-- The search begins with nothing entered. -/
theorem linking_initial (s : Modules M S E C X) :
    g.Linking s ⟨[], []⟩ { modules := s, stack := [] } where
  imports_eq _ := rfl
  fresh _ _ := rfl
  entered _ hm := nomatch hm
  left_sub _ hm := nomatch hm
  active _ hm := nomatch hm
  left _ hm := nomatch hm
  stack_sub _ hm := nomatch hm
  nodup := .nil
  requests _ hm := nomatch hm
  passed _ hm := nomatch hm

/-- Entering a source text module. -/
theorem Linking.enter (h : g.Linking s t st) (hm : m ∉ t.entered) {source : S}
    (hsource : s m = .sourceText (.unlinked source)) (index : ℕ) :
    g.Linking s { t with entered := m :: t.entered }
      { modules := Function.update st.modules m (.sourceText (.linking source index))
        stack := m :: st.stack } := by
  have hstack : m ∉ st.stack := fun hin => hm (h.stack_sub hin)
  have hother : ∀ x ∈ t.entered, x ≠ m := fun x hx heq => hm (heq ▸ hx)
  refine ⟨fun x => ?_, fun x hx => ?_, fun x hx => ?_, fun x hx => ?_, fun x hx hnot => ?_,
    fun x hx => ?_, ?_, List.nodup_cons.mpr ⟨hstack, h.nodup⟩, fun x hx d hd => ?_, h.passed⟩
  · rw [← h.imports_eq x]
    exact @imports_transition _ _ _ _ _ _ _ _ st _ _ _ ((h.fresh m hm).trans hsource) x
  · obtain ⟨hne, hx⟩ := not_or.mp (mt List.mem_cons.mpr hx)
    dsimp only
    rw [Function.update_of_ne hne, h.fresh x hx]
  · rcases List.mem_cons.mp hx with rfl | hx
    · rw [hsource]
      rfl
    · exact h.entered x hx
  · exact List.mem_cons_of_mem _ (h.left_sub hx)
  · rcases List.mem_cons.mp hx with rfl | hx
    · exact ⟨source, index, hsource, by simp, by simp⟩
    · obtain ⟨source', index', hs', hst, hin⟩ := h.active x hx hnot
      refine ⟨source', index', hs', ?_, List.mem_cons_of_mem _ hin⟩
      dsimp only
      rw [Function.update_of_ne (hother x hx), hst]
  · have hne := hother x (h.left_sub hx)
    dsimp only
    rw [Function.update_of_ne hne]
    simpa [hne] using h.left x hx
  · exact List.cons_subset_cons _ h.stack_sub
  · exact (h.requests x hx d hd).imp_right (List.mem_cons_of_mem _)

/-- A module that is being linked gets another ancestor index. -/
theorem Linking.setIndex (h : g.Linking s t st) {source : S} {index : ℕ}
    (hm : st.modules m = .sourceText (.linking source index)) (hin : m ∈ t.entered)
    (hnot : m ∉ t.left) (index' : ℕ) :
    g.Linking s t (st.transition m (.linking source index')) := by
  refine ⟨fun x => ?_, fun x hx => ?_, h.entered, h.left_sub, fun x hx hx' => ?_, fun x hx => ?_,
    h.stack_sub, h.nodup, h.requests, h.passed⟩
  · rw [imports_transition hm, h.imports_eq]
  · have hne : x ≠ m := fun heq => hx (heq ▸ hin)
    simp only [LinkState.transition, Function.update_of_ne hne]
    exact h.fresh x hx
  · obtain ⟨source₁, index₁, hs₁, hst, hstack⟩ := h.active x hx hx'
    by_cases hxm : x = m
    · subst hxm
      obtain ⟨rfl, -⟩ : source = source₁ ∧ index = index₁ := by simpa [hm] using hst
      exact ⟨source, index', hs₁, by simp [LinkState.transition], hstack⟩
    · refine ⟨source₁, index₁, hs₁, ?_, hstack⟩
      simp only [LinkState.transition, Function.update_of_ne hxm]
      exact hst
  · have hne : x ≠ m := fun heq => hnot (heq ▸ hx)
    simp only [LinkState.transition, Function.update_of_ne hne]
    exact h.left x hx

/-- Linking a synthetic module. -/
theorem Linking.leaf (h : g.Linking s t st) (hm : m ∉ t.entered)
    (hsynthetic : s m = .synthetic .unlinked) :
    g.Linking s ⟨m :: t.entered, t.left ++ [m]⟩
      { st with modules := Function.update st.modules m (.synthetic .linked) } := by
  have hold := h.fresh m hm
  rw [hsynthetic] at hold
  have hother : ∀ x ∈ t.entered, x ≠ m := fun x hx heq => hm (heq ▸ hx)
  refine ⟨fun x => ?_, fun x hx => ?_, fun x hx => ?_, fun x hx => ?_, fun x hx hnot => ?_,
    fun x hx => ?_, fun x hx => ?_, h.nodup, fun x hx d hd => ?_, fun x hx => ?_⟩
  · rw [← h.imports_eq x]
    by_cases hx : x = m
    · subst hx
      simp [imports, hold]
    · simp [imports, Function.update_of_ne hx]
  · obtain ⟨hne, hx⟩ := not_or.mp (mt List.mem_cons.mpr hx)
    dsimp only
    rw [Function.update_of_ne hne, h.fresh x hx]
  · rcases List.mem_cons.mp hx with rfl | hx
    · rw [hsynthetic]
      rfl
    · exact h.entered x hx
  · rcases List.mem_append.mp hx with hx | hx
    · exact List.mem_cons_of_mem _ (h.left_sub hx)
    · obtain rfl := List.mem_singleton.mp hx
      exact List.mem_cons_self
  · obtain ⟨hnot, hne⟩ : x ∉ t.left ∧ x ≠ m := by simpa using hnot
    obtain ⟨source, index, hs', hst, hin⟩ :=
      h.active x ((List.mem_cons.mp hx).resolve_left hne) hnot
    refine ⟨source, index, hs', ?_, hin⟩
    dsimp only
    rw [Function.update_of_ne hne, hst]
  · rcases List.mem_append.mp hx with hx | hx
    · dsimp only
      rw [Function.update_of_ne (hother x (h.left_sub hx))]
      exact h.left x hx
    · obtain rfl := List.mem_singleton.mp hx
      refine .inr ⟨by simp [ModuleKind.isLinkedOrLater], by simp [mayLink], ?_⟩
      exact fun hin => hm (h.stack_sub hin)
  · exact List.mem_cons_of_mem _ (h.stack_sub hx)
  · rcases List.mem_append.mp hx with hx | hx
    · exact (h.requests x hx d hd).imp_right (List.mem_cons_of_mem _)
    · obtain rfl := List.mem_singleton.mp hx
      simp [imports, hsynthetic] at hd
  · rcases List.mem_append.mp hx with hx | hx
    · exact h.passed x hx
    · obtain rfl := List.mem_singleton.mp hx
      rintro ⟨source, e, hs', -⟩
      cases hsynthetic.symm.trans hs'

/-! ### Leaving a module -/

/-- The environment of a module whose requests were searched is initialised: it is left, and
pre-linked. -/
theorem Linking.leave (h : g.Linking s t st) {source : S} {index : ℕ}
    (hsource : s m = .sourceText (.unlinked source))
    (hm : st.modules m = .sourceText (.linking source index)) (hin : m ∈ t.entered)
    (hnot : m ∉ t.left) {environment : E} (hok : g.environmentOf m source = .ok environment)
    (hstack : m ∈ st.stack)
    (hrequests : ∀ d ∈ g.imports s m, (s d).isLinkedOrLater ∨ d ∈ t.entered) :
    g.Linking s { t with left := t.left ++ [m] }
      (st.transition m (.preLinked environment index)) := by
  refine ⟨fun x => ?_, fun x hx => ?_, h.entered, fun x hx => ?_, fun x hx hx' => ?_,
    fun x hx => ?_, h.stack_sub, h.nodup, fun x hx d hd => ?_, fun x hx => ?_⟩
  · rw [imports_transition hm, h.imports_eq]
  · have hne : x ≠ m := fun heq => hx (heq ▸ hin)
    simp only [LinkState.transition, Function.update_of_ne hne]
    exact h.fresh x hx
  · rcases List.mem_append.mp hx with hx | hx
    · exact h.left_sub hx
    · exact List.mem_singleton.mp hx ▸ hin
  · obtain ⟨hx', hne⟩ : x ∉ t.left ∧ x ≠ m := by simpa using hx'
    simp only [LinkState.transition, Function.update_of_ne hne]
    exact h.active x hx hx'
  · by_cases hxm : x = m
    · subst hxm
      exact .inl ⟨environment, index, by simp [LinkState.transition], hstack⟩
    · have hx : x ∈ t.left := by simpa [hxm] using hx
      simp only [LinkState.transition, Function.update_of_ne hxm]
      exact h.left x hx
  · by_cases hxm : x = m
    · subst hxm
      exact hrequests d hd
    · exact h.requests x (by simpa [hxm] using hx) d hd
  · by_cases hxm : x = m
    · subst hxm
      rintro ⟨source', e, hs', he⟩
      obtain rfl : source = source' := by simpa [hsource] using hs'
      cases hok.symm.trans he
    · exact h.passed x (by simpa [hxm] using hx)

/-- Popping pre-linked modules makes them linked. -/
theorem popLinked_spec {pushed : List M} (post : List M) {modules : Modules M S E C X}
    (hpre : ∀ x ∈ pushed ++ [m], ∃ environment index,
      modules x = .sourceText (.preLinked environment index))
    (hnd : (pushed ++ [m]).Nodup) :
    ∃ modules', popLinked m (pushed ++ m :: post) modules = some { modules := modules', stack := post } ∧
      (∀ x ∈ pushed ++ [m], ∃ environment index,
        modules' x = .sourceText (.linked environment index)) ∧
      ∀ x, x ∉ pushed ++ [m] → modules' x = modules x := by
  induction pushed generalizing modules with
  | nil =>
      obtain ⟨environment, index, hm⟩ := hpre m (by simp)
      refine ⟨Function.update modules m (.sourceText (.linked environment index)),
        by simp [popLinked, hm], fun x hx => ?_, fun x hx => ?_⟩
      · obtain rfl : x = m := by simpa using hx
        exact ⟨environment, index, by simp⟩
      · exact Function.update_of_ne (by simpa using hx) _ _
  | cons y pushed ih =>
      obtain ⟨environment, index, hy⟩ := hpre y (by simp)
      obtain ⟨hfresh, hnd⟩ := List.nodup_cons.mp hnd
      have hym : y ≠ m := fun heq => hfresh (by simp [heq])
      have hrest : ∀ x ∈ pushed ++ [m], ∃ environment' index',
          Function.update modules y (.sourceText (.linked environment index)) x =
            .sourceText (.preLinked environment' index') := by
        intro x hx
        have hxy : x ≠ y := fun heq => hfresh (heq ▸ hx)
        rw [Function.update_of_ne hxy]
        exact hpre x (List.mem_cons_of_mem _ hx)
      obtain ⟨modules', heq, hlinked, hsame⟩ := ih hrest hnd
      refine ⟨modules', by simp [popLinked, hy, hym, heq], fun x hx => ?_, fun x hx => ?_⟩
      · rcases List.mem_cons.mp hx with rfl | hx
        · exact ⟨environment, index, by rw [hsame x hfresh, Function.update_self]⟩
        · exact hlinked x hx
      · obtain ⟨hxy, hx⟩ := not_or.mp (mt List.mem_cons.mpr hx)
        rw [hsame x hx, Function.update_of_ne hxy]

/-- The modules popped from the stack are linked. -/
theorem Linking.pop (h : g.Linking s t st) {pushed post : List M}
    (hstack : st.stack = pushed ++ m :: post) (hleft : ∀ x ∈ pushed ++ [m], x ∈ t.left) :
    ∃ modules', popLinked m st.stack st.modules = some { modules := modules', stack := post } ∧
      g.Linking s t { modules := modules', stack := post } ∧
      ∀ x, x ∉ pushed ++ [m] → modules' x = st.modules x := by
  have hsplit : st.stack = (pushed ++ [m]) ++ post := by simp [hstack]
  have hnd := h.nodup
  rw [hsplit] at hnd
  obtain ⟨hndpop, hndpost, hdisjoint⟩ := List.nodup_append.mp hnd
  have hpre : ∀ x ∈ pushed ++ [m], ∃ environment index,
      st.modules x = .sourceText (.preLinked environment index) := by
    intro x hx
    have hin : x ∈ st.stack := hsplit ▸ List.mem_append_left _ hx
    rcases h.left x (hleft x hx) with ⟨environment, index, heq, -⟩ | ⟨-, -, hnot⟩
    · exact ⟨environment, index, heq⟩
    · exact absurd hin hnot
  obtain ⟨modules', heq, hlinked, hsame⟩ := popLinked_spec post hpre hndpop
  have hkind : ∀ x, g.imports modules' x = g.imports st.modules x := by
    intro x
    by_cases hx : x ∈ pushed ++ [m]
    · obtain ⟨_, _, hx₁⟩ := hpre x hx
      obtain ⟨_, _, hx₂⟩ := hlinked x hx
      simp only [imports, hx₁, hx₂]
    · simp only [imports, hsame x hx]
  have hpost : ∀ x ∈ post, x ∉ pushed ++ [m] := fun x hx hin => hdisjoint x hin x hx rfl
  refine ⟨modules', by rw [hstack, heq], ⟨fun x => ?_, fun x hx => ?_, h.entered, h.left_sub,
    fun x hx hx' => ?_, fun x hx => ?_, fun x hx => ?_, hndpost, h.requests, h.passed⟩, hsame⟩
  · exact (hkind x).trans (h.imports_eq x)
  · have hx' : x ∉ pushed ++ [m] := fun hin => hx (h.left_sub (hleft x hin))
    exact (hsame x hx').trans (h.fresh x hx)
  · have hnot : x ∉ pushed ++ [m] := fun hin => hx' (hleft x hin)
    obtain ⟨source, index, hs', hst, hin⟩ := h.active x hx hx'
    refine ⟨source, index, hs', (hsame x hnot).trans hst, ?_⟩
    rw [hsplit] at hin
    exact (List.mem_append.mp hin).resolve_left hnot
  · by_cases hin : x ∈ pushed ++ [m]
    · obtain ⟨environment, index, hx'⟩ := hlinked x hin
      exact .inr ⟨by simp only [hx']; rfl, by simp only [hx']; rfl, fun hp => hpost x hp hin⟩
    · simp only [hsame x hin]
      rcases h.left x hx with ⟨environment, index, hx', hst⟩ | ⟨hl, hmay, hst⟩
      · rw [hsplit] at hst
        exact .inl ⟨environment, index, hx', (List.mem_append.mp hst).resolve_left hin⟩
      · refine .inr ⟨hl, hmay, fun hp => hst ?_⟩
        rw [hsplit]
        exact List.mem_append_right _ hp
  · refine h.stack_sub ?_
    rw [hsplit]
    exact List.mem_append_right _ hx

/-! ### Anchors -/

section Anchors

variable {left stack : List M}

omit [DecidableEq M] in
theorem Anchored.enter (h : g.Anchored s left stack) (hm : m ∉ left) :
    g.Anchored s left (m :: stack) := by
  intro pre x post heq hx
  cases pre with
  | nil =>
      obtain ⟨rfl, -⟩ := List.cons.inj heq
      exact absurd hx hm
  | cons y pre => exact h pre x post (List.cons.inj heq).2 hx

omit [DecidableEq M] in
/-- Leaving a module that is not on the stack. -/
theorem Anchored.leaf (h : g.Anchored s left stack) (hm : m ∉ stack) :
    g.Anchored s (left ++ [m]) stack := by
  intro pre x post heq hx
  have hne : x ≠ m := by
    rintro rfl
    exact hm (heq ▸ by simp)
  exact h pre x post heq (by simpa [hne] using hx)

omit [DecidableEq M] in
/-- Leaving a module that requests one further down. -/
theorem Anchored.leave (h : g.Anchored s left stack) (hnd : stack.Nodup) {pushed post : List M}
    (hstack : stack = pushed ++ m :: post) (hbelow : ∃ d ∈ g.imports s m, d ∈ post) :
    g.Anchored s (left ++ [m]) stack := by
  intro pre x post' heq hx
  by_cases hxm : x = m
  · subst hxm
    have hpost : post' = post := by
      rw [heq] at hnd
      obtain ⟨-, htail, hdisjoint⟩ := List.nodup_append.mp hnd
      have hpre : x ∉ pre := fun hp => hdisjoint x hp x List.mem_cons_self rfl
      have hpost' : x ∉ post' := (List.nodup_cons.mp htail).1
      exact ((List.append_cons_inj_of_notMem hpre hpost').mp (heq.symm.trans hstack)).2.2
    exact hpost ▸ hbelow
  · exact h pre x post' heq (by simpa [hxm] using hx)

omit [DecidableEq M] in
/-- What is left of the stack after popping. -/
theorem Anchored.pop {pushed post : List M} (h : g.Anchored s left (pushed ++ m :: post))
    (hnd : (pushed ++ m :: post).Nodup) : g.Anchored s (left ++ [m]) post := by
  intro pre x post' heq hx
  subst heq
  have hne : x ≠ m := by
    rintro rfl
    have htail := (List.nodup_append.mp hnd).2.1
    exact (List.nodup_cons.mp htail).1 (by simp)
  exact h (pushed ++ m :: pre) x post' (by simp) (by simpa [hne] using hx)

end Anchors

/-! ### One module -/

variable (g) in
/-- A module `m` on top of the path of the search: it is being linked, its ancestor index is
not above its own, and is below only if it requests a module of `post`, the stack below it. -/
structure Open (s : Modules M S E C X) (t : Visit M) (st : LinkState M S E C X) (m : M)
    (source : S) (moduleIndex : ℕ) (post : List M) : Prop where
  linking : g.Linking s t st
  anchored : g.Anchored s t.left st.stack
  entered : m ∈ t.entered
  notLeft : m ∉ t.left
  source_eq : s m = .sourceText (.unlinked source)
  status : ∃ index, st.modules m = .sourceText (.linking source index) ∧ index ≤ moduleIndex ∧
    (index < moduleIndex → ∃ d ∈ g.imports s m, d ∈ post)
  stack : ∃ pushed, st.stack = pushed ++ m :: post ∧ ∀ x ∈ pushed, x ∈ t.left

variable (g) in
/-- How the search has failed: at a module `f`, which is the next one in `left`, with the
modules before it left and the active ones not. -/
def FailedAt (s : Modules M S E C X) (active : M → Prop) (left : List M)
    (st : LinkState M S E C X) : Prop :=
  ∃ u f rest, g.Linking s u st ∧ g.Anchored s u.left st.stack ∧ left = u.left ++ f :: rest ∧
    g.Fails s f ∧ ∀ x, active x → x ∈ u.entered ∧ x ∉ u.left

variable {source : S} {moduleIndex : ℕ} {post : List M}

/-- Nothing is joined from a module that is linked. -/
theorem joinRequired_of_linked {d : M} (hlinked : (st.modules d).isLinkedOrLater)
    (hmay : mayLink (st.modules d)) : joinRequired m d st = some st := by
  rw [joinRequired]
  cases hk : st.modules d with
  | synthetic status => rfl
  | sourceText status =>
      rw [hk] at hlinked hmay
      cases status with
      | linked | evaluatingAsync | evaluated => rfl
      | unlinked | linking | preLinked => cases hlinked
      | evaluating => cases hmay

/-- **A required module that was searched** is joined; its ancestor index counts if it is on
the path. -/
theorem Open.join (ho : g.Open s t st m source moduleIndex post) (hs : g.Settled s) {d : M}
    (hd : d ∈ g.imports s m) (hreq : (s d).isLinkedOrLater ∨ d ∈ t.entered) :
    ∃ st', joinRequired m d st = some st' ∧ g.Open s t st' m source moduleIndex post ∧
      st'.stack = st.stack ∧ ∀ x, x ≠ m → st'.modules x = st.modules x := by
  have hself : joinRequired m d st = some st → ∃ st', joinRequired m d st = some st' ∧
      g.Open s t st' m source moduleIndex post ∧ st'.stack = st.stack ∧
        ∀ x, x ≠ m → st'.modules x = st.modules x :=
    fun heq => ⟨st, heq, ho, rfl, fun _ _ => rfl⟩
  by_cases hin : d ∈ t.entered
  · by_cases hleft : d ∈ t.left
    · rcases ho.linking.left d hleft with ⟨environment, index, hst, -⟩ | ⟨hlinked, hmay, -⟩
      · exact hself (by rw [joinRequired, hst])
      · exact hself (joinRequired_of_linked hlinked hmay)
    · obtain ⟨source', requiredIndex, -, hst, hstack⟩ := ho.linking.active d hin hleft
      obtain ⟨index, hm, hle, hlt⟩ := ho.status
      refine ⟨st.transition m (.linking source (min index requiredIndex)), ?_, ?_, rfl,
        fun x hx => Function.update_of_ne hx _ _⟩
      · simp only [joinRequired, hst, if_pos hstack, hm, ModuleStatus.ancestorIndex,
          ModuleStatus.withAncestorIndex, Option.map_some]
      · refine ⟨ho.linking.setIndex hm ho.entered ho.notLeft _, ho.anchored, ho.entered,
          ho.notLeft, ho.source_eq, ⟨min index requiredIndex, by simp [LinkState.transition],
            by omega, fun hmin => ?_⟩, ho.stack⟩
        by_cases hindex : index < moduleIndex
        · exact hlt hindex
        · -- The required module is not `m`, so it is below `m` on the stack.
          have hne : d ≠ m := by
            rintro rfl
            obtain ⟨-, rfl⟩ : source = source' ∧ index = requiredIndex := by simpa [hm] using hst
            omega
          obtain ⟨pushed, heq, hpushed⟩ := ho.stack
          rw [heq] at hstack
          rcases List.mem_append.mp hstack with hp | hp
          · exact absurd (hpushed d hp) hleft
          · exact ⟨d, hd, (List.mem_cons.mp hp).resolve_left hne⟩
  · have hlinked := hreq.resolve_right hin
    have hsame := ho.linking.fresh d hin
    exact hself (joinRequired_of_linked (hsame ▸ hlinked) (hsame ▸ hs.stable d))

/-- **The end of a module's search**: it fails, or is left, and linked if it requests nothing
that is further down the stack. -/
theorem Open.finish (ho : g.Open s t st m source moduleIndex post)
    (hrequests : ∀ d ∈ g.imports s m, (s d).isLinkedOrLater ∨ d ∈ t.entered) (index : ℕ) :
    (∃ e, g.finishLink m moduleIndex index st = .throw e st ∧ g.Fails s m) ∨
    ∃ st' pushed, g.finishLink m moduleIndex index st = .normal index st' ∧
      g.Linking s { t with left := t.left ++ [m] } st' ∧
      g.Anchored s (t.left ++ [m]) st'.stack ∧
      st'.stack = pushed ++ post ∧ (∀ x ∈ pushed, x ∈ t.left ++ [m]) ∧
      ∀ x, x ≠ m → (x ∈ st.stack → x ∈ post) → st'.modules x = st.modules x := by
  obtain ⟨ancestorIndex, hm, hle, hbelow⟩ := ho.status
  obtain ⟨pushed, hstack, hpushed⟩ := ho.stack
  have hnd := ho.linking.nodup
  have hmem : m ∈ st.stack := hstack ▸ by simp
  cases henv : g.environmentOf m source with
  | error e =>
      refine .inl ⟨e, ?_, source, e, ho.source_eq, henv⟩
      simp only [finishLink, initializeEnvironment, hm, henv]
  | ok environment =>
      right
      have hleave := ho.linking.leave ho.source_eq hm ho.entered ho.notLeft henv hmem hrequests
      set st₁ := st.transition m (.preLinked environment ancestorIndex) with hst₁
      have hcount : st₁.stack.count m = 1 := List.count_eq_one_of_mem hnd hmem
      have hm₁ : st₁.modules m = .sourceText (.preLinked environment ancestorIndex) := by
        simp [hst₁, LinkState.transition]
      have hfinish : g.finishLink m moduleIndex index st =
          if ancestorIndex = moduleIndex then
            (popLinked m st₁.stack st₁.modules).elim .panic (.normal index)
          else .normal index st₁ := by
        have hgt : ¬ moduleIndex < ancestorIndex := by omega
        simp only [finishLink, initializeEnvironment, hm, henv]
        rw [← hst₁, hm₁]
        simp only [hcount, ModuleStatus.ancestorIndex, hgt, ne_eq, not_true_eq_false, if_false]
        cases popLinked m st₁.stack st₁.modules <;> rfl
      by_cases heq : ancestorIndex = moduleIndex
      · have hstack₁ : st₁.stack = pushed ++ m :: post := hstack
        obtain ⟨modules', hpop, hlinking, hsame⟩ := hleave.pop hstack₁ fun x hx => by
          rcases List.mem_append.mp hx with hx | hx
          · exact List.mem_append_left _ (hpushed x hx)
          · exact List.mem_append_right _ hx
        refine ⟨⟨modules', post⟩, [], ?_, hlinking, ?_, rfl, fun _ hx => (nomatch hx),
          fun x hx hpost => ?_⟩
        · rw [hfinish, if_pos heq, hpop, Option.elim_some]
        · have hanchored := ho.anchored
          rw [hstack] at hanchored hnd
          exact hanchored.pop hnd
        · have hnot : x ∉ pushed ++ [m] := by
            intro hin
            have hin : x ∈ pushed := by simpa [hx] using hin
            rw [hstack] at hnd hpost
            exact (List.nodup_append.mp hnd).2.2 x hin x
              (List.mem_cons_of_mem _ (hpost (by simp [hin]))) rfl
          simp only [hsame x hnot, hst₁, LinkState.transition, Function.update_of_ne hx]
      · refine ⟨st₁, pushed ++ [m], ?_, hleave, ?_, ?_, fun x hx => ?_, fun x hx _ => ?_⟩
        · rw [hfinish, if_neg heq]
        · exact ho.anchored.leave hnd hstack (hbelow (by omega))
        · rw [List.append_assoc]
          exact hstack
        · rcases List.mem_append.mp hx with hx | hx
          · exact List.mem_append_left _ (hpushed x hx)
          · exact List.mem_append_right _ hx
        · simp only [hst₁, LinkState.transition, Function.update_of_ne hx]

/-! ### The search -/

omit [DecidableEq M] in
theorem FailedAt.mono {active active' : M → Prop} {left : List M}
    (hf : g.FailedAt s active left st) (himp : ∀ x, active' x → active x) (new : List M) :
    g.FailedAt s active' (left ++ new) st := by
  obtain ⟨u, f, rest, hlinking, hanchored, rfl, hfails, hactive⟩ := hf
  exact ⟨u, f, rest ++ new, hlinking, hanchored, by simp, hfails,
    fun x hx => hactive x (himp x hx)⟩

variable (g) in
/-- **What a search from `m` comes to**, where `t'` is the depth-first search from it: the
same modules are left, and those that stay on the stack lie on top of what was there; or the
search has failed. -/
inductive Searched (s : Modules M S E C X) (t t' : Visit M) (st : LinkState M S E C X) (m : M) :
    Completion (LinkState M S E C X) X ℕ → Prop
  | normal {index : ℕ} {st' : LinkState M S E C X} {pushed : List M}
      (linking : g.Linking s t' st') (anchored : g.Anchored s t'.left st'.stack)
      (hstack : st'.stack = pushed ++ st.stack) (hpushed : ∀ x ∈ pushed, x ∈ t'.left)
      (hsame : ∀ x ∈ t.entered, st'.modules x = st.modules x) :
      Searched s t t' st m (.normal index st')
  | throw {e : X} {st' : LinkState M S E C X}
      (hfailed : g.FailedAt s (fun x => x = m ∨ x ∈ t.entered ∧ x ∉ t.left) t'.left st') :
      Searched s t t' st m (.throw e st')

section Search

variable [Fintype M] {fuel : ℕ}

omit [DecidableEq M] [Fintype M] in
/-- The search after one from a required module. -/
theorem Open.next (ho : g.Open s t st m source moduleIndex post) {vs : List M} {t' : Visit M}
    (hvisits : Visits (g.imports s) (skips s) vs t t') {pushed : List M}
    (hlinking : g.Linking s t' st') (hanchored : g.Anchored s t'.left st'.stack)
    (hstack : st'.stack = pushed ++ st.stack) (hpushed : ∀ x ∈ pushed, x ∈ t'.left)
    (hsame : ∀ x ∈ t.entered, st'.modules x = st.modules x) :
    g.Open s t' st' m source moduleIndex post := by
  obtain ⟨below, heq, hbelow⟩ := ho.stack
  refine ⟨hlinking, hanchored, hvisits.entered_sub ho.entered, fun hin => ?_, ho.source_eq,
    by rw [hsame m ho.entered]; exact ho.status, pushed ++ below, ?_, fun x hx => ?_⟩
  · exact (hvisits.left_new m hin ho.notLeft).2 ho.entered
  · rw [hstack, heq, List.append_assoc]
  · rcases List.mem_append.mp hx with hx | hx
    · exact hpushed x hx
    · exact hvisits.left_sub (hbelow x hx)

/-- **The loop over the requests** of a module searches from one after the other. -/
theorem linkRequired_spec (hs : g.Settled s) (hloaded : g.Loaded)
    (ih : ∀ (t : Visit M) st m index, unentered t.entered < fuel → g.Linking s t st →
      g.Anchored s t.left st.stack →
        g.Searched s t (visit (g.imports s) (skips s) fuel t m) st m (g.innerLink fuel m index st))
    {requests : List Q} (hrequests : requests ⊆ g.requestedModules m) (index : ℕ)
    (ho : g.Open s t st m source moduleIndex post) (hfuel : unentered t.entered < fuel) :
    (∃ index' st', g.linkRequired (g.innerLink fuel) m requests index st = .normal index' st' ∧
      g.Open s ((requests.filterMap (g.loadedModules m)).foldl
        (visit (g.imports s) (skips s) fuel) t) st' m source moduleIndex post ∧
      ∀ x ∈ t.entered, x ≠ m → st'.modules x = st.modules x) ∨
    ∃ e st', g.linkRequired (g.innerLink fuel) m requests index st = .throw e st' ∧
      g.FailedAt s (fun x => x ∈ t.entered ∧ x ∉ t.left)
        ((requests.filterMap (g.loadedModules m)).foldl
          (visit (g.imports s) (skips s) fuel) t).left st' := by
  induction requests generalizing t st index with
  | nil => exact .inl ⟨index, st, rfl, ho, fun _ _ _ => rfl⟩
  | cons required requests ihr =>
      obtain ⟨hrequired, hrest⟩ := List.cons_subset.mp hrequests
      obtain ⟨d, hd⟩ := Option.isSome_iff_exists.mp (hloaded m required hrequired)
      have himport : d ∈ g.imports s m := by
        simp only [imports, ho.source_eq]
        exact List.mem_filterMap.mpr ⟨required, hrequired, hd⟩
      have hvisits : Visits (g.imports s) (skips s) [d] t
          (visit (g.imports s) (skips s) fuel t d) := visits_visit hfuel d ho.linking.left_sub
      have hresult := ih t st d index hfuel ho.linking ho.anchored
      simp only [linkRequired, hd, List.filterMap_cons, List.foldl_cons]
      set t₁ := visit (g.imports s) (skips s) fuel t d with ht₁
      have hkeep : ∀ x, x ∈ t.entered ∧ x ∉ t.left → x ∈ t₁.entered ∧ x ∉ t₁.left :=
        fun x hx => ⟨hvisits.entered_sub hx.1, fun hin => (hvisits.left_new x hin hx.2).2 hx.1⟩
      generalize g.innerLink fuel d index st = r at hresult
      cases hresult with
      | throw hfailed =>
          obtain ⟨new, hnew⟩ := left_prefix_foldl (g.imports s) (skips s) fuel
            (requests.filterMap (g.loadedModules m)) t₁
          exact .inr ⟨_, _, rfl, hnew ▸ hfailed.mono (fun x hx => .inr hx) new⟩
      | @normal index₁ st₁ pushed linking anchored hstack hpushed hsame =>
          have ho₁ := ho.next hvisits linking anchored hstack hpushed hsame
          obtain ⟨st₂, hjoin, ho₂, -, hsame₂⟩ := ho₁.join hs himport (hvisits.start d (by simp))
          have hfuel₁ : unentered t₁.entered < fuel :=
            Nat.lt_of_le_of_lt (unentered_le hvisits.entered_sub) hfuel
          simp only [hjoin]
          rcases ihr hrest index₁ ho₂ hfuel₁ with
            ⟨index', st', heq, ho', hsame'⟩ | ⟨e, st', heq, hfailed⟩
          · refine .inl ⟨index', st', heq, ho', fun x hx hne => ?_⟩
            rw [hsame' x (hvisits.entered_sub hx) hne, hsame₂ x hne, hsame x hx]
          · refine .inr ⟨e, st', heq, ?_⟩
            have hmono := hfailed.mono hkeep []
            rwa [List.append_nil] at hmono

omit [Fintype M] in
/-- The search does not go into a module that is linked. -/
theorem innerLink_of_linked (hlinked : (st.modules m).isLinkedOrLater)
    (hmay : mayLink (st.modules m)) (index : ℕ) :
    g.innerLink (fuel + 1) m index st = .normal index st := by
  rw [innerLink]
  cases hk : st.modules m with
  | synthetic status =>
      have hne : status ≠ .unlinked := by
        rintro rfl
        rw [hk] at hlinked
        cases hlinked
      simp only [if_neg hne, ← hk, Function.update_eq_self]
  | sourceText status =>
      rw [hk] at hlinked hmay
      cases status with
      | linked | evaluatingAsync | evaluated => rfl
      | unlinked | linking | preLinked => cases hlinked
      | evaluating => cases hmay

/-- **The search of `inner_link`** is a depth-first one, up to the first module that fails. -/
theorem innerLink_spec (hs : g.Settled s) (hloaded : g.Loaded) (t : Visit M)
    (st : LinkState M S E C X) (m : M) (index : ℕ) (hfuel : unentered t.entered < fuel)
    (h : g.Linking s t st) (ha : g.Anchored s t.left st.stack) :
    g.Searched s t (visit (g.imports s) (skips s) fuel t m) st m (g.innerLink fuel m index st) := by
  induction fuel generalizing t st m index with
  | zero => omega
  | succ fuel ih =>
      by_cases hskip : skips s m || m ∈ t.entered
      · have hvisit : visit (g.imports s) (skips s) (fuel + 1) t m = t := by
          rw [visit, if_pos hskip]
        have hsame : g.innerLink (fuel + 1) m index st = .normal index st := by
          by_cases hin : m ∈ t.entered
          · by_cases hleft : m ∈ t.left
            · rcases h.left m hleft with ⟨environment, i, hst, -⟩ | ⟨hlinked, hmay, -⟩
              · rw [innerLink, hst]
              · exact innerLink_of_linked hlinked hmay index
            · obtain ⟨source, i, -, hst, -⟩ := h.active m hin hleft
              rw [innerLink, hst]
          · have hlinked : (s m).isLinkedOrLater := by simpa [skips, hin] using hskip
            have hold := h.fresh m hin
            exact innerLink_of_linked (hold ▸ hlinked) (hold ▸ hs.stable m) index
        rw [hvisit, hsame]
        exact .normal h ha (List.nil_append _).symm (fun _ hx => (List.not_mem_nil hx).elim) fun _ _ => rfl
      · obtain ⟨hlinked, hin⟩ : (s m).isLinkedOrLater = false ∧ m ∉ t.entered := by
          simpa [skips] using hskip
        have hnotLeft : m ∉ t.left := fun hleft => hin (h.left_sub hleft)
        have hother : ∀ x ∈ t.entered, x ≠ m := fun x hx heq => hin (heq ▸ hx)
        have hold := h.fresh m hin
        rw [visit, if_neg hskip]
        rcases hs.unlinked hlinked with ⟨source, hsource⟩ | hsynthetic
        · -- A source text module.
          have himports : g.imports s m = (g.requestedModules m).filterMap (g.loadedModules m) := by
            rw [imports, hsource]
          set t₀ : Visit M := { t with entered := m :: t.entered } with ht₀
          set st₀ : LinkState M S E C X :=
            { modules := Function.update st.modules m (.sourceText (.linking source index))
              stack := m :: st.stack } with hst₀
          have ho : g.Open s t₀ st₀ m source index st.stack :=
            ⟨h.enter hin hsource index, ha.enter hnotLeft, List.mem_cons_self, hnotLeft, hsource,
              ⟨index, by simp [hst₀], le_rfl, fun hlt => absurd hlt (lt_irrefl _)⟩,
              [], rfl, fun _ hx => (List.not_mem_nil hx).elim⟩
          have hfuel₀ : unentered t₀.entered < fuel := by
            have hlt : unentered t₀.entered < unentered t.entered := unentered_cons_lt hin
            omega
          have hvisits : Visits (g.imports s) (skips s) (g.imports s m) t₀
              ((g.imports s m).foldl (visit (g.imports s) (skips s) fuel) t₀) :=
            visits_foldl hfuel₀ _ ho.linking.left_sub
          have hloop := linkRequired_spec hs hloaded ih (List.Subset.refl (g.requestedModules m))
            (index + 1) ho hfuel₀
          rw [← himports] at hloop
          rw [innerLink, hold, hsource]
          dsimp only
          rw [← hst₀]
          set u := (g.imports s m).foldl (visit (g.imports s) (skips s) fuel) t₀ with hu
          have hkeep : ∀ x, x = m ∨ x ∈ t.entered ∧ x ∉ t.left → x ∈ t₀.entered ∧ x ∉ t₀.left := by
            rintro x (rfl | ⟨hx, hx'⟩)
            · exact ⟨List.mem_cons_self, hnotLeft⟩
            · exact ⟨List.mem_cons_of_mem _ hx, hx'⟩
          rcases hloop with ⟨index', st₁, heq, ho₁, hsame⟩ | ⟨e, st', heq, hfailed⟩
          · simp only [heq]
            rcases ho₁.finish hvisits.start index' with
              ⟨e, hfinish, hfails⟩ | ⟨st', pushed, hfinish, hlinking, hanchored, hstack, hpushed, hsame'⟩
            · rw [hfinish]
              refine .throw ⟨u, m, [], ho₁.linking, ho₁.anchored, rfl, hfails, fun x hx => ?_⟩
              obtain ⟨hx₀, hx₀'⟩ := hkeep x hx
              exact ⟨hvisits.entered_sub hx₀, fun hx' => (hvisits.left_new x hx' hx₀').2 hx₀⟩
            · rw [hfinish]
              refine .normal hlinking hanchored hstack hpushed fun x hx => ?_
              have hne := hother x hx
              have hx₁ : st₁.modules x = st.modules x := by
                rw [hsame x (List.mem_cons_of_mem _ hx) hne, hst₀]
                exact Function.update_of_ne hne _ _
              -- What is popped was entered in this search.
              have hstack₁ : x ∈ st₁.stack → x ∈ st.stack := by
                intro hon
                by_cases hleft : x ∈ t.left
                · rcases h.left x hleft with ⟨environment, i, -, hst⟩ | ⟨hl, -, -⟩
                  · exact hst
                  · rcases ho₁.linking.left x (hvisits.left_sub hleft) with
                      ⟨environment, i, hpre, -⟩ | ⟨-, -, hoff⟩
                    · rw [← hx₁, hpre] at hl
                      cases hl
                    · exact absurd hon hoff
                · obtain ⟨source', i, -, -, hst⟩ := h.active x hx hleft
                  exact hst
              rw [hsame' x hne hstack₁, hx₁]
          · simp only [heq]
            have hmono := hfailed.mono hkeep [m]
            exact .throw hmono
        · -- A synthetic module.
          have himports : g.imports s m = [] := by rw [imports, hsynthetic]
          rw [innerLink, hold, hsynthetic, himports]
          refine .normal (h.leaf hin hsynthetic)
            (ha.leaf fun hstack => hin (h.stack_sub hstack)) (List.nil_append _).symm
            (fun _ hx => (List.not_mem_nil hx).elim) fun x hx => Function.update_of_ne (hother x hx) _ _

end Search

end ModuleGraph

end BoaLigero
