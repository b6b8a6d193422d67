import Mathlib.Data.Finset.Card
import Mathlib.Logic.Relation

/-!
# Merging Searches

A search through a graph whose vertices either answer or branch. The answers that are found are
merged along the recursion: none, one that all of them agree on, or the verdict that there are
two, which ends the search. A set of vertices that have been entered is shared by the whole
search, so that a vertex is looked into once and answers nothing after that; vertices that are
not recorded in the set, which have no successors, are looked into every time.

Although a vertex answers only the first time, the verdict is that of all vertices that can be
reached, whatever the cycles and the order of the successors.

## Main results

* `verdict_search` — the verdict is that of the answers offered by the vertices in reach.
* `isSome_search` — the nested calls suffice when they are more than the vertices not entered.
* `Verdict.Judges.unique` — the same offers have the same verdict.
-/

namespace MergeSearch

variable {V B : Type*}

/-- A vertex answers, or branches to other vertices. -/
inductive Node (V B : Type*)
  | answer (b : B)
  | branch (next : List V)

/-- The verdict of a search: at most one answer, or several. -/
inductive Verdict (B : Type*)
  | settled (answer : Option B)
  | ambiguous
  deriving DecidableEq

section Search

variable [DecidableEq V] [DecidableEq B]

/-- Visit vertices one after the other and merge their answers into one. -/
def searchAll (visit : V → List V → Option (Verdict B × List V)) :
    List V → Option B → List V → Option (Verdict B × List V)
  | [], acc, seen => some (.settled acc, seen)
  | w :: ws, acc, seen =>
      match visit w seen with
      | none => none
      | some (.ambiguous, seen) => some (.ambiguous, seen)
      | some (.settled none, seen) => searchAll visit ws acc seen
      | some (.settled (some b), seen) =>
          match acc with
          | none => searchAll visit ws (some b) seen
          | some b' => if b = b' then searchAll visit ws acc seen else some (.ambiguous, seen)

/-- Search from a vertex, with a number of nested calls. -/
def search (node : V → Node V B) (recorded : V → Bool) :
    ℕ → V → List V → Option (Verdict B × List V)
  | 0, _, _ => none
  | fuel + 1, v, seen =>
      if recorded v && v ∈ seen then some (.settled none, seen)
      else
        let seen := if recorded v then v :: seen else seen
        match node v with
        | .answer b => some (.settled (some b), seen)
        | .branch next => searchAll (search node recorded fuel) next none seen

end Search

/-! ### What a search has to find -/

section Offers

variable (node : V → Node V B) (recorded : V → Bool)

/-- A vertex leads to the vertices it branches to. -/
def Leads (v w : V) : Prop := ∃ next, node v = .branch next ∧ w ∈ next

/-- An answer is offered by a vertex in reach. -/
def Offers (v : V) (b : B) : Prop :=
  ∃ x, Relation.ReflTransGen (Leads node) v x ∧ node x = .answer b

/-- The verdict on the answers that are offered. -/
def Verdict.Judges (v : V) : Verdict B → Prop
  | .settled none => ∀ b, ¬ Offers node v b
  | .settled (some b) => ∀ b', Offers node v b' ↔ b' = b
  | .ambiguous => ∃ b₁ b₂, b₁ ≠ b₂ ∧ Offers node v b₁ ∧ Offers node v b₂

/-- A vertex has been dealt with: it was entered, or it is not recorded and its answer is the
one that was found. -/
structure Done (seen : List V) (r : Option B) (w : V) : Prop where
  entered : recorded w = true → w ∈ seen
  answer : recorded w = false → ∀ b, node w = .answer b → r = some b

/-- Searches from vertices `vs` lead from the vertices `seen` to the vertices `seen'` and find
the answer `r`. -/
structure Explored (vs seen seen' : List V) (r : Option B) : Prop where
  sub : seen ⊆ seen'
  answer : ∀ x ∈ seen', x ∉ seen → ∀ b, node x = .answer b → r = some b
  closed : ∀ x ∈ seen', x ∉ seen → ∀ w, Leads node x w → Done node recorded seen' r w
  start : ∀ v ∈ vs, Done node recorded seen' r v
  found : ∀ b, r = some b → ∃ v ∈ vs, Offers node v b

/-- The outcome of searches from vertices `vs`. -/
def Outcome (vs seen seen' : List V) : Verdict B → Prop
  | .settled r => Explored node recorded vs seen seen' r
  | .ambiguous => ∃ b₁ b₂, b₁ ≠ b₂ ∧ (∃ v ∈ vs, Offers node v b₁) ∧ ∃ v ∈ vs, Offers node v b₂

variable {node recorded}

theorem Offers.head {v w : V} {b : B} (hlead : Leads node v w) (h : Offers node w b) :
    Offers node v b := by
  obtain ⟨x, hpath, hx⟩ := h
  exact ⟨x, .head hlead hpath, hx⟩

theorem Offers.of_answer {v : V} {b : B} (h : node v = .answer b) : Offers node v b :=
  ⟨v, .refl, h⟩

/-- Verdicts on the same offers are equal. -/
theorem Verdict.Judges.unique {V' : Type*} {node' : V' → Node V' B} {v : V} {v' : V'}
    {r r' : Verdict B} (h : r.Judges node v) (h' : r'.Judges node' v')
    (hoffers : ∀ b, Offers node v b ↔ Offers node' v' b) : r = r' := by
  cases r with
  | ambiguous =>
      obtain ⟨b₁, b₂, hne, h₁, h₂⟩ := h
      cases r' with
      | ambiguous => rfl
      | settled found =>
          cases found with
          | none => exact absurd ((hoffers b₁).mp h₁) (h' b₁)
          | some b =>
              exact absurd (((h' b₁).mp ((hoffers b₁).mp h₁)).trans
                ((h' b₂).mp ((hoffers b₂).mp h₂)).symm) hne
  | settled found =>
      cases found with
      | none =>
          cases r' with
          | ambiguous =>
              obtain ⟨b₁, -, -, h₁, -⟩ := h'
              exact absurd ((hoffers b₁).mpr h₁) (h b₁)
          | settled found' =>
              cases found' with
              | none => rfl
              | some b => exact absurd ((hoffers b).mpr ((h' b).mpr rfl)) (h b)
      | some b =>
          have hb : Offers node' v' b := (hoffers b).mp ((h b).mpr rfl)
          cases r' with
          | ambiguous =>
              obtain ⟨b₁, b₂, hne, h₁, h₂⟩ := h'
              exact absurd (((h b₁).mp ((hoffers b₁).mpr h₁)).trans
                ((h b₂).mp ((hoffers b₂).mpr h₂)).symm) hne
          | settled found' =>
              cases found' with
              | none => exact absurd hb (h' b)
              | some b' => rw [(h' b).mp hb]

/-! ### Searches in sequence -/

theorem Done.mono {seen seen' : List V} {r r' : Option B} {w : V} (hsub : seen ⊆ seen')
    (hr : ∀ b, r = some b → r' = some b) (h : Done node recorded seen r w) :
    Done node recorded seen' r' w where
  entered hrec := hsub (h.entered hrec)
  answer hrec b hb := hr b (h.answer hrec b hb)

theorem Explored.refl (seen : List V) : Explored node recorded [] seen seen none where
  sub _ hx := hx
  answer _ hx hnot := absurd hx hnot
  closed _ hx hnot := absurd hx hnot
  start _ hv := nomatch hv
  found _ hb := nomatch hb

/-- One search after the other, with an answer that merges both. -/
theorem Explored.trans {vs ws seen seen' seen'' : List V} {r r' r'' : Option B}
    (h : Explored node recorded vs seen seen' r) (h' : Explored node recorded ws seen' seen'' r')
    (hr : ∀ b, r = some b → r'' = some b) (hr' : ∀ b, r' = some b → r'' = some b)
    (hor : ∀ b, r'' = some b → r = some b ∨ r' = some b) :
    Explored node recorded (vs ++ ws) seen seen'' r'' where
  sub _ hx := h'.sub (h.sub hx)
  answer x hx hnot b hb := by
    by_cases hin : x ∈ seen'
    · exact hr b (h.answer x hin hnot b hb)
    · exact hr' b (h'.answer x hx hin b hb)
  closed x hx hnot w hw := by
    by_cases hin : x ∈ seen'
    · exact (h.closed x hin hnot w hw).mono h'.sub hr
    · exact (h'.closed x hx hin w hw).mono (fun _ hy => hy) hr'
  start v hv := by
    rcases List.mem_append.mp hv with hv | hv
    · exact (h.start v hv).mono h'.sub hr
    · exact (h'.start v hv).mono (fun _ hy => hy) hr'
  found b hb := by
    rcases hor b hb with hb | hb
    · obtain ⟨v, hv, hoffers⟩ := h.found b hb
      exact ⟨v, List.mem_append_left _ hv, hoffers⟩
    · obtain ⟨v, hv, hoffers⟩ := h'.found b hb
      exact ⟨v, List.mem_append_right _ hv, hoffers⟩

/-- Two answers from searches in sequence. -/
theorem outcome_ambiguous {vs ws seen seen' : List V} {b₁ b₂ : B} (hne : b₁ ≠ b₂)
    (h₁ : ∃ v ∈ vs, Offers node v b₁) (h₂ : ∃ w ∈ ws, Offers node w b₂) :
    Outcome node recorded (vs ++ ws) seen seen' .ambiguous := by
  obtain ⟨v, hv, hoffers⟩ := h₁
  obtain ⟨w, hw, hoffers'⟩ := h₂
  exact ⟨b₁, b₂, hne, ⟨v, List.mem_append_left _ hv, hoffers⟩,
    ⟨w, List.mem_append_right _ hw, hoffers'⟩⟩

theorem Outcome.ambiguous_mono {vs ws seen seen' t t' : List V} (hsub : vs ⊆ ws)
    (h : Outcome node recorded vs seen seen' .ambiguous) :
    Outcome node recorded ws t t' .ambiguous := by
  obtain ⟨b₁, b₂, hne, ⟨v, hv, hoffers⟩, ⟨w, hw, hoffers'⟩⟩ := h
  exact ⟨b₁, b₂, hne, ⟨v, hsub hv, hoffers⟩, ⟨w, hsub hw, hoffers'⟩⟩

variable [DecidableEq V] [DecidableEq B]

omit [DecidableEq V] in
/-- **Visits in sequence**, if each does what it should. -/
theorem outcome_searchAll {visit : V → List V → Option (Verdict B × List V)}
    (hvisit : ∀ {w seen r seen'}, visit w seen = some (r, seen') →
      Outcome node recorded [w] seen seen' r)
    {vs ws seen₀ seen seen' : List V} {acc : Option B} {r : Verdict B}
    (hacc : Explored node recorded vs seen₀ seen acc)
    (h : searchAll visit ws acc seen = some (r, seen')) :
    Outcome node recorded (vs ++ ws) seen₀ seen' r := by
  induction ws generalizing vs seen acc with
  | nil =>
      cases h
      rw [List.append_nil]
      exact hacc
  | cons w ws ih =>
      rw [searchAll] at h
      cases hw : visit w seen with
      | none =>
          rw [hw] at h
          cases h
      | some visited =>
          obtain ⟨verdict, seen₁⟩ := visited
          rw [hw] at h
          have hout := hvisit hw
          cases verdict with
          | ambiguous =>
              cases h
              exact hout.ambiguous_mono (by simp)
          | settled answer =>
              rw [List.append_cons]
              cases answer with
              | none =>
                  exact ih (hacc.trans hout (fun _ hb => hb) (fun _ hb => nomatch hb)
                    fun _ hb => .inl hb) h
              | some b =>
                  cases acc with
                  | none =>
                      exact ih (hacc.trans hout (fun _ hb => nomatch hb) (fun _ hb => hb)
                        fun _ hb => .inr hb) h
                  | some b' =>
                      dsimp only at h
                      split at h
                      · next heq =>
                        subst heq
                        exact ih (hacc.trans hout (fun _ hb => hb) (fun _ hb => hb)
                          fun _ hb => .inl hb) h
                      · next hne =>
                        cases h
                        have hboth : Outcome node recorded (vs ++ [w]) seen₀ seen' .ambiguous :=
                          outcome_ambiguous (Ne.symm hne) (hacc.found b' rfl) (hout.found b rfl)
                        exact hboth.ambiguous_mono (by simp)

/-- **What a search does**: the vertices it has entered are dealt with, or there are two answers. -/
theorem outcome_search {fuel : ℕ} {v : V} {seen seen' : List V} {r : Verdict B}
    (h : search node recorded fuel v seen = some (r, seen')) :
    Outcome node recorded [v] seen seen' r := by
  induction fuel generalizing v seen r seen' with
  | zero => cases h
  | succ fuel ih =>
      rw [search] at h
      split at h
      · next hseen =>
        rw [Bool.and_eq_true, decide_eq_true_eq] at hseen
        cases h
        refine { Explored.refl seen with start := fun w hw => ?_, found := fun _ hb => nomatch hb }
        obtain rfl := List.mem_singleton.mp hw
        exact ⟨fun _ => hseen.2, fun hrec => absurd hseen.1 (by simp [hrec])⟩
      · next hnew =>
        dsimp only at h
        generalize hseen₁ : (if recorded v then v :: seen else seen) = seen₁ at h
        have hsub : seen ⊆ seen₁ := by
          rw [← hseen₁]
          split
          · exact List.subset_cons_self v seen
          · exact fun _ hx => hx
        have hentered : recorded v = true → v ∈ seen₁ := fun hrec => by
          rw [← hseen₁, if_pos hrec]
          exact List.mem_cons_self
        have honly : ∀ x ∈ seen₁, x ∉ seen → x = v := fun x hx hnot => by
          rw [← hseen₁] at hx
          split at hx
          · exact (List.mem_cons.mp hx).resolve_right hnot
          · exact absurd hx hnot
        cases hnode : node v with
        | answer b =>
            rw [hnode] at h
            cases h
            have hanswer : ∀ b', node v = .answer b' → some b = some b' := fun b' hb' => by
              rw [hnode] at hb'
              cases hb'
              rfl
            refine ⟨hsub, fun x hx hnot b' hb' => ?_, fun x hx hnot w hw => ?_, fun w hw => ?_,
              fun b' hb' => ?_⟩
            · exact hanswer b' (honly x hx hnot ▸ hb')
            · obtain ⟨next, hnext, -⟩ := hw
              rw [honly x hx hnot, hnode] at hnext
              cases hnext
            · obtain rfl := List.mem_singleton.mp hw
              exact ⟨hentered, fun _ => hanswer⟩
            · obtain rfl := Option.some.inj hb'
              exact ⟨v, List.mem_singleton_self v, .of_answer hnode⟩
        | branch next =>
            rw [hnode] at h
            have hall := outcome_searchAll (fun hw => ih hw) (.refl seen₁) h
            rw [List.nil_append] at hall
            have hleads : ∀ {b}, (∃ w ∈ next, Offers node w b) → Offers node v b := by
              rintro b ⟨w, hw, hoffers⟩
              exact hoffers.head ⟨next, hnode, hw⟩
            cases r with
            | ambiguous =>
                obtain ⟨b₁, b₂, hne, h₁, h₂⟩ := hall
                exact ⟨b₁, b₂, hne, ⟨v, List.mem_singleton_self v, hleads h₁⟩,
                  ⟨v, List.mem_singleton_self v, hleads h₂⟩⟩
            | settled r =>
                have hbranch : ∀ b, node v ≠ .answer b := fun b hb => by
                  rw [hnode] at hb
                  cases hb
                refine ⟨fun x hx => hall.sub (hsub hx), fun x hx hnot b hb => ?_,
                  fun x hx hnot w hw => ?_, fun w hw => ?_, fun b hb => ?_⟩
                · by_cases hin : x ∈ seen₁
                  · exact absurd (honly x hin hnot ▸ hb) (hbranch b)
                  · exact hall.answer x hx hin b hb
                · by_cases hin : x ∈ seen₁
                  · obtain ⟨next', hnext', hmem⟩ := hw
                    rw [honly x hin hnot, hnode] at hnext'
                    cases hnext'
                    exact hall.start w hmem
                  · exact hall.closed x hx hin w hw
                · obtain rfl := List.mem_singleton.mp hw
                  exact ⟨fun hrec => hall.sub (hentered hrec), fun _ b hb => absurd hb (hbranch b)⟩
                · exact ⟨v, List.mem_singleton_self v, hleads (hall.found b hb)⟩

/-! ### Verdicts -/

variable (node recorded) in
/-- The vertices that are not recorded have no successors. -/
def LeavesUnrecorded : Prop := ∀ v w, recorded v = false → ¬ Leads node v w

/-- **The verdict of a search is that of the answers offered.** -/
theorem verdict_search (hleaves : LeavesUnrecorded node recorded) {fuel : ℕ} {v : V}
    {seen : List V} {r : Verdict B} (h : search node recorded fuel v [] = some (r, seen)) :
    r.Judges node v := by
  have hout := outcome_search h
  cases r with
  | ambiguous =>
      obtain ⟨b₁, b₂, hne, ⟨v₁, hv₁, h₁⟩, ⟨v₂, hv₂, h₂⟩⟩ := hout
      obtain rfl := List.mem_singleton.mp hv₁
      obtain rfl := List.mem_singleton.mp hv₂
      exact ⟨b₁, b₂, hne, h₁, h₂⟩
  | settled r =>
      -- Every vertex in reach has been dealt with.
      have hdone : ∀ x, Relation.ReflTransGen (Leads node) v x → Done node recorded seen r x := by
        intro x hpath
        induction hpath with
        | refl => exact hout.start v (List.mem_singleton_self v)
        | tail _ hlead ih =>
            rename_i x w _
            cases hrec : recorded x with
            | true => exact hout.closed x (ih.entered hrec) List.not_mem_nil w hlead
            | false => exact absurd hlead (hleaves x w hrec)
      have hunique : ∀ b, Offers node v b → r = some b := by
        rintro b ⟨x, hpath, hx⟩
        have hx' := hdone x hpath
        cases hrec : recorded x with
        | true => exact hout.answer x (hx'.entered hrec) List.not_mem_nil b hx
        | false => exact hx'.answer hrec b hx
      cases r with
      | none => exact fun b hb => nomatch hunique b hb
      | some b =>
          obtain ⟨w, hw, hoffers⟩ := hout.found b rfl
          obtain rfl := List.mem_singleton.mp hw
          exact fun b' =>
            ⟨fun hb' => (Option.some.inj (hunique b' hb')).symm, fun hb' => hb' ▸ hoffers⟩

/-! ### Termination -/

/-- How many vertices of a set have not been entered. -/
def remaining (U : Finset V) (seen : List V) : ℕ := (U.filter (· ∉ seen)).card

theorem remaining_le {U : Finset V} {seen seen' : List V} (hsub : seen ⊆ seen') :
    remaining U seen' ≤ remaining U seen := by
  refine Finset.card_le_card fun x hx => ?_
  rw [Finset.mem_filter] at hx ⊢
  exact ⟨hx.1, fun hin => hx.2 (hsub hin)⟩

theorem remaining_cons_lt {U : Finset V} {seen : List V} {v : V} (hv : v ∈ U) (hnew : v ∉ seen) :
    remaining U (v :: seen) < remaining U seen := by
  refine Finset.card_lt_card ⟨fun x hx => ?_, fun hsub => ?_⟩
  · rw [Finset.mem_filter] at hx ⊢
    exact ⟨hx.1, fun hin => hx.2 (List.mem_cons_of_mem v hin)⟩
  · have hmem := hsub (Finset.mem_filter.mpr ⟨hv, hnew⟩)
    simp at hmem

theorem isSome_searchAll {visit : V → List V → Option (Verdict B × List V)} {U : Finset V}
    {fuel : ℕ} (hvisit : ∀ {w seen}, w ∈ U → remaining U seen < fuel →
      ∃ r seen', visit w seen = some (r, seen') ∧
        ∀ answer, r = .settled answer → seen ⊆ seen')
    {ws seen : List V} (hws : ∀ w ∈ ws, w ∈ U) (hfuel : remaining U seen < fuel)
    (acc : Option B) : (searchAll visit ws acc seen).isSome := by
  induction ws generalizing seen acc with
  | nil => rfl
  | cons w ws ih =>
      obtain ⟨r, seen', hw, hsub⟩ := hvisit (hws w List.mem_cons_self) hfuel
      have hrest : ∀ w ∈ ws, w ∈ U := fun w hw => hws w (List.mem_cons_of_mem _ hw)
      rw [searchAll, hw]
      cases r with
      | ambiguous => rfl
      | settled answer =>
          have hfuel' := Nat.lt_of_le_of_lt (remaining_le (hsub answer rfl)) hfuel
          cases answer with
          | none => exact ih hrest hfuel' acc
          | some b =>
              cases acc with
              | none => exact ih hrest hfuel' (some b)
              | some b' =>
                  dsimp only
                  split
                  · exact ih hrest hfuel' (some b')
                  · rfl

/-- **The nested calls suffice** when they are more than the vertices that have not been entered,
among finitely many that lead to no others. -/
theorem isSome_search (hleaves : LeavesUnrecorded node recorded) {U : Finset V}
    (hclosed : ∀ v ∈ U, ∀ w, Leads node v w → w ∈ U) {fuel : ℕ} {v : V} {seen : List V}
    (hv : v ∈ U) (hfuel : remaining U seen < fuel) :
    (search node recorded fuel v seen).isSome := by
  induction fuel generalizing v seen with
  | zero => exact absurd hfuel (Nat.not_lt_zero _)
  | succ fuel ih =>
      rw [search]
      split
      · rfl
      · next hnew =>
        dsimp only
        cases hnode : node v with
        | answer b => rfl
        | branch next =>
            dsimp only
            cases hrec : recorded v with
            | false =>
                have hnil : next = [] := List.eq_nil_iff_forall_not_mem.mpr fun w hw =>
                  hleaves v w hrec ⟨next, hnode, hw⟩
                rw [hnil]
                rfl
            | true =>
                rw [hrec, Bool.true_and, decide_eq_true_eq] at hnew
                have hless := remaining_cons_lt hv hnew
                rw [if_pos rfl]
                have hvisit : ∀ {w seen}, w ∈ U → remaining U seen < fuel →
                    ∃ r seen', search node recorded fuel w seen = some (r, seen') ∧
                      ∀ answer, r = .settled answer → seen ⊆ seen' := by
                  intro w seen hw hfuel
                  obtain ⟨⟨r, seen'⟩, heq⟩ := Option.isSome_iff_exists.mp (ih hw hfuel)
                  refine ⟨r, seen', heq, fun answer hr => ?_⟩
                  subst hr
                  exact (outcome_search heq).sub
                exact isSome_searchAll hvisit (fun w hw => hclosed v hv w ⟨next, hnode, hw⟩)
                  (by omega) none

end Offers

end MergeSearch
