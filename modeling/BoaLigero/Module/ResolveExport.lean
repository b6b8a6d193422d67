import BoaLigero.Util.MergeSearch
import Mathlib.Data.Fintype.Prod
import Mathlib.Data.Set.Subsingleton

/-!
# Export Resolution

`resolve_export` (`module/source.rs`, `module/synthetic.rs`): the binding that a module exports
under a name. A module exports a binding of its own, re-exports a binding or the namespace of
another module, or passes on what the modules of its star exports export.

The resolution is a merging search: one set of module and name pairs is shared by all nested
calls, a second visit of a pair answers that there is no export. Its result is nevertheless that
of the set of bindings in reach through re-exports and star exports, for all graphs, with cycles
as well, and for all orders of the star exports.

## Main results

* `resolveExport_eq_search` — the resolution is a merging search.
* `binds_iff_offers` — the bindings in reach are the answers that the search is offered.
* `resolveExport_spec` — the resolution terminates with the verdict on the bindings in reach.
-/

namespace BoaLigero

open MergeSearch

/-- The name of an export, in code units. -/
abbrev ExportName := List UInt16

/-- The name `default`. -/
def defaultName : ExportName := [100, 101, 102, 97, 117, 108, 116]

/-- What a re-export imports: the namespace, or a name. -/
inductive ReExportImportName where
  | star
  | name (name : ExportName)
  deriving DecidableEq

/-- An export of a binding of the module itself. -/
structure LocalExportEntry where
  localName : ExportName
  exportName : ExportName
  deriving DecidableEq

/-- An export of a binding, or of the namespace, of another module. -/
structure IndirectExportEntry (Q : Type) where
  moduleRequest : Q
  importName : ReExportImportName
  exportName : ExportName
  deriving DecidableEq

/-- The export entries of a source text module. -/
structure ModuleCode (Q : Type) where
  localExportEntries : List LocalExportEntry
  indirectExportEntries : List (IndirectExportEntry Q)
  starExportEntries : List Q
  /-- An early error keeps exported names from being declared more than once. -/
  nodup : (localExportEntries.map LocalExportEntry.exportName ++
    indirectExportEntries.map IndirectExportEntry.exportName).Nodup

/-- The exports of a module by its kind. -/
inductive ModuleExports (Q : Type) where
  | sourceText (code : ModuleCode Q)
  | synthetic (exportNames : List ExportName)

/-- A graph of modules that have been loaded: the exports of each, and the module that was
loaded for a request. -/
structure ExportGraph (M Q : Type) where
  exports : M → ModuleExports Q
  loadedModules : M → Q → M

/-- The local name of a resolved binding within its module, or the whole namespace. -/
inductive BindingName where
  | name (name : ExportName)
  | namespace
  deriving DecidableEq

/-- A binding that a name is resolved to: the module, and the name there or its namespace. -/
structure ResolvedBinding (M : Type) where
  module : M
  bindingName : BindingName
  deriving DecidableEq

/-- Why a name cannot be resolved. -/
inductive ResolveExportError where
  | notFound
  | ambiguous
  deriving DecidableEq

/-- What a resolution returns. -/
abbrev Resolution (M : Type) := Except ResolveExportError (ResolvedBinding M)

variable {M Q : Type}

/-- Whether a star resolution and another resolution are ambiguous. -/
def conflicts [DecidableEq M] (resolution starResolution : ResolvedBinding M) : Bool :=
  if resolution.module ≠ starResolution.module then true
  else
    match resolution.bindingName, starResolution.bindingName with
    | .namespace, .name _ | .name _, .namespace => true
    | .name res, .name star => res ≠ star
    | .namespace, .namespace => false

/-- The loop over the star exports, given the resolution of each. -/
def resolveStars [DecidableEq M]
    (resolve : M → List (M × ExportName) → Option (Resolution M × List (M × ExportName))) :
    List M → Option (ResolvedBinding M) → List (M × ExportName) →
      Option (Resolution M × List (M × ExportName))
  | [], starResolution, resolveSet =>
      some (starResolution.elim (.error .notFound) .ok, resolveSet)
  | importedModule :: entries, starResolution, resolveSet =>
      match resolve importedModule resolveSet with
      | none => none
      | some (.error .ambiguous, resolveSet) => some (.error .ambiguous, resolveSet)
      | some (.error .notFound, resolveSet) =>
          resolveStars resolve entries starResolution resolveSet
      | some (.ok resolution, resolveSet) =>
          match starResolution with
          | some star =>
              if conflicts resolution star then some (.error .ambiguous, resolveSet)
              else resolveStars resolve entries starResolution resolveSet
          | none => resolveStars resolve entries (some resolution) resolveSet

namespace ExportGraph

variable (g : ExportGraph M Q)

/-- Concrete method `ResolveExport ( exportName [ , resolveSet ] )`, with a number of nested
calls; the set of pairs that were visited is returned as well. -/
def resolveExport [DecidableEq M] : ℕ → M → ExportName → List (M × ExportName) →
    Option (Resolution M × List (M × ExportName))
  | 0, _, _, _ => none
  | fuel + 1, moduleSelf, exportName, resolveSet =>
      match g.exports moduleSelf with
      | .synthetic exportNames =>
          if exportName ∈ exportNames then
            some (.ok ⟨moduleSelf, .name exportName⟩, resolveSet)
          else some (.error .notFound, resolveSet)
      | .sourceText code =>
          if (moduleSelf, exportName) ∈ resolveSet then some (.error .notFound, resolveSet)
          else
            let resolveSet := (moduleSelf, exportName) :: resolveSet
            match code.localExportEntries.find? fun e => e.exportName = exportName with
            | some e => some (.ok ⟨moduleSelf, .name e.localName⟩, resolveSet)
            | none =>
                match code.indirectExportEntries.find? fun e => e.exportName = exportName with
                | some e =>
                    let importedModule := g.loadedModules moduleSelf e.moduleRequest
                    match e.importName with
                    | .star => some (.ok ⟨importedModule, .namespace⟩, resolveSet)
                    | .name name => resolveExport fuel importedModule name resolveSet
                | none =>
                    -- A default export cannot be provided by a star export.
                    if exportName = defaultName then some (.error .notFound, resolveSet)
                    else
                      resolveStars (fun m set => resolveExport fuel m exportName set)
                        (code.starExportEntries.map (g.loadedModules moduleSelf)) none resolveSet

/-! ### Bindings in reach -/

/-- The bindings in reach of a module and a name. -/
inductive Binds : M → ExportName → ResolvedBinding M → Prop
  | synthetic {m : M} {n : ExportName} {exportNames : List ExportName}
      (hm : g.exports m = .synthetic exportNames) (hn : n ∈ exportNames) : Binds m n ⟨m, .name n⟩
  | local {m : M} {code : ModuleCode Q} {e : LocalExportEntry}
      (hm : g.exports m = .sourceText code) (he : e ∈ code.localExportEntries) :
      Binds m e.exportName ⟨m, .name e.localName⟩
  | namespace {m : M} {code : ModuleCode Q} {e : IndirectExportEntry Q}
      (hm : g.exports m = .sourceText code) (he : e ∈ code.indirectExportEntries)
      (hall : e.importName = .star) :
      Binds m e.exportName ⟨g.loadedModules m e.moduleRequest, .namespace⟩
  | indirect {m : M} {code : ModuleCode Q} {e : IndirectExportEntry Q} {n : ExportName}
      {b : ResolvedBinding M} (hm : g.exports m = .sourceText code)
      (he : e ∈ code.indirectExportEntries) (hname : e.importName = .name n)
      (hb : Binds (g.loadedModules m e.moduleRequest) n b) : Binds m e.exportName b
  | star {m : M} {code : ModuleCode Q} {n : ExportName} {q : Q} {b : ResolvedBinding M}
      (hm : g.exports m = .sourceText code) (hdefault : n ≠ defaultName)
      (hlocal : ∀ e ∈ code.localExportEntries, e.exportName ≠ n)
      (hindirect : ∀ e ∈ code.indirectExportEntries, e.exportName ≠ n)
      (hq : q ∈ code.starExportEntries) (hb : Binds (g.loadedModules m q) n b) : Binds m n b

/-! ### The resolution as a search -/

/-- A module and a name as a vertex of a search. -/
def node (v : M × ExportName) : Node (M × ExportName) (ResolvedBinding M) :=
  match g.exports v.1 with
  | .synthetic exportNames => if v.2 ∈ exportNames then .answer ⟨v.1, .name v.2⟩ else .branch []
  | .sourceText code =>
      match code.localExportEntries.find? fun e => e.exportName = v.2 with
      | some e => .answer ⟨v.1, .name e.localName⟩
      | none =>
          match code.indirectExportEntries.find? fun e => e.exportName = v.2 with
          | some e =>
              match e.importName with
              | .star => .answer ⟨g.loadedModules v.1 e.moduleRequest, .namespace⟩
              | .name name => .branch [(g.loadedModules v.1 e.moduleRequest, name)]
          | none =>
              if v.2 = defaultName then .branch []
              else .branch (code.starExportEntries.map fun q => (g.loadedModules v.1 q, v.2))

/-- Synthetic modules do not look at the set of visited pairs. -/
def recorded (v : M × ExportName) : Bool :=
  match g.exports v.1 with
  | .synthetic _ => false
  | .sourceText _ => true

end ExportGraph

/-- What a resolution returns for a verdict. -/
def resolutionOf : Verdict (ResolvedBinding M) → Resolution M
  | .settled none => .error .notFound
  | .settled (some b) => .ok b
  | .ambiguous => .error .ambiguous

/-- The outcome of a search as that of a resolution. -/
def asResolution (r : Option (Verdict (ResolvedBinding M) × List (M × ExportName))) :
    Option (Resolution M × List (M × ExportName)) :=
  r.map fun r => (resolutionOf r.1, r.2)

/-- Two bindings conflict if and only if they differ. -/
theorem conflicts_eq [DecidableEq M] (b b' : ResolvedBinding M) : conflicts b b' = decide (b ≠ b') := by
  obtain ⟨m, n⟩ := b
  obtain ⟨m', n'⟩ := b'
  by_cases hm : m = m'
  · subst hm
    cases n <;> cases n' <;> simp [conflicts]
  · simp [conflicts, hm]

/-- The loop over the star exports is a sequence of visits. -/
theorem resolveStars_eq [DecidableEq M] {resolve : M → List (M × ExportName) →
      Option (Resolution M × List (M × ExportName))}
    {visit : M × ExportName → List (M × ExportName) →
      Option (Verdict (ResolvedBinding M) × List (M × ExportName))} {n : ExportName}
    (h : ∀ m set, resolve m set = asResolution (visit (m, n) set)) (ms : List M)
    (acc : Option (ResolvedBinding M)) (set : List (M × ExportName)) :
    resolveStars resolve ms acc set =
      asResolution (searchAll visit (ms.map fun m => (m, n)) acc set) := by
  induction ms generalizing acc set with
  | nil => cases acc <;> rfl
  | cons m ms ih =>
      rw [resolveStars, h, List.map_cons, searchAll]
      cases visit (m, n) set with
      | none => rfl
      | some visited =>
          obtain ⟨verdict, set'⟩ := visited
          cases verdict with
          | ambiguous => rfl
          | settled answer =>
              cases answer with
              | none => exact ih acc set'
              | some b =>
                  cases acc with
                  | none => exact ih (some b) set'
                  | some b' =>
                      by_cases hb : b = b'
                      · simpa [asResolution, resolutionOf, conflicts_eq, hb] using ih (some b') set'
                      · simp [asResolution, resolutionOf, conflicts_eq, hb]

namespace ExportGraph

variable {g : ExportGraph M Q}

/-- **The resolution is a merging search.** -/
theorem resolveExport_eq_search [DecidableEq M] (g : ExportGraph M Q) (fuel : ℕ) (m : M) (n : ExportName)
    (set : List (M × ExportName)) :
    g.resolveExport fuel m n set = asResolution (search g.node g.recorded fuel (m, n) set) := by
  induction fuel generalizing m n set with
  | zero => rfl
  | succ fuel ih =>
      rw [resolveExport, search, recorded, node]
      cases g.exports m with
      | synthetic exportNames =>
          dsimp only
          rw [Bool.false_and, if_neg Bool.false_ne_true, if_neg Bool.false_ne_true]
          split
          · rfl
          · rfl
      | sourceText code =>
          dsimp only
          rw [Bool.true_and, if_pos rfl]
          by_cases hseen : (m, n) ∈ set
          · simp only [hseen, decide_true, if_true]
            rfl
          · simp only [hseen, decide_false, Bool.false_eq_true, if_false]
            cases code.localExportEntries.find? fun e => e.exportName = n with
            | some e => rfl
            | none =>
                cases code.indirectExportEntries.find? fun e => e.exportName = n with
                | some e =>
                    dsimp only
                    cases e.importName with
                    | star => rfl
                    | name name =>
                        -- A single visit passes its outcome on.
                        dsimp only
                        rw [ih, searchAll]
                        cases search g.node g.recorded fuel _ ((m, n) :: set) with
                        | none => rfl
                        | some visited =>
                            obtain ⟨verdict, set'⟩ := visited
                            cases verdict with
                            | ambiguous => rfl
                            | settled answer => cases answer <;> rfl
                | none =>
                    dsimp only
                    split
                    · rfl
                    · have hstars := resolveStars_eq (fun m set => ih m n set)
                        (code.starExportEntries.map (g.loadedModules m)) none ((m, n) :: set)
                      rw [hstars, List.map_map]
                      rfl

/-! ### The bindings in reach as answers -/

/-- The entry of a name is found, as names are not repeated. -/
theorem find?_eq_some {α : Type} {name : α → ExportName} {l : List α} (hnd : (l.map name).Nodup)
    {e : α} (he : e ∈ l) : (l.find? fun e' => name e' = name e) = some e := by
  induction l with
  | nil => cases he
  | cons e' l ih =>
      rw [List.map_cons, List.nodup_cons] at hnd
      rw [List.find?_cons]
      rcases List.mem_cons.mp he with rfl | he
      · rw [decide_eq_true rfl]
      · have hne : name e' ≠ name e := fun heq => hnd.1 (heq ▸ List.mem_map_of_mem he)
        rw [decide_eq_false hne]
        exact ih hnd.2 he

/-- No entry is found under a name that none has. -/
theorem find?_eq_none {α : Type} {name : α → ExportName} {l : List α} {n : ExportName}
    (h : ∀ e ∈ l, name e ≠ n) : (l.find? fun e => name e = n) = none := by
  rw [List.find?_eq_none]
  exact fun e he => by simpa using h e he

/-- An entry that is found is in the list and has the name. -/
theorem mem_of_find? {α : Type} {name : α → ExportName} {l : List α} {n : ExportName} {e : α}
    (h : (l.find? fun e => name e = n) = some e) : e ∈ l ∧ name e = n :=
  ⟨List.mem_of_find?_eq_some h, by simpa using List.find?_some h⟩

section Code

variable {m : M} {code : ModuleCode Q}

/-- A local export answers its own binding. -/
theorem node_local (hm : g.exports m = .sourceText code) {e : LocalExportEntry} (he : e ∈ code.localExportEntries) :
    g.node (m, e.exportName) = .answer ⟨m, .name e.localName⟩ := by
  have hnd := (List.nodup_append.mp code.nodup).1
  rw [node, hm]
  dsimp only
  rw [find?_eq_some hnd he]

/-- The names of indirect exports are not those of local ones. -/
theorem find?_local_of_indirect {e : IndirectExportEntry Q}
    (he : e ∈ code.indirectExportEntries) :
    (code.localExportEntries.find? fun e' => e'.exportName = e.exportName) = none :=
  find?_eq_none fun _ he' => (List.nodup_append.mp code.nodup).2.2 _
    (List.mem_map_of_mem he') _ (List.mem_map_of_mem he)

/-- An indirect export answers a namespace, or asks the other module for the imported name. -/
theorem node_indirect (hm : g.exports m = .sourceText code) {e : IndirectExportEntry Q}
    (he : e ∈ code.indirectExportEntries) :
    g.node (m, e.exportName) = match e.importName with
      | .star => .answer ⟨g.loadedModules m e.moduleRequest, .namespace⟩
      | .name name => .branch [(g.loadedModules m e.moduleRequest, name)] := by
  have hnd := (List.nodup_append.mp code.nodup).2.1
  rw [node, hm]
  dsimp only
  rw [find?_local_of_indirect he, find?_eq_some hnd he]

/-- Any other name but `default` is looked for in all modules of the star exports. -/
theorem node_star (hm : g.exports m = .sourceText code) {n : ExportName} (hdefault : n ≠ defaultName)
    (hlocal : ∀ e ∈ code.localExportEntries, e.exportName ≠ n)
    (hindirect : ∀ e ∈ code.indirectExportEntries, e.exportName ≠ n) :
    g.node (m, n) = .branch (code.starExportEntries.map fun q => (g.loadedModules m q, n)) := by
  rw [node, hm]
  dsimp only
  rw [find?_eq_none hlocal, find?_eq_none hindirect]
  exact if_neg hdefault

end Code

/-- The bindings in reach are offered. -/
theorem offers_of_binds {m : M} {n : ExportName} {b : ResolvedBinding M} (h : g.Binds m n b) :
    Offers g.node (m, n) b := by
  induction h with
  | synthetic hm hn =>
      refine .of_answer ?_
      rw [node, hm]
      exact if_pos hn
  | «local» hm he => exact .of_answer (node_local hm he)
  | «namespace» hm he hall =>
      refine .of_answer ?_
      rw [node_indirect hm he, hall]
  | indirect hm he hname _ ih =>
      refine ih.head ⟨_, ?_, List.mem_singleton_self _⟩
      rw [node_indirect hm he, hname]
  | star hm hdefault hlocal hindirect hq _ ih =>
      exact ih.head ⟨_, node_star hm hdefault hlocal hindirect, List.mem_map_of_mem hq⟩

/-- An answer of a vertex is a binding of it. -/
theorem binds_of_answer {v : M × ExportName} {b : ResolvedBinding M}
    (h : g.node v = .answer b) : g.Binds v.1 v.2 b := by
  obtain ⟨m, n⟩ := v
  rw [node] at h
  dsimp only at h
  split at h
  · next exportNames hm =>
    split at h
    · next hn =>
      cases h
      exact .synthetic hm hn
    · cases h
  · next code hm =>
    split at h
    · next e he =>
      obtain ⟨hmem, rfl⟩ := mem_of_find? he
      cases h
      exact .local hm hmem
    · split at h
      · next e he =>
        obtain ⟨hmem, rfl⟩ := mem_of_find? he
        split at h
        · next hall =>
          cases h
          exact .namespace hm hmem hall
        · cases h
      · split at h <;> cases h

/-- The bindings of a vertex that another one branches to are bindings of that. -/
theorem binds_of_leads {v w : M × ExportName} {b : ResolvedBinding M}
    (hlead : MergeSearch.Leads g.node v w) (h : g.Binds w.1 w.2 b) : g.Binds v.1 v.2 b := by
  obtain ⟨m, n⟩ := v
  obtain ⟨next, hnode, hw⟩ := hlead
  rw [node] at hnode
  dsimp only at hnode
  split at hnode
  · split at hnode
    · cases hnode
    · cases hnode
      cases hw
  · next code hm =>
    split at hnode
    · cases hnode
    · next hlocal =>
      split at hnode
      · next e he =>
        obtain ⟨hmem, rfl⟩ := mem_of_find? he
        split at hnode
        · cases hnode
        · next name hname =>
          cases hnode
          obtain rfl := List.mem_singleton.mp hw
          exact .indirect hm hmem hname h
      · next hindirect =>
        split at hnode
        · cases hnode
          cases hw
        · next hdefault =>
          cases hnode
          obtain ⟨q, hq, rfl⟩ := List.mem_map.mp hw
          refine .star hm hdefault (fun e he => ?_) (fun e he => ?_) hq h
          · simpa using List.find?_eq_none.mp hlocal e he
          · simpa using List.find?_eq_none.mp hindirect e he

/-- **The bindings in reach are the answers that the search is offered.** -/
theorem binds_iff_offers {m : M} {n : ExportName} {b : ResolvedBinding M} :
    g.Binds m n b ↔ Offers g.node (m, n) b := by
  constructor
  · exact offers_of_binds
  · rintro ⟨x, hpath, hx⟩
    have hall : g.Binds x.1 x.2 b := binds_of_answer hx
    change g.Binds (m, n).1 (m, n).2 b
    generalize (m, n) = v at hpath ⊢
    induction hpath using Relation.ReflTransGen.head_induction_on with
    | refl => exact hall
    | head hlead _ ih => exact binds_of_leads hlead ih

/-! ### Termination -/

/-- A module that does not record a name asks no other module for it. -/
theorem leavesUnrecorded (g : ExportGraph M Q) : LeavesUnrecorded g.node g.recorded := by
  rintro ⟨m, n⟩ w hrec ⟨next, hnode, hw⟩
  rw [recorded] at hrec
  dsimp only at hrec
  split at hrec
  · next exportNames hm =>
    rw [node, hm] at hnode
    dsimp only at hnode
    split at hnode
    · cases hnode
    · cases hnode
      cases hw
  · cases hrec

/-- The names that a module re-exports. -/
def importNames (m : M) : List ExportName :=
  match g.exports m with
  | .synthetic _ => []
  | .sourceText code => code.indirectExportEntries.filterMap fun e =>
      match e.importName with
      | .star => none
      | .name name => some name

/-- The pairs that a resolution may visit. -/
def pairs [Fintype M] (g : ExportGraph M Q) (n : ExportName) : Finset (M × ExportName) :=
  Finset.univ ×ˢ insert n (Finset.univ.biUnion fun m => (g.importNames m).toFinset)

/-- The names that are ever asked for are the first one and those of indirect exports. -/
theorem mem_pairs [Fintype M] {n : ExportName} {v : M × ExportName} :
    v ∈ g.pairs n ↔ v.2 = n ∨ ∃ m, v.2 ∈ g.importNames m := by
  simp [pairs]

/-- The pairs that a resolution may visit lead to no others. -/
theorem pairs_closed [Fintype M] {n : ExportName} {v : M × ExportName} (hv : v ∈ g.pairs n)
    (w : M × ExportName) (hlead : MergeSearch.Leads g.node v w) : w ∈ g.pairs n := by
  obtain ⟨m, n'⟩ := v
  obtain ⟨next, hnode, hw⟩ := hlead
  rw [node] at hnode
  dsimp only at hnode
  split at hnode
  · split at hnode
    · cases hnode
    · cases hnode
      cases hw
  · next code hm =>
    split at hnode
    · cases hnode
    · split at hnode
      · next e he =>
        obtain ⟨hmem, -⟩ := mem_of_find? he
        split at hnode
        · cases hnode
        · next name hname =>
          cases hnode
          obtain rfl := List.mem_singleton.mp hw
          refine mem_pairs.mpr (.inr ⟨m, ?_⟩)
          rw [importNames, hm]
          exact List.mem_filterMap.mpr ⟨e, hmem, by rw [hname]⟩
      · split at hnode
        · cases hnode
          cases hw
        · cases hnode
          obtain ⟨q, -, rfl⟩ := List.mem_map.mp hw
          have hname := mem_pairs.mp hv
          exact mem_pairs.mpr hname

/-! ### The resolution -/

/-- Two graphs differ in the order of star exports only. -/
structure SameUpToStarOrder (g g' : ExportGraph M Q) : Prop where
  loadedModules : g.loadedModules = g'.loadedModules
  exports : ∀ m, match g.exports m, g'.exports m with
    | .synthetic names, .synthetic names' => names = names'
    | .sourceText code, .sourceText code' =>
        code.localExportEntries = code'.localExportEntries ∧
          code.indirectExportEntries = code'.indirectExportEntries ∧
          code.starExportEntries.Perm code'.starExportEntries
    | _, _ => False

/-- It does not matter which of two graphs that differ by the order of star exports comes first. -/
theorem SameUpToStarOrder.symm {g g' : ExportGraph M Q} (h : g.SameUpToStarOrder g') :
    g'.SameUpToStarOrder g where
  loadedModules := h.loadedModules.symm
  exports m := by
    have hm := h.exports m
    cases hg : g.exports m <;> cases hg' : g'.exports m <;> rw [hg, hg'] at hm
    · exact ⟨hm.1.symm, hm.2.1.symm, hm.2.2.symm⟩
    · exact hm
    · exact hm
    · exact hm.symm

/-- The bindings in reach do not depend on the order of star exports. -/
theorem SameUpToStarOrder.binds {g g' : ExportGraph M Q} (h : g.SameUpToStarOrder g') {m : M}
    {n : ExportName} {b : ResolvedBinding M} (hb : g.Binds m n b) : g'.Binds m n b := by
  have hcode : ∀ {m code}, g.exports m = .sourceText code → ∃ code',
      g'.exports m = .sourceText code' ∧ code.localExportEntries = code'.localExportEntries ∧
        code.indirectExportEntries = code'.indirectExportEntries ∧
        code.starExportEntries.Perm code'.starExportEntries := by
    intro m code hm
    have hsame := h.exports m
    rw [hm] at hsame
    cases hg' : g'.exports m with
    | synthetic names => rw [hg'] at hsame; exact hsame.elim
    | sourceText code' => rw [hg'] at hsame; exact ⟨code', rfl, hsame⟩
  induction hb with
  | @synthetic m n names hm hn =>
      have hsame := h.exports m
      rw [hm] at hsame
      cases hg' : g'.exports m with
      | synthetic names' =>
          rw [hg'] at hsame
          exact .synthetic hg' (hsame ▸ hn)
      | sourceText code => rw [hg'] at hsame; exact hsame.elim
  | «local» hm he =>
      obtain ⟨code', hm', hlocal, -, -⟩ := hcode hm
      exact .local hm' (hlocal ▸ he)
  | «namespace» hm he hall =>
      obtain ⟨code', hm', -, hindirect, -⟩ := hcode hm
      rw [h.loadedModules]
      exact .namespace hm' (hindirect ▸ he) hall
  | indirect hm he hname _ ih =>
      obtain ⟨code', hm', -, hindirect, -⟩ := hcode hm
      exact .indirect hm' (hindirect ▸ he) hname (h.loadedModules ▸ ih)
  | star hm hdefault hlocal hindirect hq _ ih =>
      obtain ⟨code', hm', hl, hi, hs⟩ := hcode hm
      exact .star hm' hdefault (hl ▸ hlocal) (hi ▸ hindirect) (hs.mem_iff.mp hq)
        (h.loadedModules ▸ ih)

/-- With enough nested calls a resolution ends with the verdict on what it is offered. -/
theorem exists_verdict [DecidableEq M] [Fintype M] (g : ExportGraph M Q) (m : M) (n : ExportName) :
    ∃ verdict : Verdict (ResolvedBinding M), verdict.Judges g.node (m, n) ∧
      ∀ fuel, remaining (g.pairs n) [] < fuel →
        (g.resolveExport fuel m n []).map Prod.fst = some (resolutionOf verdict) := by
  have hmem : (m, n) ∈ g.pairs n := mem_pairs.mpr (.inl rfl)
  have hsome : ∀ fuel, remaining (g.pairs n) [] < fuel →
      ∃ r set, search g.node g.recorded fuel (m, n) [] = some (r, set) := by
    intro fuel hfuel
    obtain ⟨⟨r, set⟩, heq⟩ := Option.isSome_iff_exists.mp
      (isSome_search g.leavesUnrecorded (fun _ hv => pairs_closed hv) hmem hfuel)
    exact ⟨r, set, heq⟩
  obtain ⟨verdict, set, heq⟩ := hsome _ (Nat.lt_succ_self _)
  have hjudges := verdict_search g.leavesUnrecorded heq
  refine ⟨verdict, hjudges, fun fuel hfuel => ?_⟩
  obtain ⟨r, set', heq'⟩ := hsome fuel hfuel
  have hr : r = verdict :=
    (verdict_search g.leavesUnrecorded heq').unique hjudges fun _ => Iff.rfl
  rw [resolveExport_eq_search, heq', hr]
  rfl

/-- **Export resolution.** In every finite graph the resolution of a name, started with no pairs
visited, terminates. It returns a binding exactly when that is the only one in reach, that there
is none exactly when there is none in reach, and that it is ambiguous exactly when there are two.
The order of the star exports does not matter. -/
theorem resolveExport_spec [DecidableEq M] [Fintype M] (g : ExportGraph M Q) (m : M) (n : ExportName) :
    ∃ bound r, (∀ fuel, bound ≤ fuel → (g.resolveExport fuel m n []).map Prod.fst = some r) ∧
      (∀ b, r = .ok b ↔ {b | g.Binds m n b} = {b}) ∧
      (r = .error .notFound ↔ {b | g.Binds m n b} = ∅) ∧
      (r = .error .ambiguous ↔ {b | g.Binds m n b}.Nontrivial) ∧
      ∀ g', g.SameUpToStarOrder g' → ∃ bound', ∀ fuel, bound' ≤ fuel →
        (g'.resolveExport fuel m n []).map Prod.fst = some r := by
  obtain ⟨verdict, hjudges, hresolve⟩ := g.exists_verdict m n
  refine ⟨_, resolutionOf verdict, hresolve, ?_⟩
  have horder : ∀ g', g.SameUpToStarOrder g' → ∃ bound', ∀ fuel, bound' ≤ fuel →
      (g'.resolveExport fuel m n []).map Prod.fst = some (resolutionOf verdict) := by
    intro g' hsame
    obtain ⟨verdict', hjudges', hresolve'⟩ := g'.exists_verdict m n
    have hverdict : verdict' = verdict := hjudges'.unique hjudges fun b => by
      rw [← binds_iff_offers, ← binds_iff_offers]
      exact ⟨hsame.symm.binds, hsame.binds⟩
    exact ⟨_, hverdict ▸ hresolve'⟩
  have hset : {b | g.Binds m n b} = {b | Offers g.node (m, n) b} :=
    Set.ext fun b => binds_iff_offers
  rw [hset]
  cases verdict with
  | ambiguous =>
      have hnontrivial : {b | Offers g.node (m, n) b}.Nontrivial := by
        obtain ⟨b₁, b₂, hne, h₁, h₂⟩ := hjudges
        exact ⟨b₁, h₁, b₂, h₂, hne⟩
      refine ⟨fun b => ⟨nofun, fun h => ?_⟩, ⟨nofun, fun h => ?_⟩, ⟨fun _ => hnontrivial, fun _ => rfl⟩,
        horder⟩
      · exact absurd (h ▸ hnontrivial) Set.not_nontrivial_singleton
      · exact absurd (h ▸ hnontrivial) Set.not_nontrivial_empty
  | settled answer =>
      cases answer with
      | none =>
          have hempty : {b | Offers g.node (m, n) b} = ∅ := Set.eq_empty_iff_forall_notMem.mpr hjudges
          rw [hempty]
          refine ⟨fun b => ⟨nofun, fun h => ?_⟩, ⟨fun _ => rfl, fun _ => rfl⟩, ⟨nofun, fun h => ?_⟩,
            horder⟩
          · exact absurd h.symm (Set.singleton_ne_empty b)
          · exact absurd h Set.not_nontrivial_empty
      | some b =>
          have hsingle : {b' | Offers g.node (m, n) b'} = {b} := Set.ext hjudges
          rw [hsingle]
          refine ⟨fun b' => ⟨fun h => ?_, fun h => ?_⟩, ⟨nofun, fun h => ?_⟩, ⟨nofun, fun h => ?_⟩,
            horder⟩
          · cases h
            rfl
          · rw [Set.singleton_eq_singleton_iff.mp h]
            rfl
          · exact absurd h (Set.singleton_ne_empty b)
          · exact absurd h Set.not_nontrivial_singleton

end ExportGraph

end BoaLigero
