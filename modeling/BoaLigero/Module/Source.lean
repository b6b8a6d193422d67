import Mathlib.Algebra.Ring.Nat
import BoaLigero.Util.DepthFirst

/-!
# Source Text Modules

The linking of source text modules (`module/source.rs`): the status of a module and its
transitions, the depth-first search `inner_link` with its stack and ancestor indices, and
`link` with its error path. Synthetic modules (`module/synthetic.rs`) take part as modules
without requests.

A graph says which modules a module requests and which module was loaded for a request.
Initialising the environment of a module resolves its exports and imports and compiles its
body; what it comes to for a source is a function of the graph, either an environment or an
error. Neither sources nor environments are looked into.

The functions act on the states of all modules and the stack. A place where the source
panics, a failed assertion included, ends in `panic`; so would a recursion that is not given
enough nested calls.
-/

namespace BoaLigero

/-- The status of a source text module (`ModuleStatus`). -/
inductive ModuleStatus (M S E C X : Type) where
  | unlinked (source : S)
  | linking (source : S) (ancestorIndex : ℕ)
  | preLinked (environment : E) (ancestorIndex : ℕ)
  | linked (environment : E) (ancestorIndex : ℕ)
  | evaluating (environment : E) (topLevelCapability : Option C) (cycleRoot : M)
      (ancestorIndex : ℕ) (asyncEvaluationOrder : Option ℕ)
  | evaluatingAsync (environment : E) (topLevelCapability : Option C) (cycleRoot : M)
      (asyncEvaluationOrder pendingAsyncDependencies : ℕ)
  | evaluated (environment : E) (topLevelCapability : Option C) (cycleRoot : M)
      (error : Option X)
  deriving DecidableEq

/-- The status of a synthetic module. -/
inductive SyntheticStatus where
  | unlinked
  | linked
  | evaluated
  deriving DecidableEq

/-- A module by its kind. -/
inductive ModuleKind (M S E C X : Type) where
  | sourceText (status : ModuleStatus M S E C X)
  | synthetic (status : SyntheticStatus)
  deriving DecidableEq

variable {M Q S E C X : Type}

namespace ModuleStatus

/-- The index of the ancestor (`ancestor_index`), in the states that have one. -/
def ancestorIndex : ModuleStatus M S E C X → Option ℕ
  | linking _ ancestorIndex | preLinked _ ancestorIndex | linked _ ancestorIndex
  | evaluating _ _ _ ancestorIndex _ => some ancestorIndex
  | unlinked _ | evaluatingAsync .. | evaluated .. => none

/-- The status with another index of the ancestor (`ancestor_index_mut`). -/
def withAncestorIndex (status : ModuleStatus M S E C X) (ancestorIndex : ℕ) :
    ModuleStatus M S E C X :=
  match status with
  | linking source _ => linking source ancestorIndex
  | preLinked environment _ => preLinked environment ancestorIndex
  | linked environment _ => linked environment ancestorIndex
  | evaluating environment topLevelCapability cycleRoot _ asyncEvaluationOrder =>
      evaluating environment topLevelCapability cycleRoot ancestorIndex asyncEvaluationOrder
  | status => status

/-- Linked, or in a later state. -/
def isLinkedOrLater : ModuleStatus M S E C X → Bool
  | linked .. | evaluating .. | evaluatingAsync .. | evaluated .. => true
  | _ => false

/-- Whether the module is being linked. -/
def isInLinking : ModuleStatus M S E C X → Bool
  | linking .. | preLinked .. => true
  | _ => false

end ModuleStatus

namespace ModuleKind

/-- Linked, or in a later state. -/
def isLinkedOrLater : ModuleKind M S E C X → Bool
  | sourceText status => status.isLinkedOrLater
  | synthetic status => status != .unlinked

/-- Whether the module is being linked. -/
def isInLinking : ModuleKind M S E C X → Bool
  | sourceText status => status.isInLinking
  | synthetic _ => false

end ModuleKind

/-- A graph of modules: what each requests, what was loaded for it, and what initialising
its environment comes to. -/
structure ModuleGraph (M Q S E X : Type) where
  requestedModules : M → List Q
  loadedModules : M → Q → Option M
  environmentOf : M → S → Except X E

/-- The modules with their states. -/
abbrev Modules (M S E C X : Type) := M → ModuleKind M S E C X

/-- The modules and the stack of the search, last element first. -/
structure LinkState (M S E C X : Type) where
  modules : Modules M S E C X
  stack : List M

/-- A source text module gets another status. -/
def LinkState.transition [DecidableEq M] (st : LinkState M S E C X) (m : M)
    (status : ModuleStatus M S E C X) : LinkState M S E C X :=
  { st with modules := Function.update st.modules m (.sourceText status) }

/-- How a fallible operation ends: with a value, with an error, or not at all. -/
inductive Completion (St X A : Type) where
  | normal (value : A) (state : St)
  | throw (error : X) (state : St)
  | panic

namespace Completion

variable {St A : Type}

/-- Whether the operation returned a value (`is_ok`). -/
def isOk : Completion St X A → Bool
  | normal .. => true
  | _ => false

end Completion

namespace ModuleGraph

variable [DecidableEq M] (g : ModuleGraph M Q S E X)

/-- The modules that a module requests. -/
def imports (modules : Modules M S E C X) (m : M) : List M :=
  match modules m with
  | .sourceText _ => (g.requestedModules m).filterMap (g.loadedModules m)
  | .synthetic _ => []

/-- The transition of `InitializeEnvironment` (`initialize_environment`). -/
def initializeEnvironment (m : M) (st : LinkState M S E C X) : Completion (LinkState M S E C X) X Unit :=
  match st.modules m with
  | .sourceText (.linking source ancestorIndex) =>
      match g.environmentOf m source with
      | .ok environment =>
          .normal () (st.transition m (.preLinked environment ancestorIndex))
      | .error e => .throw e st
  | _ => .panic

/-- The end of a module's search for a required module, which was linked: take over its
ancestor index, if it is being linked (step 9.c of `inner_link`). -/
def joinRequired (m required : M) (st : LinkState M S E C X) : Option (LinkState M S E C X) :=
  match st.modules required with
  | .synthetic _ => some st
  | .sourceText (.linking _ requiredIndex) =>
      if required ∈ st.stack then
        match st.modules m with
        | .sourceText status =>
            status.ancestorIndex.map fun ancestorIndex =>
              st.transition m (status.withAncestorIndex (min ancestorIndex requiredIndex))
        | .synthetic _ => none
      else none
  | .sourceText (.preLinked ..) | .sourceText (.linked ..)
  | .sourceText (.evaluatingAsync ..) | .sourceText (.evaluated ..) => some st
  | .sourceText (.unlinked _) | .sourceText (.evaluating ..) => none

/-- The loop over the requests of a module (step 9 of `inner_link`). -/
def linkRequired (innerLink : M → ℕ → LinkState M S E C X →
    Completion (LinkState M S E C X) X ℕ) (m : M) :
    List Q → ℕ → LinkState M S E C X → Completion (LinkState M S E C X) X ℕ
  | [], index, st => .normal index st
  | required :: requests, index, st =>
      match g.loadedModules m required with
      | none => .panic
      | some requiredModule =>
          match innerLink requiredModule index st with
          | .normal index st =>
              match joinRequired m requiredModule st with
              | some st => linkRequired innerLink m requests index st
              | none => .panic
          | r => r

/-- Take modules from the stack, down to `m`, and make them linked (step 13). -/
def popLinked (m : M) : List M → Modules M S E C X → Option (LinkState M S E C X)
  | [], _ => none
  | last :: stack, modules =>
      match modules last with
      | .sourceText (.preLinked environment ancestorIndex) =>
          let modules :=
            Function.update modules last (.sourceText (.linked environment ancestorIndex))
          if last = m then some { modules, stack } else popLinked m stack modules
      | _ => none

/-- The end of `inner_link`, from step 10 on. -/
def finishLink (m : M) (moduleIndex index : ℕ) (st : LinkState M S E C X) :
    Completion (LinkState M S E C X) X ℕ :=
  match g.initializeEnvironment m st with
  | .normal _ st =>
      if st.stack.count m ≠ 1 then .panic
      else
        match st.modules m with
        | .sourceText status =>
            match status.ancestorIndex with
            | none => .panic
            | some ancestorIndex =>
                if moduleIndex < ancestorIndex then .panic
                else if ancestorIndex = moduleIndex then
                  match popLinked m st.stack st.modules with
                  | some st => .normal index st
                  | none => .panic
                else .normal index st
        | .synthetic _ => .panic
  | .throw e st => .throw e st
  | .panic => .panic

/-- `inner_link`. -/
def innerLink : ℕ → M → ℕ → LinkState M S E C X → Completion (LinkState M S E C X) X ℕ
  | 0, _, _, _ => .panic
  | fuel + 1, m, index, st =>
      match st.modules m with
      | .synthetic status =>
          let status := if status = .unlinked then .linked else status
          .normal index { st with modules := Function.update st.modules m (.synthetic status) }
      | .sourceText (.linking ..) | .sourceText (.preLinked ..) | .sourceText (.linked ..)
      | .sourceText (.evaluatingAsync ..) | .sourceText (.evaluated ..) => .normal index st
      | .sourceText (.evaluating ..) => .panic
      | .sourceText (.unlinked source) =>
          let st : LinkState M S E C X :=
            { modules := Function.update st.modules m (.sourceText (.linking source index))
              stack := m :: st.stack }
          match g.linkRequired (innerLink fuel) m (g.requestedModules m) (index + 1) st with
          | .normal index' st => g.finishLink m index index' st
          | r => r

/-- Make the modules of the stack unlinked again (step 4.a of `link`). -/
def unlinkAll : List M → Modules M S E C X → Option (Modules M S E C X)
  | [], modules => some modules
  | m :: stack, modules =>
      match modules m with
      | .synthetic _ => unlinkAll stack modules
      | .sourceText (.linking source _) =>
          unlinkAll stack (Function.update modules m (.sourceText (.unlinked source)))
      | .sourceText _ => none

/-- Whether `link` may be asked of a module: it is unlinked, linked, evaluating-async or
evaluated. -/
def mayLink : ModuleKind M S E C X → Bool
  | .sourceText (.unlinked _) | .sourceText (.linked ..) | .sourceText (.evaluatingAsync ..)
  | .sourceText (.evaluated ..) | .synthetic _ => true
  | _ => false

/-- `Module::link`. The state at the end has the stack of the search, which the error path
has gone through. -/
def link [Fintype M] (modules : Modules M S E C X) (root : M) :
    Completion (LinkState M S E C X) X Unit :=
  if mayLink (modules root) then
    match g.innerLink (Fintype.card M + 1) root 0 { modules, stack := [] } with
    | .throw e st =>
        match unlinkAll st.stack st.modules with
        | some modules =>
            match modules root with
            | .sourceText (.unlinked _) => .throw e { st with modules }
            | _ => .panic
        | none => .panic
    | .normal _ st =>
        if (st.modules root).isLinkedOrLater && mayLink (st.modules root) && st.stack = [] then
          .normal () st
        else .panic
    | .panic => .panic
  else .panic

end ModuleGraph

end BoaLigero
