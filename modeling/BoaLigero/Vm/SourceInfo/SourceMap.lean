import Mathlib.Algebra.Ring.Nat
import Mathlib.Data.List.Destutter
import BoaLigero.Util.NestedRanges

/-!
# Source Maps

Which source position the code at an address comes from (`vm/source_info`). The bytecode
compiler pushes and pops scopes with a position while it emits code; `SourceMapBuilder`
flattens the nested scopes to a list of entries as it goes, and `SourceMap::find` searches
that list.

Addresses are `u32`; every address that occurs is at most `u32Max`. An operation that panics
gives `none`.

## Main results

* `findEntry_isSome` — the search terminates, for any entries.
* `findEntry_eq_lookup` — in sorted entries it finds the last one that does not begin behind
  the address.
-/

namespace BoaLigero

/-- `u32::MAX`. -/
def u32Max : ℕ := 2 ^ 32 - 1

/-- `boa_ast::Position`. -/
structure Position where
  lineNumber : ℕ
  columnNumber : ℕ
  deriving DecidableEq, Repr

/-! ### The builder -/

/-- `EntryRange`. -/
structure EntryRange where
  start : ℕ
  finish : ℕ
  position : Option Position
  deriving DecidableEq, Repr

/-- `EntryRange::is_empty`. -/
def EntryRange.isEmpty (entry : EntryRange) : Bool := entry.finish ≤ entry.start

/-- `EntryRange::default`. -/
def EntryRange.default : EntryRange where
  start := 0
  finish := 0
  position := none

/-- `Entry`. -/
structure Entry where
  pc : ℕ
  position : Option Position
  deriving DecidableEq, Repr

/-- `SourceMapBuilder`; the top of the stack comes first. -/
structure SourceMapBuilder where
  entries : List EntryRange
  stack : List ℕ
  deriving DecidableEq, Repr

namespace SourceMapBuilder

/-- `SourceMapBuilder::default`. -/
def empty : SourceMapBuilder where
  entries := []
  stack := []

/-- `SourceMapBuilder::push_source_position`. -/
def pushSourcePosition (b : SourceMapBuilder) (startPc : ℕ) (position : Option Position) :
    SourceMapBuilder where
  entries := b.entries ++ [{ start := startPc, finish := u32Max, position }]
  stack := b.entries.length :: b.stack

/-- `SourceMapBuilder::pop_source_position`. -/
def popSourcePosition (b : SourceMapBuilder) (currentStartPc : ℕ) : Option SourceMapBuilder :=
  match b.stack with
  | [] => none
  | index :: stack =>
      b.entries[index]?.bind fun entry =>
        let child := { entry with finish := currentStartPc }
        let entries := b.entries.set index child
        if child.isEmpty then some { entries, stack }
        else
          match stack with
          | [] => some { entries, stack }
          | parent :: below =>
              entries[parent]?.bind fun outer =>
                match compare outer.start child.start with
                -- The child takes the place of its parent, which goes on behind it.
                | .eq => some {
                    entries := (entries.set parent child).set index
                      { outer with start := child.finish }
                    stack := index :: below }
                | .lt =>
                    if outer.finish ≠ u32Max then none
                    else some {
                      entries := entries.set parent { outer with finish := child.start } ++
                        [{ start := child.finish, finish := u32Max, position := outer.position }]
                      stack := entries.length :: below }
                | .gt => none

/-- `SourceMapBuilder::build`. -/
def build (b : SourceMapBuilder) (finalPc : ℕ) : Option (List Entry) :=
  if b.stack ≠ [] then none
  else
    let endEntry : EntryRange := match b.entries.getLast? with
      | some entry => { start := entry.finish, finish := finalPc, position := none }
      | none => .default
    let entries := (b.entries ++ [endEntry]).filter fun entry => !entry.isEmpty
    some ((entries.destutter fun x y => x.position ≠ y.position).map fun entry =>
      { pc := entry.start, position := entry.position })

end SourceMapBuilder

/-- The calls that the bytecode compiler makes. -/
inductive SourceCall where
  | push (pc : ℕ) (position : Option Position)
  | pop (pc : ℕ)
  deriving DecidableEq, Repr

namespace SourceCall

/-- The address of a call. -/
def pc : SourceCall → ℕ
  | push pc _ => pc
  | pop pc => pc

/-- Make one call. -/
def run (b : SourceMapBuilder) : SourceCall → Option SourceMapBuilder
  | push pc position => some (b.pushSourcePosition pc position)
  | pop pc => b.popSourcePosition pc

/-- Make several calls. -/
def runAll (b : SourceMapBuilder) (calls : List SourceCall) : Option SourceMapBuilder :=
  calls.foldlM run b

/-- Every push has its pop. -/
inductive WellNested : List SourceCall → Prop
  | nil : WellNested []
  | scope {inner rest : List SourceCall} (start : ℕ) (position : Option Position) (finish : ℕ)
      (hinner : WellNested inner) (hrest : WellNested rest) :
      WellNested (push start position :: (inner ++ pop finish :: rest))

end SourceCall

/-- The scopes of a program. -/
abbrev SourceScopes := NestedRanges (Option Position)

/-- The calls for scopes. -/
def SourceScopes.calls : SourceScopes → List SourceCall
  | .nil => []
  | .cons start position finish children rest =>
      .push start position :: (SourceScopes.calls children ++
        .pop finish :: SourceScopes.calls rest)

/-- Well-nested calls are those for scopes. -/
theorem SourceCall.wellNested_iff {calls : List SourceCall} :
    WellNested calls ↔ ∃ f : SourceScopes, SourceScopes.calls f = calls := by
  constructor
  · intro h
    induction h with
    | nil => exact ⟨.nil, rfl⟩
    | scope start position finish _ _ ihinner ihrest =>
        obtain ⟨children, rfl⟩ := ihinner
        obtain ⟨rest, rfl⟩ := ihrest
        exact ⟨.cons start position finish children rest, rfl⟩
  · rintro ⟨f, rfl⟩
    induction f with
    | nil => exact .nil
    | cons start position finish children rest ihc ihr =>
        exact .scope start position finish ihc ihr

/-! ### The search -/

/-- The loop of `find_entry`, with fuel; `none` means that it has run out. -/
def findLoop (entries : List Entry) (pc : ℕ) : ℕ → ℕ → ℕ → Option (Option Position)
  | 0, _, _ => none
  | fuel + 1, low, high =>
      if low ≤ high then
        let mid := (low + high) / 2
        entries[mid]?.bind fun entry =>
          let finish := (entries[mid + 1]?).elim u32Max Entry.pc
          if pc < entry.pc then findLoop entries pc fuel low mid
          else if finish ≤ pc then findLoop entries pc fuel (mid + 1) high
          else some entry.position
      else some (entries.getLast?.bind Entry.position)

/-- `find_entry`. Each turn of its loop narrows the search, so that as much fuel as there are
entries is enough. -/
def findEntry (entries : List Entry) (pc : ℕ) : Option (Option Position) :=
  match entries.head? with
  | none => some none
  | some first =>
      if pc < first.pc then some none
      else findLoop entries pc (entries.length + 1) 0 (entries.length - 1)

section Search

variable {entries : List Entry} {pc fuel low high : ℕ}

/-- A turn of the loop. -/
theorem findLoop_succ (hle : low ≤ high) {entry : Entry}
    (hentry : entries[(low + high) / 2]? = some entry) :
    findLoop entries pc (fuel + 1) low high =
      if pc < entry.pc then findLoop entries pc fuel low ((low + high) / 2)
      else if (entries[(low + high) / 2 + 1]?).elim u32Max Entry.pc ≤ pc then
        findLoop entries pc fuel ((low + high) / 2 + 1) high
      else some entry.position := by
  simp only [findLoop, if_pos hle, hentry, Option.bind_some]

/-- **The search terminates**: the entry at the lower bound never begins behind the address. -/
theorem findLoop_isSome (hhigh : high < entries.length)
    (hlow : ∀ entry ∈ entries[low]?, entry.pc ≤ pc) (hfuel : high + 1 < fuel + low)
    (hbound : low ≤ high + 1) : (findLoop entries pc fuel low high).isSome := by
  induction fuel generalizing low high with
  | zero => omega
  | succ fuel ih =>
      by_cases hle : low ≤ high
      · have hmid : (low + high) / 2 < entries.length := by omega
        rw [findLoop_succ hle (List.getElem?_eq_getElem hmid)]
        by_cases hbefore : pc < entries[(low + high) / 2].pc
        · have hne : low ≠ (low + high) / 2 := by
            intro heq
            have := hlow entries[(low + high) / 2]
              ((congrArg (entries[·]?) heq).trans (List.getElem?_eq_getElem hmid))
            omega
          rw [if_pos hbefore]
          exact ih hmid hlow (by omega) (by omega)
        · rw [if_neg hbefore]
          by_cases hbehind : (entries[(low + high) / 2 + 1]?).elim u32Max Entry.pc ≤ pc
          · rw [if_pos hbehind]
            refine ih hhigh (fun entry hentry => ?_) (by omega) (by omega)
            rwa [Option.mem_def.mp hentry] at hbehind
          · rw [if_neg hbehind]
            rfl
      · rw [findLoop, if_neg hle]
        rfl

theorem findEntry_isSome (entries : List Entry) (pc : ℕ) : (findEntry entries pc).isSome := by
  cases entries with
  | nil => rfl
  | cons first entries =>
      rw [findEntry, List.head?_cons]
      by_cases hbefore : pc < first.pc
      · simp [hbefore]
      · simp only [if_neg hbefore]
        refine findLoop_isSome (by simp) (fun entry hentry => ?_) (by simp) (by omega)
        obtain rfl := Option.some.inj hentry
        omega

/-- The segments that entries stand for. -/
def Entry.segment (entry : Entry) : ℕ × Option Position := (entry.pc, entry.position)

/-- The entry around an address. -/
theorem lookup_of_mem_entry {i : ℕ} {entry : Entry}
    (hsorted : entries.Pairwise fun x y => x.pc < y.pc) (hentry : entries[i]? = some entry)
    (hle : entry.pc ≤ pc) (hnext : ∀ next ∈ entries[i + 1]?, pc < next.pc) :
    lookup (entries.map Entry.segment) pc = some entry.position := by
  obtain ⟨hi, rfl⟩ := List.getElem?_eq_some_iff.mp hentry
  have hsplit : entries = entries.take i ++ entries[i] :: entries.drop (i + 1) := by
    rw [← List.drop_eq_getElem_cons hi, List.take_append_drop]
  have hafter : lookup ((entries.drop (i + 1)).map Entry.segment) pc = none := by
    apply lookup_eq_none
    intro x hx
    obtain ⟨y, hy, rfl⟩ := List.mem_map.mp hx
    obtain ⟨j, hj, rfl⟩ := List.getElem_of_mem hy
    rw [List.length_drop] at hj
    have hnext' := hnext entries[i + 1] (List.getElem?_eq_getElem (by omega))
    rw [List.getElem_drop, Entry.segment]
    cases j with
    | zero => exact hnext'
    | succ j =>
        have := List.pairwise_iff_getElem.mp hsorted (i + 1) (i + 1 + (j + 1)) (by omega) (by omega)
          (by omega)
        simp only
        omega
  have hlookup : lookup ((entries.take i ++ entries[i] :: entries.drop (i + 1)).map
      Entry.segment) pc = some entries[i].position := by
    rw [List.map_append, List.map_cons, lookup_append, lookup_cons, hafter, Option.none_or,
      Entry.segment, if_pos hle, Option.some_or]
  rwa [← hsplit] at hlookup

/-- **The search finds the last entry** that does not begin behind the address. -/
theorem findLoop_eq_lookup (hsorted : entries.Pairwise fun x y => x.pc < y.pc)
    (hpc : pc < u32Max) (hlow : ∃ entry ∈ entries[low]?, entry.pc ≤ pc)
    (hhigh : ∀ i entry, high < i → entries[i]? = some entry → pc < entry.pc)
    (hbound : low ≤ high) (hlength : high < entries.length) {r : Option Position}
    (heq : findLoop entries pc fuel low high = some r) :
    lookup (entries.map Entry.segment) pc = some r := by
  induction fuel generalizing low high with
  | zero => cases heq
  | succ fuel ih =>
      have hmid : (low + high) / 2 < entries.length := by omega
      obtain ⟨first, hfirst, hfirstPc⟩ := hlow
      obtain ⟨hlt, rfl⟩ := List.getElem?_eq_some_iff.mp hfirst
      rw [findLoop_succ hbound (List.getElem?_eq_getElem hmid)] at heq
      by_cases hbefore : pc < entries[(low + high) / 2].pc
      · rw [if_pos hbefore] at heq
        refine ih ⟨_, hfirst, hfirstPc⟩ (fun i entry hi hentry => ?_) (by omega) hmid heq
        obtain ⟨hi', rfl⟩ := List.getElem?_eq_some_iff.mp hentry
        have := List.pairwise_iff_getElem.mp hsorted _ i hmid hi' hi
        omega
      · rw [if_neg hbefore] at heq
        cases hnext : entries[(low + high) / 2 + 1]? with
        | none =>
            rw [hnext, Option.elim_none, if_neg (by omega)] at heq
            rw [lookup_of_mem_entry hsorted (List.getElem?_eq_getElem hmid) (by omega)
              (fun n hn => nomatch hnext.symm.trans hn)]
            exact heq
        | some next =>
            rw [hnext, Option.elim_some] at heq
            by_cases hbehind : next.pc ≤ pc
            · rw [if_pos hbehind] at heq
              have hin : (low + high) / 2 + 1 ≤ high := by
                by_contra hout
                have := hhigh _ next (by omega) hnext
                omega
              exact ih ⟨next, hnext, hbehind⟩ hhigh hin hlength heq
            · rw [if_neg hbehind] at heq
              rw [lookup_of_mem_entry hsorted (List.getElem?_eq_getElem hmid) (by omega)
                (fun n hn => by
                  obtain rfl := Option.some.inj (hnext.symm.trans hn)
                  omega)]
              exact heq

theorem findEntry_eq_lookup (hsorted : entries.Pairwise fun x y => x.pc < y.pc)
    (hpc : pc < u32Max) :
    findEntry entries pc = some (lookup (entries.map Entry.segment) pc).join := by
  obtain ⟨r, hr⟩ := Option.isSome_iff_exists.mp (findEntry_isSome entries pc)
  rw [hr]
  cases entries with
  | nil =>
      obtain rfl := Option.some.inj hr
      rfl
  | cons first entries =>
      rw [findEntry, List.head?_cons] at hr
      by_cases hbefore : pc < first.pc
      · simp only [if_pos hbefore] at hr
        obtain rfl := Option.some.inj hr
        rw [lookup_eq_none]
        · rfl
        · intro x hx
          obtain ⟨y, hy, rfl⟩ := List.mem_map.mp hx
          rcases List.mem_cons.mp hy with rfl | hy
          · exact hbefore
          · exact Nat.lt_trans hbefore ((List.pairwise_cons.mp hsorted).1 y hy)
      · simp only [if_neg hbefore] at hr
        rw [findLoop_eq_lookup hsorted hpc ⟨first, rfl, by omega⟩ (fun i entry hi hentry => ?_)
          (Nat.zero_le _) (by simp) hr]
        · rfl
        · have := (List.getElem?_eq_some_iff.mp hentry).1
          simp only [List.length_cons] at *
          omega

end Search

end BoaLigero
