import BoaLigero.Gc.Marking
import Mathlib.Algebra.BigOperators.Group.List.Basic
import Mathlib.Data.List.Count

/-!
# Roots

A collection finds its roots by counting: the handles in the heap are counted one by one, and
what has more handles than that is held from outside. In a heap whose counts are right the
count ends at the number of handles in the heap, because `incNonRootCount` never has to stop
at the reference count.

## Main results

* `isRooted_traceNonRoots` — after the count, what is rooted is what is held from outside.
-/

namespace BoaLigero

variable {B E W : Type}

namespace BoaGc

section Heap

variable (gc : BoaGc B E W)

/-- The handles in a box or in an ephemeron. -/
def content : Handle B E → List (Handle B E)
  | .gc b => (gc.box b).value.visited
  | .ephemeron e => (gc.ephemeron e).visited

/-- What belongs to the heap, as a list. -/
def nodes : List (Handle B E) := gc.strongs.map .gc ++ gc.weaks.map .ephemeron

/-- The handles in the heap. -/
def contents : List (Handle B E) := gc.nodes.flatMap gc.content

/-- The handles that the boxes of the weak maps are known by. -/
def weakMapHandles : List (Handle B E) := gc.weakMaps.map fun w => .ephemeron (gc.weakMap w)

/-- The bytes of what belongs to the heap. -/
def size : ℕ :=
  (gc.strongs.map fun b => (gc.box b).size).sum + (gc.weaks.map fun e => (gc.ephemeron e).size).sum

variable [DecidableEq B] [DecidableEq E]

/-- There are handles that are not in the heap. -/
def External (x : Handle B E) : Prop := gc.contents.count x < (gc.header x).refCount.toNat

/-- **A heap between two collections**: handles lead to what belongs to the heap and are
counted, and no mark is set. -/
structure Consistent : Prop where
  strongs : gc.strongs.Nodup
  weaks : gc.weaks.Nodup
  owned : gc.Owned
  weakMaps : ∀ w ∈ gc.weakMaps, gc.weakMap w ∈ gc.weaks
  counted : ∀ x, gc.Owns x →
    gc.contents.count x + gc.weakMapHandles.count x ≤ (gc.header x).refCount.toNat
  max : ∀ x, gc.Owns x → (gc.header x).refCount ≤ nonRootsMax
  clean : ∀ x, gc.Owns x → (gc.header x).nonRootCell = 0
  unmarked : ∀ x, gc.isMarked x = false
  bytes : gc.bytesAllocated = gc.size

end Heap

variable {gc gc' : BoaGc B E W}

/-- The nodes are the boxes that the collector owns, ephemerons included. -/
theorem mem_nodes_iff (x : Handle B E) : x ∈ gc.nodes ↔ gc.Owns x := by
  cases x <;> simp [nodes, Owns]

/-- What a box holds does not depend on counts and marks. -/
theorem content_of_erase (h : gc'.erase = gc.erase) (x : Handle B E) :
    gc'.content x = gc.content x := by
  cases x with
  | gc b => rw [content, content, value_of_erase h]
  | ephemeron e => exact visited_of_erase h e

/-- Which boxes the collector owns does not depend on counts and marks. -/
theorem owns_of_erase (h : gc'.erase = gc.erase) (x : Handle B E) : gc'.Owns x ↔ gc.Owns x := by
  cases x with
  | gc b => rw [Owns, Owns, strongs_of_erase h]
  | ephemeron e => rw [Owns, Owns, weaks_of_erase h]

/-- What is in the heap leads to what belongs to it. -/
theorem Owned.content (h : gc.Owned) {x y : Handle B E} (hx : gc.Owns x) (hy : y ∈ gc.content x) :
    gc.Owns y := by
  cases x with
  | gc b => exact h.fields b hx y hy
  | ephemeron e =>
      rw [BoaGc.content, EphemeronBox.visited] at hy
      cases hdata : (gc.ephemeron e).data with
      | none => simp [hdata] at hy
      | some data =>
          rw [hdata] at hy
          exact (h.values e hx data.1 data.2 hdata).2 y hy

/-- What is held by an owned box is owned, as long as no handle dangles. -/
theorem Owned.contents (h : gc.Owned) {x : Handle B E} (hx : x ∈ gc.contents) : gc.Owns x := by
  obtain ⟨y, hy, hx⟩ := List.mem_flatMap.mp hx
  exact h.content ((mem_nodes_iff y).mp hy) hx

variable [DecidableEq B] [DecidableEq E]

/-! ### Counting -/

/-- Counting a handle that is held by a box changes nothing but a header. -/
@[simp] theorem erase_incNonRootCount (gc : BoaGc B E W) (x : Handle B E) :
    (gc.incNonRootCount x).erase = gc.erase := erase_mapHeader ..

/-- Counting many handles changes nothing but headers. -/
@[simp] theorem erase_foldl_incNonRootCount (gc : BoaGc B E W) (hs : List (Handle B E)) :
    (hs.foldl incNonRootCount gc).erase = gc.erase := by
  induction hs generalizing gc with
  | nil => rfl
  | cons x hs ih => rw [List.foldl_cons, ih, erase_incNonRootCount]

/-- Going through some nodes counts the handles in them. -/
theorem foldl_content {α : Type} (node : α → Handle B E) (h : gc'.erase = gc.erase) (xs : List α) :
    xs.foldl (fun g x => (g.content (node x)).foldl incNonRootCount g) gc' =
      ((xs.map node).flatMap gc.content).foldl incNonRootCount gc' := by
  induction xs generalizing gc' with
  | nil => rfl
  | cons x xs ih =>
      rw [List.foldl_cons, ih ((erase_foldl_incNonRootCount ..).trans h), List.map_cons,
        List.flatMap_cons, List.foldl_append, content_of_erase h]

/-- All handles in the heap are counted. -/
theorem traceNonRoots_eq (gc : BoaGc B E W) :
    gc.traceNonRoots = gc.contents.foldl incNonRootCount gc := by
  let boxes := gc.strongs.foldl (fun g b => (g.content (.gc b)).foldl incNonRootCount g) gc
  have hboxes : boxes = ((gc.strongs.map .gc).flatMap gc.content).foldl incNonRootCount gc :=
    foldl_content .gc rfl gc.strongs
  have hcontent : boxes.erase = gc.erase := by rw [hboxes, erase_foldl_incNonRootCount]
  have hweaks : gc.traceNonRoots =
      boxes.weaks.foldl (fun g e => (g.content (.ephemeron e)).foldl incNonRootCount g) boxes := rfl
  rw [hweaks, weaks_of_erase hcontent, foldl_content .ephemeron hcontent, hboxes, contents, nodes,
    List.flatMap_append, List.foldl_append]

/-- Tracing for non-roots counts in the headers and changes nothing else. -/
theorem erase_traceNonRoots (gc : BoaGc B E W) : gc.traceNonRoots.erase = gc.erase := by
  rw [traceNonRoots_eq, erase_foldl_incNonRootCount]

/-- **Counting handles**, of which there are no more than the reference counts say. -/
theorem foldl_incNonRootCount_spec (hs : List (Handle B E))
    (h : ∀ x ∈ hs, (gc.header x).nonRootCount.toNat + hs.count x ≤ (gc.header x).refCount.toNat ∧
      (gc.header x).refCount.toNat < 2 ^ 31) (x : Handle B E) :
    ((hs.foldl incNonRootCount gc).header x).refCount = (gc.header x).refCount ∧
      ((hs.foldl incNonRootCount gc).header x).nonRootCount.toNat =
        (gc.header x).nonRootCount.toNat + hs.count x ∧
      (hs.foldl incNonRootCount gc).isMarked x = gc.isMarked x := by
  induction hs generalizing gc with
  | nil => exact ⟨rfl, by simp, rfl⟩
  | cons y hs ih =>
      obtain ⟨hcount, hmax⟩ := h y (by simp)
      rw [List.count_cons_self] at hcount
      obtain ⟨hinc, hmark⟩ := GcHeader.incNonRootCount_spec hmax (by omega)
      have hheader : ∀ z, (gc.incNonRootCount y).header z =
          if z = y then (gc.header y).incNonRootCount else gc.header z := fun z =>
        header_mapHeader gc y z .incNonRootCount
      have hstep : ∀ z ∈ hs, ((gc.incNonRootCount y).header z).nonRootCount.toNat + hs.count z ≤
          ((gc.incNonRootCount y).header z).refCount.toNat ∧
          ((gc.incNonRootCount y).header z).refCount.toNat < 2 ^ 31 := by
        intro z hz
        rw [hheader]
        split
        · next heq =>
            rw [hinc, GcHeader.refCount_incNonRootCount, heq]
            omega
        · next hne =>
            have hz := h z (List.mem_cons_of_mem _ hz)
            rwa [List.count_cons_of_ne (Ne.symm hne)] at hz
      obtain ⟨href, hroots, hmarked⟩ := ih hstep
      rw [List.foldl_cons, href, hroots, hmarked, isMarked, hheader]
      split
      · next heq =>
          rw [hinc, hmark, GcHeader.refCount_incNonRootCount, heq, List.count_cons_self]
          exact ⟨rfl, by omega, rfl⟩
      · next hne => exact ⟨rfl, by rw [List.count_cons_of_ne (Ne.symm hne)], rfl⟩

/-- **The count** of the handles in the heap. -/
theorem Consistent.traceNonRoots (h : gc.Consistent) (x : Handle B E) :
    (gc.traceNonRoots.header x).refCount = (gc.header x).refCount ∧
      (gc.Owns x → (gc.traceNonRoots.header x).nonRootCount.toNat = gc.contents.count x) ∧
      gc.traceNonRoots.isMarked x = false := by
  have hzero : ∀ y, gc.Owns y → (gc.header y).nonRootCount.toNat = 0 := fun y hy => by
    rw [GcHeader.toNat_nonRootCount, h.clean y hy]
    rfl
  have hmax : ∀ y, gc.Owns y → (gc.header y).refCount.toNat < 2 ^ 31 := fun y hy =>
    Nat.lt_of_le_of_lt (UInt32.le_iff_toNat_le.mp (h.max y hy)) (by decide)
  have hfits : ∀ y ∈ gc.contents,
      (gc.header y).nonRootCount.toNat + gc.contents.count y ≤ (gc.header y).refCount.toNat ∧
        (gc.header y).refCount.toNat < 2 ^ 31 := by
    intro y hy
    have hy := h.owned.contents hy
    have hcounted := h.counted y hy
    rw [hzero y hy]
    exact ⟨by omega, hmax y hy⟩
  obtain ⟨href, hroots, hmarked⟩ := foldl_incNonRootCount_spec gc.contents hfits x
  rw [traceNonRoots_eq]
  refine ⟨href, fun hx => ?_, hmarked.trans (h.unmarked x)⟩
  rw [hroots, hzero x hx, Nat.zero_add]

/-- **After the count**, what is rooted is what is held from outside. -/
theorem isRooted_traceNonRoots (h : gc.Consistent) {x : Handle B E} (hx : gc.Owns x) :
    gc.traceNonRoots.isRooted x = true ↔ gc.External x := by
  obtain ⟨href, hroots, -⟩ := h.traceNonRoots x
  rw [isRooted, GcHeader.isRooted_eq, hroots hx, href, decide_eq_true_iff, External]

/-- The weak maps hold their boxes' ephemerons from outside. -/
theorem Consistent.external_weakMap (h : gc.Consistent) {w : W} (hw : w ∈ gc.weakMaps) :
    gc.External (.ephemeron (gc.weakMap w)) := by
  have hcounted := h.counted (.ephemeron (gc.weakMap w)) (h.weakMaps w hw)
  have hpos : 0 < gc.weakMapHandles.count (.ephemeron (gc.weakMap w)) :=
    List.count_pos_iff.mpr (List.mem_map.mpr ⟨w, hw, rfl⟩)
  rw [External]
  omega

end BoaGc

end BoaLigero
