/-!
# Liveness with Gates

What is live in a graph with roots, edges and gated edges: an edge makes its end live if its
start is; a gated edge does if, besides, its gate is. The live vertices are the least set
that is closed under these rules. An ephemeron is a start whose edges are gated by its key.

## Main results

* `Live.of_closed` — a closed set has the live vertices.
-/

namespace Liveness

universe u

/-- A graph with roots and with edges, some of which have a gate. -/
structure Graph (V : Type u) where
  root : V → Prop
  edge : V → V → Prop
  gated : V → V → V → Prop

variable {V : Type u}

/-- **The live vertices.** -/
inductive Live (g : Graph V) : V → Prop
  | root {v : V} (h : g.root v) : Live g v
  | edge {v w : V} (hv : Live g v) (h : g.edge v w) : Live g w
  | gated {v gate w : V} (hv : Live g v) (hgate : Live g gate) (h : g.gated v gate w) : Live g w

/-- A set of vertices that the rules do not lead out of. -/
structure Closed (g : Graph V) (s : V → Prop) : Prop where
  root : ∀ v, g.root v → s v
  edge : ∀ v w, s v → g.edge v w → s w
  gated : ∀ v gate w, s v → s gate → g.gated v gate w → s w

/-- A closed set has all live vertices. -/
theorem Live.of_closed {g : Graph V} {s : V → Prop} (hs : Closed g s) {v : V} (h : Live g v) :
    s v := by
  induction h with
  | root h => exact hs.root _ h
  | edge _ h ih => exact hs.edge _ _ ih h
  | gated _ _ h ih ihgate => exact hs.gated _ _ _ ih ihgate h

end Liveness
