import PointerAnalysis.IdSet
import PointerAnalysis.Tarjan

/-!
Strongly connected components of the part of a graph that can be reached from given roots. A
component is found after those that it leads to; the components are listed in the opposite order.
-/

namespace PointerAnalysis

/-- The components of a graph, each before those that its edges lead to. -/
structure Components where
  /-- the components, as sets of vertices -/
  members : List IdSet
  /-- the number of roots that were given -/
  rootCount : Nat
  /-- the number of edges that were given -/
  edgeCount : Nat
  /-- the size of the largest component -/
  largest : Nat
  /-- the number of vertices that another one represents -/
  collapsed : Nat

namespace Components

/-- Successor sets of an edge list. -/
def adjacency (edges : List (Nat × Nat)) : Std.TreeMap Nat IdSet :=
  edges.foldl (fun adj e => adj.insert e.1 ((adj.getD e.1 ∅).insert e.2)) ∅

/-- The successors of a vertex, ascending. -/
def successors (adj : Std.TreeMap Nat IdSet) (v : Nat) : List Nat := (adj.getD v ∅).toList

/-- The components of the part of the graph that the roots reach. A search from a root takes one
step for each edge and one for each vertex that it sees. -/
def find (roots : List Nat) (edges : List (Nat × Nat)) : Except Fault Components := do
  let explore := Tarjan.explore (successors (adjacency edges)) (2 * edges.length + 1)
  let s ← roots.foldlM explore .start
  return {
    members := s.components.map IdSet.ofList
    rootCount := roots.length
    edgeCount := edges.length
    largest := s.components.foldl (fun n c => max n c.length) 0
    collapsed := s.components.foldl (fun n c => if 1 < c.length then n + (c.length - 1) else n) 0 }

/-- The smallest vertex of a component, which represents it. -/
def representative (c : IdSet) : Nat := c.toList.headD 0

/-- The components that have more than one vertex. -/
def cycles (cs : Components) : List IdSet := cs.members.filter fun c => 1 < c.size

/-- One representative per component, each before those of the components it leads to. -/
def order (cs : Components) : List Nat := cs.members.map representative

/-- The representative of each vertex on a cycle. -/
def repOf (cs : Components) : Std.TreeMap Nat Nat :=
  cs.cycles.foldl
    (fun reps c => c.toList.foldl (fun reps v => reps.insert v (representative c)) reps) ∅

/-- The vertex that stands for `v`: the representative of its cycle, or `v` itself. -/
def rep (cs : Components) (v : Nat) : Nat := cs.repOf.getD v v

end Components

end PointerAnalysis
