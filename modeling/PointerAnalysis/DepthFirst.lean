import Std.Data.TreeSet

/-!
Depth-first search over a graph given by its successor function. A search keeps the vertices it has
seen and the order in which it finished with them.
-/

namespace PointerAnalysis

/-- How far a search has come: the vertices seen, and those finished, the latest one first. -/
structure Search where
  seen : Std.TreeSet Nat
  finished : List Nat

namespace Search

/-- A search that has seen nothing. -/
def start : Search := ⟨∅, []⟩

/-- Visits `v` and, before finishing with it, everything unseen that can be reached from it.
`depth` bounds the length of the paths followed; the number of vertices is always enough, since a
path of unseen vertices repeats none. -/
def visit (succ : Nat → List Nat) : (depth : Nat) → Search → Nat → Search
  | 0, s, _ => s
  | depth + 1, s, v =>
    if v ∈ s.seen then s
    else
      let s := (succ v).foldl (visit succ depth) { s with seen := s.seen.insert v }
      { s with finished := v :: s.finished }

end Search

end PointerAnalysis
