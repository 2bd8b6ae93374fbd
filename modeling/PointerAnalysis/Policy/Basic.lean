import PointerAnalysis.AssignmentGraph.Basic
import PointerAnalysis.Context.Basic

/-!
Context policies: which contexts a function's variables are copied for, and which copies a call or a
return joins. Whatever the policy, edges that start or end a thread join nothing.
-/

namespace PointerAnalysis

/-- A way of telling calling contexts apart. The contexts in which the end points of a call or
return edge have copies are passed to the policy, which answers with the pairs of a source context
and a target context that the edge joins. -/
structure ContextPolicy (C : Type) where
  name : String
  /-- the contexts of a function; none if its variables are not copied -/
  contexts : FuncId → List C
  callPairs : AssignmentGraph → Edge → (srcs dsts : List C) → Except Fault (List (C × C))
  returnPairs : AssignmentGraph → Edge → (srcs dsts : List C) → Except Fault (List (C × C))

/-- All pairs of an element of `xs` and one of `ys`, those of the first element of `xs` first. -/
def allPairs {α : Type} (xs ys : List α) : List (α × α) :=
  xs.flatMap fun x => ys.map fun y => (x, y)

/-- All pairs of equal elements. -/
def samePairs {α : Type} (xs : List α) : List (α × α) := xs.map fun x => (x, x)

end PointerAnalysis
