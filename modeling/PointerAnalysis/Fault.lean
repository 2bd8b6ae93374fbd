import PointerAnalysis.AssignmentGraph.Kind
import PointerAnalysis.ConstraintGraph.Kind

/-!
Faults: the ways in which an operation can be asked for something that does not exist. Every one is
a broken promise of the caller; the operations of this library return them instead of a value.
-/

namespace PointerAnalysis

/-- Why an operation could not be carried out. -/
inductive Fault where
  /-- position `index` of a sequence of `size` entries -/
  | outOfBounds (size index : Nat)
  /-- a field of a node that is no object -/
  | fieldOfNonObject (node : NodeId)
  /-- a second copy of a node in one context -/
  | duplicateCopy (node : NodeId) (context : String)
  /-- a reserved node whose copy got another id -/
  | reservedMoved (copy node : NodeId)
  /-- a copy of a node in a context in which it has none -/
  | missingCopy (node : NodeId) (context : String)
  /-- an edge between nodes with different numbers of copies -/
  | contextMismatch (kind : EdgeKind) (edge : EdgeId) (src dst : NodeId) (srcCopies dstCopies : Nat)
  /-- an edge that the graph has already -/
  | duplicateEdge (kind : EdgeKind) (src dst : NodeId)
  /-- the base of a field node whose object has no copy in its context -/
  | fieldWithoutBase (node : NodeId)
  /-- a constraint at a node that was merged away or never existed -/
  | absentNode (node : NodeId)
  /-- a look at a constraint that was removed or never existed -/
  | absentEdge (edge : EdgeId)
  /-- the removal of a constraint that was removed before or never existed -/
  | removedEdge (edge : EdgeId)
  /-- a constraint that its end points do not list -/
  | detachedEdge (edge : EdgeId)
  /-- a constraint of another class listed among the direct ones -/
  | misfiledEdge (cls : EdgeClass) (edge : EdgeId)
  /-- the removal of a node that still has constraints -/
  | nodeInUse (node : NodeId)
  /-- a node as its own representative by merging -/
  | selfMerge (node : NodeId)
  /-- a number of a vertex that a search has not seen -/
  | unseenVertex (vertex : Nat)
deriving DecidableEq

namespace Fault

/-- The text of a comparison that did not hold. -/
private def comparison (relation what left right : String) : String :=
  s!"assertion `left {relation} right` failed: {what}\n  left: {left}\n right: {right}"

/-- The text that reports a fault. -/
def message : Fault → String
  | outOfBounds size index => s!"index out of bounds: the len is {size} but the index is {index}"
  | fieldOfNonObject node => s!"field node requested on non-object node {node}"
  | duplicateCopy node context => s!"duplicate context node for ({node}, {context})"
  | reservedMoved copy node =>
    comparison "==" s!"reserved node {node} must keep its id" s!"{copy}" s!"{node}"
  | missingCopy node context => s!"no context node for input node {node} in context {context}"
  | contextMismatch kind edge src dst srcCopies dstCopies =>
    comparison "=="
      s!"{kind.name} edge {edge}: endpoints {src} and {dst} have different context sets"
      s!"{srcCopies}" s!"{dstCopies}"
  | duplicateEdge kind src dst =>
    s!"duplicate {kind.name} edge {src} -> {dst} in context-sensitive PAG"
  | fieldWithoutBase node => s!"field node {node} has no base copy"
  | absentNode node => s!"constraint node {node} does not exist"
  | absentEdge edge => s!"constraint edge {edge} does not exist"
  | removedEdge edge => s!"removing absent constraint edge {edge}"
  | detachedEdge edge => s!"edge {edge} missing from adjacency of its endpoints"
  | misfiledEdge cls edge =>
    s!"internal error: entered unreachable code: {cls.name} edge {edge} in direct adjacency"
  | nodeInUse node => s!"removing constraint node {node} with live edges"
  | selfMerge node => comparison "!=" s!"node {node} merged into itself" s!"{node}" s!"{node}"
  | unseenVertex _ => "no entry found for key"

end Fault

/-- The entry of a sequence at a position, or the fault that there is none. -/
def entryAt {α : Type} (xs : Array α) (i : Nat) : Except Fault α :=
  match xs[i]? with
  | some x => .ok x
  | none => .error (.outOfBounds xs.size i)

end PointerAnalysis
