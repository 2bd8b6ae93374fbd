import PointerAnalysis.AssignmentGraph.Basic

/-!
Well-formedness of assignment graphs. The check lists every defect of a graph, those of the nodes
first, then those of the memory objects, then those of the edges; a graph is rejected for the first.
-/

namespace PointerAnalysis

/-- What can be wrong with an assignment graph. -/
inductive Defect where
  | reservedMissing
  /-- a node whose id is not its position -/
  | nodeMisnumbered (index : Nat) (id : NodeId)
  | reservedWithValue (node : NodeId)
  /-- a node that needs a program value and has none -/
  | valueMissing (node : NodeId) (kind : NodeKind)
  /-- an object node without a memory object -/
  | objectMissing (node : NodeId)
  /-- a memory object whose base node is absent, belongs to another object or is a field -/
  | baseInvalid (mem : MemObjId) (base : NodeId)
  /-- an edge whose id is not its position -/
  | edgeMisnumbered (index : Nat) (id : EdgeId)
  | dangling (kind : EdgeKind) (edge : EdgeId) (endpoint : NodeId)
  /-- an address taken of something that is no object -/
  | addressOfNonObject (edge : EdgeId) (node : NodeId)
deriving DecidableEq

namespace Defect

/-- The text that reports a defect. -/
def message : Defect → String
  | reservedMissing => "reserved dummy nodes 0..=3 missing"
  | nodeMisnumbered index id => s!"node at index {index} carries id {id}"
  | reservedWithValue node => s!"reserved node {node} must not carry a program value"
  | valueMissing node kind =>
    s!"node {node} ({kind.name}) has no program value but is not a dummy node"
  | objectMissing node => s!"object node {node} has no valid memory object"
  | baseInvalid mem base => s!"memory object {mem} has invalid base node {base}"
  | edgeMisnumbered index id => s!"edge at index {index} carries id {id}"
  | dangling kind edge endpoint => s!"{kind.name} edge {edge} has dangling endpoint {endpoint}"
  | addressOfNonObject edge node =>
    s!"addr edge {edge} takes the address of non-object node {node}"

/-- The defect, if a condition fails. -/
def require (p : Prop) [Decidable p] (d : Defect) : List Defect := if p then [] else [d]

theorem require_eq_nil_iff {p : Prop} [Decidable p] {d : Defect} : require p d = [] ↔ p := by
  simp [require]

end Defect

namespace AssignmentGraph

open Defect

/-- The defects of the node at a position. -/
def nodeDefects (g : AssignmentGraph) (index : Nat) (n : Node) : List Defect :=
  require (n.id = index) (nodeMisnumbered index n.id)
    ++ require (n.id < reservedCount → n.value = none) (reservedWithValue n.id)
    ++ require (n.value = none → n.kind.isDummy) (valueMissing n.id n.kind)
    ++ require (n.kind.isObject → reservedCount ≤ n.id → n.memObj.any (· < g.memObjs.size))
        (objectMissing n.id)

/-- The defects of a memory object. -/
def objectDefects (g : AssignmentGraph) (m : MemObject) : List Defect :=
  require (g.nodes[m.baseNode]?.any fun base => base.memObj = some m.id ∧ base.kind ≠ .fieldObject)
    (baseInvalid m.id m.baseNode)

/-- The defects of the edge at a position. -/
def edgeDefects (g : AssignmentGraph) (index : Nat) (e : Edge) : List Defect :=
  require (e.id = index) (edgeMisnumbered index e.id)
    ++ require (e.src < g.nodes.size) (dangling e.kind e.id e.src)
    ++ require (e.dst < g.nodes.size) (dangling e.kind e.id e.dst)
    ++ require (e.kind = .addr → g.nodes[e.src]?.any (·.kind.isObject))
        (addressOfNonObject e.id e.src)

/-- All defects of a graph, in the order in which they are reported. -/
def defects (g : AssignmentGraph) : List Defect :=
  require (reservedCount ≤ g.nodes.size) reservedMissing
    ++ (g.nodes.toList.zipIdx.flatMap fun (n, i) => g.nodeDefects i n)
    ++ g.memObjs.toList.flatMap g.objectDefects
    ++ (g.edges.toList.zipIdx.flatMap fun (e, i) => g.edgeDefects i e)

/-- Rejects a graph for its first defect. -/
def check (g : AssignmentGraph) : Except Defect Unit :=
  match g.defects with
  | [] => .ok ()
  | d :: _ => .error d

end AssignmentGraph

end PointerAnalysis
