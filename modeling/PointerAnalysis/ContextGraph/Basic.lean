import Std.Data.TreeMap
import Std.Data.TreeSet
import PointerAnalysis.AssignmentGraph.Basic
import PointerAnalysis.Context.Basic

/-!
Context graphs: the nodes of an assignment graph copied once per context of their function, and the
edges between the copies. Nodes and edges are numbered by their position. Nodes for fields that the
program does not mention are added on demand.
-/

namespace PointerAnalysis

/-- A copy of a node for one context. -/
structure ContextNode (C : Type) where
  /-- the node it is a copy of; a field node made on demand is a copy of none -/
  input : Option NodeId
  kind : NodeKind
  ctx : C
  memObj : Option MemObjId
  offset : Offset

/-- A copy of an edge. -/
structure ContextEdge where
  kind : EdgeKind
  src : NodeId
  dst : NodeId
  offset : Offset
  callSite : Option CallSiteId

/-- The copy of an edge between two nodes. -/
def Edge.between (e : Edge) (src dst : NodeId) : ContextEdge :=
  { kind := e.kind, src, dst, offset := e.offset, callSite := e.callSite }

/-- What distinguishes edges of a context graph: all but the call site. -/
structure EdgeKey where
  src : NodeId
  dst : NodeId
  kind : EdgeKind
  offset : Offset
deriving DecidableEq

namespace EdgeKey

/-- Keys are compared by their fields in turn. -/
abbrev order : EdgeKey → EdgeKey → Ordering :=
  compareLex (compareOn (·.src)) <| compareLex (compareOn (·.dst)) <|
    compareLex (compareOn (·.kind)) (compareOn (·.offset))

instance : Ord EdgeKey := ⟨order⟩

instance : Std.TransOrd EdgeKey := inferInstanceAs (Std.TransCmp order)

instance : Std.LawfulEqOrd EdgeKey where
  eq_of_compare {a b} h := by
    simp only [compare, order, compareLex, Ordering.then_eq_eq] at h
    obtain ⟨hsrc, hdst, hkind, hoffset⟩ := h
    obtain ⟨_, _, _, _⟩ := a
    obtain ⟨_, _, _, _⟩ := b
    cases Std.LawfulEqOrd.eq_of_compare hsrc
    cases Std.LawfulEqOrd.eq_of_compare hdst
    cases Std.LawfulEqOrd.eq_of_compare hkind
    cases Std.LawfulEqOrd.eq_of_compare hoffset
    rfl

end EdgeKey

/-- What distinguishes fields: the object, the context of its copy, and the reduced offset. -/
structure FieldKey (C : Type) where
  memObj : MemObjId
  offset : Offset
  ctx : C

namespace FieldKey

variable {C : Type} [Context C]

/-- Keys are compared by their fields in turn. -/
abbrev order : FieldKey C → FieldKey C → Ordering :=
  compareLex (compareOn (·.memObj)) <| compareLex (compareOn (·.offset)) (compareOn (·.ctx))

instance : Ord (FieldKey C) := ⟨order⟩

instance : Std.TransOrd (FieldKey C) := inferInstanceAs (Std.TransCmp (@order C _))

instance : Std.LawfulEqOrd (FieldKey C) where
  eq_of_compare {a b} h := by
    simp only [compare, order, compareLex, Ordering.then_eq_eq] at h
    obtain ⟨hmem, hoffset, hctx⟩ := h
    obtain ⟨_, _, _⟩ := a
    obtain ⟨_, _, _⟩ := b
    cases Std.LawfulEqOrd.eq_of_compare hmem
    cases Std.LawfulEqOrd.eq_of_compare hoffset
    cases Std.LawfulEqOrd.eq_of_compare hctx
    rfl

end FieldKey

/-- An assignment graph copied per context. -/
structure ContextGraph (C : Type) [Context C] where
  nodes : Array (ContextNode C) := #[]
  edges : Array ContextEdge := #[]
  /-- the keys of the edges -/
  edgeKeys : Std.TreeSet EdgeKey := ∅
  /-- the ids of the edges of each kind, in the order in which they were added -/
  edgesByKind : Std.TreeMap EdgeKind (List EdgeId) := ∅
  /-- the copies of each input node, with their contexts -/
  copies : Std.TreeMap NodeId (List (C × NodeId)) := ∅
  /-- the node of each field that has one -/
  fieldNodes : Std.TreeMap (FieldKey C) NodeId := ∅
  /-- the field nodes that belong to each base node, in the order in which they were added -/
  fieldsOf : Std.TreeMap NodeId (List NodeId) := ∅
  memObjs : Array MemObject
  /-- the number of field nodes made on demand -/
  lazyFields : Nat := 0

namespace ContextGraph

variable {C : Type} [Context C]

/-! ## Copies -/

/-- The copies of an input node, ascending. -/
def copiesOf (g : ContextGraph C) (input : NodeId) : List NodeId :=
  (g.copies.getD input []).map (·.2)

/-- The contexts in which an input node has copies. -/
def contextsOf (g : ContextGraph C) (input : NodeId) : List C :=
  (g.copies.getD input []).map (·.1)

/-- The copy of an input node in a context, if there is one. -/
def copyIn? (g : ContextGraph C) (input : NodeId) (ctx : C) : Option NodeId :=
  (g.copies.getD input []).lookup ctx

/-- The copy of an input node in a context in which it must have one. -/
def copyIn (g : ContextGraph C) (input : NodeId) (ctx : C) : Except Fault NodeId :=
  match g.copyIn? input ctx with
  | some n => .ok n
  | none => .error (.missingCopy input (Context.render ctx))

/-- Whether the only copy of an input node is in the empty context. -/
def isContextInsensitive (g : ContextGraph C) (input : NodeId) : Bool :=
  g.contextsOf input = [Context.empty]

/-! ## Edges -/

/-- The key of an edge. -/
def keyOf (e : ContextEdge) : EdgeKey := ⟨e.src, e.dst, e.kind, e.offset⟩

/-- Whether the graph has an edge with the given key. -/
def hasEdge (g : ContextGraph C) (key : EdgeKey) : Bool := g.edgeKeys.contains key

/-- The ids of the edges of one kind, ascending. -/
def edgesOfKind (g : ContextGraph C) (kind : EdgeKind) : List EdgeId := g.edgesByKind.getD kind []

/-- Adds an edge. -/
def pushEdge (g : ContextGraph C) (e : ContextEdge) : ContextGraph C :=
  { g with
    edges := g.edges.push e
    edgeKeys := g.edgeKeys.insert (keyOf e)
    edgesByKind := g.edgesByKind.insert e.kind (g.edgesOfKind e.kind ++ [g.edges.size]) }

/-- Adds an edge that must be new, and returns its id. -/
def addEdge (g : ContextGraph C) (e : ContextEdge) : Except Fault (EdgeId × ContextGraph C) :=
  if g.hasEdge (keyOf e) then .error (.duplicateEdge e.kind e.src e.dst)
  else .ok (g.edges.size, g.pushEdge e)

/-- Adds a copy of an input edge between two nodes, unless it exists; returns the id of a new
edge. -/
def connect (g : ContextGraph C) (e : Edge) (src dst : NodeId) :
    Except Fault (Option EdgeId × ContextGraph C) := do
  let edge := e.between src dst
  if g.hasEdge (keyOf edge) then return (none, g)
  let (id, g) ← g.addEdge edge
  return (some id, g)

end ContextGraph

end PointerAnalysis
