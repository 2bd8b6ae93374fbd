import PointerAnalysis.AssignmentGraph.Kind
import PointerAnalysis.Fault
import PointerAnalysis.Offset

/-!
Assignment graphs: a program as the analysis sees it. Nodes are pointers and memory objects, edges
are the assignments between them. Nodes, edges and memory objects are numbered in the order in which
they are added; the first four nodes are reserved.
-/

namespace PointerAnalysis

/-- A pointer or a memory object. -/
structure Node where
  id : NodeId
  kind : NodeKind
  value : Option ProgramValue
  memObj : Option MemObjId
  /-- where in its object a field node lies -/
  offset : Offset
  name : Option String
deriving DecidableEq

namespace Node

/-- The function whose contexts the node is copied for. A function's value as such belongs to no
function, but its return value and its variable arguments do. -/
def affinity (n : Node) : Option FuncId :=
  match n.value with
  | some (.function f) =>
    match n.kind with
    | .returned | .variadic => some f
    | _ => none
  | some v => v.localTo
  | none => none

/-- The function in whose body the node's value is local. -/
def localTo (n : Node) : Option FuncId := n.value.bind (·.localTo)

/-- Whether the node stands for a part of the program text. -/
def hasValue (n : Node) : Bool := n.value.isSome

/-- The name of the node, or one made from its id. -/
def label (n : Node) : String := n.name.getD s!"n{n.id}"

end Node

/-- A memory object and what is known about its type. -/
structure MemObject where
  id : MemObjId
  /-- the node that stands for the whole object -/
  baseNode : NodeId
  /-- the number of fields; zero if it is not known -/
  numFields : UInt32
  typeName : Option String
  isConstant : Bool
  hasPointers : Bool
  /-- whether the fields are not told apart -/
  fieldInsensitive : Bool
deriving DecidableEq

namespace MemObject

/-- Offsets into an object of unknown size wrap around here. -/
def fieldLimit : UInt32 := 512

/-- Offsets into the object are reduced modulo this number. -/
def modulus (m : MemObject) : UInt32 := if m.numFields = 0 then fieldLimit else m.numFields

end MemObject

/-- An assignment. -/
structure Edge where
  id : EdgeId
  kind : EdgeKind
  src : NodeId
  dst : NodeId
  offset : Offset
  callSite : Option CallSiteId
deriving DecidableEq

/-- A program as nodes, assignments and memory objects. -/
structure AssignmentGraph where
  nodes : Array Node
  edges : Array Edge
  memObjs : Array MemObject
deriving DecidableEq

namespace AssignmentGraph

/-! ## Construction -/

/-- Adds a node. -/
def pushNode (g : AssignmentGraph) (kind : NodeKind) (value : Option ProgramValue)
    (memObj : Option MemObjId) (offset : Offset) : NodeId × AssignmentGraph :=
  let id := g.nodes.size
  (id, { g with nodes := g.nodes.push { id, kind, value, memObj, offset, name := none } })

/-- Names a node. -/
def setName (g : AssignmentGraph) (n : NodeId) (name : String) : Except Fault AssignmentGraph := do
  let node ← entryAt g.nodes n
  return { g with nodes := g.nodes.setIfInBounds n { node with name := some name } }

/-- A reserved node. -/
def reserved (id : NodeId) (kind : NodeKind) (name : String) : Node :=
  { id, kind, value := none, memObj := none, offset := 0, name := some name }

/-- The graph that has only the reserved nodes: the object of unknown memory, the object of constant
data, the pointer to unknown memory and the null pointer. -/
def empty : AssignmentGraph where
  nodes :=
    #[reserved blackHole .dummyObject "blackhole", reserved constantData .dummyObject "constant",
      reserved 2 .dummyValue "blkptr", reserved 3 .dummyValue "nullptr"]
  edges := #[]
  memObjs := #[]

/-- Adds a pointer. -/
def addValue (g : AssignmentGraph) (v : ProgramValue) : NodeId × AssignmentGraph :=
  g.pushNode .value (some v) none 0

/-- Adds the return value of a function. -/
def addReturned (g : AssignmentGraph) (f : FuncId) : NodeId × AssignmentGraph :=
  g.pushNode .returned (some (.function f)) none 0

/-- Adds the variable arguments of a function. -/
def addVariadic (g : AssignmentGraph) (f : FuncId) : NodeId × AssignmentGraph :=
  g.pushNode .variadic (some (.function f)) none 0

/-- Adds a memory object and the node that stands for it as a whole. -/
def pushObject (g : AssignmentGraph) (kind : NodeKind) (value : Option ProgramValue)
    (numFields : UInt32) : NodeId × AssignmentGraph :=
  let mem := g.memObjs.size
  let (node, g) := g.pushNode kind value (some mem) 0
  let obj :=
    { id := mem, baseNode := node, numFields, typeName := none, isConstant := false,
      hasPointers := true, fieldInsensitive := false }
  (node, { g with memObjs := g.memObjs.push obj })

/-- Adds a memory object that the program text mentions. -/
def addObject (g : AssignmentGraph) (v : ProgramValue) (numFields : UInt32) :
    NodeId × AssignmentGraph :=
  g.pushObject .baseObject (some v) numFields

/-- Adds a memory object that the program text does not mention. -/
def addDummyObject (g : AssignmentGraph) (numFields : UInt32) : NodeId × AssignmentGraph :=
  g.pushObject .dummyObject none numFields

/-- Adds a node for a field of the object to which `base` belongs. -/
def addField (g : AssignmentGraph) (base : NodeId) (offset : Offset) :
    Except Fault (NodeId × AssignmentGraph) := do
  let node ← entryAt g.nodes base
  if node.kind.isObject then return g.pushNode .fieldObject node.value node.memObj offset
  else throw (.fieldOfNonObject base)

/-- Adds an edge with all its attributes. -/
def pushEdge (g : AssignmentGraph) (kind : EdgeKind) (src dst : NodeId) (offset : Offset)
    (callSite : Option CallSiteId) : EdgeId × AssignmentGraph :=
  let id := g.edges.size
  (id, { g with edges := g.edges.push { id, kind, src, dst, offset, callSite } })

/-- Adds an edge that has neither an offset nor a call site. -/
def addEdge (g : AssignmentGraph) (kind : EdgeKind) (src dst : NodeId) :
    EdgeId × AssignmentGraph :=
  g.pushEdge kind src dst 0 none

/-- Adds the projection of a pointer to the field at a fixed offset. -/
def addFieldEdge (g : AssignmentGraph) (src dst : NodeId) (offset : Offset) :
    EdgeId × AssignmentGraph :=
  g.pushEdge .field src dst offset none

/-- Adds an edge that belongs to a call site. -/
def addSiteEdge (g : AssignmentGraph) (kind : EdgeKind) (src dst : NodeId) (site : CallSiteId) :
    EdgeId × AssignmentGraph :=
  g.pushEdge kind src dst 0 (some site)

/-! ## Queries -/

/-- The edges of one kind, in the order in which they were added. -/
def edgesOfKind (g : AssignmentGraph) (kind : EdgeKind) : List Edge :=
  g.edges.toList.filter (·.kind = kind)

/-- The memory object to which a node belongs. -/
def memObjOf? (g : AssignmentGraph) (n : NodeId) : Option MemObject := do
  let node ← g.nodes[n]?
  let mem ← node.memObj
  g.memObjs[mem]?

/-- Changes what is known about a memory object. -/
def modifyObject (g : AssignmentGraph) (mem : MemObjId) (f : MemObject → MemObject) :
    Except Fault AssignmentGraph := do
  let obj ← entryAt g.memObjs mem
  return { g with memObjs := g.memObjs.setIfInBounds mem (f obj) }

end AssignmentGraph

end PointerAnalysis
