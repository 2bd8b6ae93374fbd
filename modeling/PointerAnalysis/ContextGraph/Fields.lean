import PointerAnalysis.ContextGraph.Basic

/-!
Objects and fields of a context graph. A field of an object copy is found by its offset, reduced
modulo the size of the object, and gets a node when it is first asked for. An object whose fields
are not told apart has its base node for every field.
-/

namespace PointerAnalysis

namespace ContextGraph

variable {C : Type} [Context C]

/-! ## Objects -/

/-- Whether a node is an object or a part of one; an absent node is none. -/
def isObject (g : ContextGraph C) (n : NodeId) : Bool := g.nodes[n]?.any (·.kind.isObject)

/-- The memory object of a node; an absent node has none. -/
def memObjOf (g : ContextGraph C) (n : NodeId) : Except Fault (Option MemObject) :=
  match g.nodes[n]?.bind (·.memObj) with
  | some mem => some <$> entryAt g.memObjs mem
  | none => .ok none

/-- Whether a node is the object of unknown memory or that of constant data; these have no fields
of their own. -/
def isSpecial (n : NodeId) : Bool := n == blackHole || n == constantData

/-- Whether a node is part of constant data. -/
def isConstant (g : ContextGraph C) (n : NodeId) : Except Fault Bool :=
  if n = constantData then .ok true
  else do return (← g.memObjOf n).any (·.isConstant)

/-- Whether a node belongs to an object that holds no pointers. -/
def isPointerFree (g : ContextGraph C) (n : NodeId) : Except Fault Bool := do
  return (← g.memObjOf n).any (!·.hasPointers)

/-- Whether the fields of an object are not told apart. -/
def isFieldInsensitive (g : ContextGraph C) (mem : MemObjId) : Except Fault Bool := do
  return (← entryAt g.memObjs mem).fieldInsensitive

/-- Stops telling the fields of an object apart; says whether they were so far. -/
def setFieldInsensitive (g : ContextGraph C) (mem : MemObjId) :
    Except Fault (Bool × ContextGraph C) := do
  let obj ← entryAt g.memObjs mem
  return (!obj.fieldInsensitive,
    { g with memObjs := g.memObjs.setIfInBounds mem { obj with fieldInsensitive := true } })

/-! ## Base nodes -/

/-- The node of an object as a whole in a context, if it has a copy there. -/
def baseIn? (g : ContextGraph C) (mem : MemObjId) (ctx : C) : Except Fault (Option NodeId) := do
  return g.copyIn? (← entryAt g.memObjs mem).baseNode ctx

/-- The node of the whole object to which a field node belongs; any other node is its own base. -/
def baseOf (g : ContextGraph C) (n : NodeId) : Except Fault NodeId := do
  let node ← entryAt g.nodes n
  match node.kind, node.memObj with
  | .fieldObject, some mem =>
    match ← g.baseIn? mem node.ctx with
    | some base => return base
    | none => throw (.fieldWithoutBase n)
  | _, _ => return n

/-- The copies of the base node of an object. -/
def baseCopies (g : ContextGraph C) (mem : MemObjId) : Except Fault (List NodeId) := do
  return g.copiesOf (← entryAt g.memObjs mem).baseNode

/-- The field nodes of a base node, in the order in which they were added. -/
def fieldsAt (g : ContextGraph C) (base : NodeId) : List NodeId := g.fieldsOf.getD base []

/-! ## Field nodes -/

/-- Lists a field node under its base node. -/
def attachField (g : ContextGraph C) (base field : NodeId) : ContextGraph C :=
  { g with fieldsOf := g.fieldsOf.insert base (g.fieldsAt base ++ [field]) }

/-- Makes a node for a field that has none. -/
def makeField (g : ContextGraph C) (key : FieldKey C) (base : NodeId) : NodeId × ContextGraph C :=
  let field := g.nodes.size
  let node :=
    { input := none, kind := .fieldObject, ctx := key.ctx, memObj := some key.memObj,
      offset := key.offset }
  let g :=
    { g with
      nodes := g.nodes.push node
      fieldNodes := g.fieldNodes.insert key field
      lazyFields := g.lazyFields + 1 }
  (field, g.attachField base field)

/-- The node at an offset from an object node. From a field node the offset counts on from that
field. Nodes that belong to no object, and the special objects, stand for all their fields. -/
def field (g : ContextGraph C) (n : NodeId) (offset : Offset) :
    Except Fault (NodeId × ContextGraph C) := do
  if isSpecial n then return (n, g)
  let node ← entryAt g.nodes n
  match node.memObj with
  | none => return (n, g)
  | some mem =>
    let offset := if node.kind = .fieldObject then node.offset + offset else offset
    let base ← g.baseOf n
    let obj ← entryAt g.memObjs mem
    if obj.fieldInsensitive then return (base, g)
    let key := { memObj := mem, offset := offset.reduce obj.modulus, ctx := node.ctx }
    match g.fieldNodes[key]? with
    | some field => return (field, g)
    | none => return g.makeField key base

end ContextGraph

end PointerAnalysis
