import PointerAnalysis.ContextGraph.Fields
import PointerAnalysis.Policy.Basic

/-!
Building a context graph: first the copies of all nodes, then the register of the fields that the
program mentions, then the edges, kind by kind. Every edge is copied by the same rule: the
policy, or the contexts of the end points, give pairs of contexts, and the copies in those
contexts are joined.
-/

namespace PointerAnalysis

namespace ContextGraph

variable {C : Type} [Context C]

/-- The graph without nodes over the memory objects of a program. If fields are not to be told
apart, no object's are. -/
def start (p : AssignmentGraph) (fieldSensitive : Bool) : ContextGraph C where
  memObjs :=
    if fieldSensitive then p.memObjs
    else p.memObjs.map fun m => { m with fieldInsensitive := true }

/-! ## Nodes -/

/-- The contexts in which a node gets a copy: those of its function. Reserved nodes, and nodes
without a function or of a function without contexts, get one copy in the empty context. -/
def contextsFor (policy : ContextPolicy C) (n : Node) : List C :=
  if n.id < reservedCount then [Context.empty]
  else
    match (n.affinity.map policy.contexts).getD [] with
    | [] => [Context.empty]
    | cs => cs

/-- Adds the copy of a node in a context. The copy of a reserved node has the node's own id. -/
def addCopy (n : Node) (g : ContextGraph C) (ctx : C) : Except Fault (ContextGraph C) := do
  if (g.copyIn? n.id ctx).isSome then throw (.duplicateCopy n.id (Context.render ctx))
  let copy := g.nodes.size
  if n.id < reservedCount ∧ copy ≠ n.id then throw (.reservedMoved copy n.id)
  let node :=
    { input := some n.id, kind := n.kind, ctx, memObj := n.memObj, offset := n.offset }
  return { g with
    nodes := g.nodes.push node
    copies := g.copies.insert n.id (g.copies.getD n.id [] ++ [(ctx, copy)]) }

/-- Adds all copies of a node. -/
def addCopies (policy : ContextPolicy C) (g : ContextGraph C) (n : Node) :
    Except Fault (ContextGraph C) :=
  (contextsFor policy n).foldlM (addCopy n) g

/-! ## Fields -/

/-- Registers a node, if it is a field node, under its offset and its base node. Of two nodes for
one field the first is found by the offset. -/
def registerField (p : AssignmentGraph) (g : ContextGraph C) (n : NodeId) :
    Except Fault (ContextGraph C) := do
  let node ← entryAt g.nodes n
  match node.kind, node.memObj with
  | .fieldObject, some mem =>
    let base ← g.copyIn (← entryAt p.memObjs mem).baseNode node.ctx
    let obj ← entryAt g.memObjs mem
    let key := { memObj := mem, offset := node.offset.reduce obj.modulus, ctx := node.ctx }
    return { g with fieldNodes := g.fieldNodes.insertIfNew key n }.attachField base n
  | _, _ => return g

/-! ## Edges -/

/-- The pairs of contexts that an edge inside one function joins: all of them if an end point has
its only copy in the empty context, else equal contexts. -/
def intraPairs (g : ContextGraph C) (e : Edge) : Except Fault (List (C × C)) :=
  let srcs := g.contextsOf e.src
  let dsts := g.contextsOf e.dst
  if g.isContextInsensitive e.src || g.isContextInsensitive e.dst then .ok (allPairs srcs dsts)
  else if srcs.length = dsts.length then .ok (samePairs srcs)
  else .error (.contextMismatch e.kind e.id e.src e.dst srcs.length dsts.length)

/-- The pairs of contexts that an edge joins. -/
def pairsFor (policy : ContextPolicy C) (p : AssignmentGraph) (g : ContextGraph C) (e : Edge) :
    Except Fault (List (C × C)) :=
  match e.kind with
  | .call => policy.callPairs p e (g.contextsOf e.src) (g.contextsOf e.dst)
  | .ret => policy.returnPairs p e (g.contextsOf e.src) (g.contextsOf e.dst)
  | .fork | .join => .ok []
  | _ => g.intraPairs e

/-- Joins the copies of the end points of an edge in a pair of contexts. -/
def joinCopies (e : Edge) (g : ContextGraph C) (ctxs : C × C) : Except Fault (ContextGraph C) := do
  let src ← g.copyIn e.src ctxs.1
  let dst ← g.copyIn e.dst ctxs.2
  return (← g.connect e src dst).2

/-- Copies an edge. -/
def copyEdge (policy : ContextPolicy C) (p : AssignmentGraph) (g : ContextGraph C) (e : Edge) :
    Except Fault (ContextGraph C) := do
  (← pairsFor policy p g e).foldlM (joinCopies e) g

/-- The context graph of a program under a policy. -/
def build (policy : ContextPolicy C) (p : AssignmentGraph) (fieldSensitive : Bool) :
    Except Fault (ContextGraph C) := do
  let g ← p.nodes.toList.foldlM (addCopies policy) (start p fieldSensitive)
  let g ← (List.range g.nodes.size).foldlM (registerField p) g
  (EdgeKind.all.flatMap p.edgesOfKind).foldlM (copyEdge policy p) g

end ContextGraph

end PointerAnalysis
