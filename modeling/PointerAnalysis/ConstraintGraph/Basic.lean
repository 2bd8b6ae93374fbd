import PointerAnalysis.ConstraintGraph.Kind
import PointerAnalysis.ContextGraph.Fields
import PointerAnalysis.IdSet

/-!
Constraint graphs: the constraints between the nodes of a context graph. A constraint is kept under
its id, and can be found in three more ways: by its ends and kind, at each of its ends, and among
all constraints of its class. Nodes can be merged: a merged node is dead, and another one represents
it. Constraints are always between representatives.
-/

namespace PointerAnalysis

/-- A constraint between two nodes. -/
structure Constraint where
  src : NodeId
  dst : NodeId
  kind : ConstraintKind
deriving DecidableEq

namespace Constraint

/-- Constraints are compared by their fields in turn. -/
abbrev order : Constraint → Constraint → Ordering :=
  compareLex (compareOn (·.src)) <| compareLex (compareOn (·.dst)) <|
    compareLex (compareOn (·.kind.rank)) (compareOn (·.kind.offset))

instance : Ord Constraint := ⟨order⟩

instance : Std.TransOrd Constraint := inferInstanceAs (Std.TransCmp order)

instance : Std.LawfulEqOrd Constraint where
  eq_of_compare {a b} h := by
    simp only [compare, order, compareLex, Ordering.then_eq_eq] at h
    obtain ⟨hsrc, hdst, hrank, hoffset⟩ := h
    obtain ⟨_, _, _⟩ := a
    obtain ⟨_, _, _⟩ := b
    cases Std.LawfulEqOrd.eq_of_compare hsrc
    cases Std.LawfulEqOrd.eq_of_compare hdst
    cases ConstraintKind.eq_of_rank_offset (Std.LawfulEqOrd.eq_of_compare hrank)
      (Std.LawfulEqOrd.eq_of_compare hoffset)
    rfl

end Constraint

/-- The two sides of a node. -/
inductive Side where
  | incoming
  | outgoing
deriving DecidableEq

/-- The end of a constraint that lies opposite to a node at whose side it is listed. -/
def Constraint.farEnd (c : Constraint) : Side → NodeId
  | .incoming => c.src
  | .outgoing => c.dst

/-- Both ends of a constraint. -/
def Constraint.ends (c : Constraint) : NodeId × NodeId := (c.src, c.dst)

/-- The constraints at one side of a node, by class. -/
structure ClassSets where
  addr : IdSet := ∅
  direct : IdSet := ∅
  load : IdSet := ∅
  store : IdSet := ∅

namespace ClassSets

/-- The constraints of one class. -/
def get (s : ClassSets) : EdgeClass → IdSet
  | .addr => s.addr
  | .direct => s.direct
  | .load => s.load
  | .store => s.store

/-- Changes the constraints of one class. -/
def modify (s : ClassSets) (c : EdgeClass) (f : IdSet → IdSet) : ClassSets :=
  match c with
  | .addr => { s with addr := f s.addr }
  | .direct => { s with direct := f s.direct }
  | .load => { s with load := f s.load }
  | .store => { s with store := f s.store }

/-- Whether there is no constraint of any class. -/
def isEmpty (s : ClassSets) : Bool := EdgeClass.all.all fun c => (s.get c).isEmpty

theorem get_modify (s : ClassSets) (c d : EdgeClass) (f : IdSet → IdSet) :
    (s.modify c f).get d = if d = c then f (s.get c) else s.get d := by
  cases c <;> cases d <;> rfl

end ClassSets

/-- The constraints at a node. -/
structure ConstraintNode where
  incoming : ClassSets := {}
  outgoing : ClassSets := {}

namespace ConstraintNode

/-- The constraints at one side. -/
def side (n : ConstraintNode) : Side → ClassSets
  | .incoming => n.incoming
  | .outgoing => n.outgoing

/-- Changes the constraints at one side. -/
def modify (n : ConstraintNode) (side : Side) (f : ClassSets → ClassSets) : ConstraintNode :=
  match side with
  | .incoming => { n with incoming := f n.incoming }
  | .outgoing => { n with outgoing := f n.outgoing }

/-- Whether the node has no constraint. -/
def isEmpty (n : ConstraintNode) : Bool := n.incoming.isEmpty && n.outgoing.isEmpty

end ConstraintNode

/-- The constraints over a context graph. -/
structure ConstraintGraph (C : Type) [Context C] where
  contexts : ContextGraph C
  /-- the constraints at each node; nothing for a dead node -/
  slots : Array (Option ConstraintNode)
  /-- the constraints by id; nothing for a removed one -/
  edges : Array (Option Constraint) := #[]
  /-- the ids of the constraints, by their ends and kind -/
  lookup : Std.TreeMap Constraint EdgeId := ∅
  /-- the ids of the constraints of each class -/
  classes : ClassSets := {}
  /-- the representatives of the nodes that were merged away -/
  reps : Std.TreeMap NodeId NodeId := ∅
  /-- the nodes that a node represents besides itself -/
  subs : Std.TreeMap NodeId IdSet := ∅
  /-- the nodes that lie on a cycle of constraints which shifts to other fields -/
  shifting : IdSet := ∅

namespace ConstraintGraph

variable {C : Type} [Context C]

/-! ## Nodes -/

/-- The constraints at a node that is alive. -/
def node? (g : ConstraintGraph C) (n : NodeId) : Option ConstraintNode := g.slots[n]?.join

/-- Whether a node is alive. -/
def isLive (g : ConstraintGraph C) (n : NodeId) : Bool := (g.node? n).isSome

/-- The nodes that are alive, ascending. -/
def liveNodes (g : ConstraintGraph C) : List NodeId := (List.range g.slots.size).filter g.isLive

/-- The node that stands for `n`. -/
def rep (g : ConstraintGraph C) (n : NodeId) : NodeId := g.reps.getD n n

/-- The nodes that a node represents, itself included, ascending. -/
def group (g : ConstraintGraph C) (n : NodeId) : List NodeId :=
  (n :: (g.subs.getD n ∅).toList).mergeSort

/-- Changes the constraints at a node, which must be alive. -/
def modifyNode (g : ConstraintGraph C) (n : NodeId) (f : ConstraintNode → ConstraintNode) :
    Except Fault (ConstraintGraph C) :=
  match g.node? n with
  | some node => .ok { g with slots := g.slots.setIfInBounds n (some (f node)) }
  | none => .error (.absentNode n)

/-- Declares a node dead; it may have no constraints left. -/
def removeNode (g : ConstraintGraph C) (n : NodeId) : Except Fault (ConstraintGraph C) :=
  match g.node? n with
  | none => .error (.absentNode n)
  | some node =>
    if node.isEmpty then .ok { g with slots := g.slots.setIfInBounds n none }
    else .error (.nodeInUse n)

/-- Lets `rep` represent `sub` and all that `sub` represented. -/
def mergeRep (g : ConstraintGraph C) (sub rep : NodeId) : Except Fault (ConstraintGraph C) :=
  if sub = rep then .error (.selfMerge sub)
  else
    let moved := (g.subs.getD sub ∅).insert sub
    let subs := g.subs.erase sub
    .ok { g with
      subs := subs.insert rep (subs.getD rep ∅ ∪ moved)
      reps := moved.toList.foldl (fun reps n => reps.insert n rep) g.reps }

/-- Whether a node lies on a cycle that shifts to other fields. -/
def isShifting (g : ConstraintGraph C) (n : NodeId) : Bool := n ∈ g.shifting

/-- Records that a node lies on a cycle that shifts to other fields. -/
def setShifting (g : ConstraintGraph C) (n : NodeId) : ConstraintGraph C :=
  { g with shifting := g.shifting.insert n }

/-! ## Constraints -/

/-- The constraint with an id, unless it was removed. -/
def edge? (g : ConstraintGraph C) (e : EdgeId) : Option Constraint := g.edges[e]?.join

/-- The constraint with an id, which must exist. -/
def edge (g : ConstraintGraph C) (e : EdgeId) : Except Fault Constraint :=
  match g.edge? e with
  | some c => .ok c
  | none => .error (.absentEdge e)

/-- The constraints of one class at one side of a node, ascending; a dead node has none. -/
def edgesAt (g : ConstraintGraph C) (side : Side) (n : NodeId) (c : EdgeClass) : IdSet :=
  match g.node? n with
  | some node => (node.side side).get c
  | none => ∅

/-- The id of a constraint that exists. -/
def find? (g : ConstraintGraph C) (c : Constraint) : Option EdgeId := g.lookup[c]?

/-- The constraint between the representatives of two nodes. -/
def between (g : ConstraintGraph C) (src dst : NodeId) (kind : ConstraintKind) : Constraint :=
  ⟨g.rep src, g.rep dst, kind⟩

/-- Whether a constraint exists between the representatives of two nodes. -/
def hasEdge (g : ConstraintGraph C) (src dst : NodeId) (kind : ConstraintKind) : Bool :=
  (g.find? (g.between src dst kind)).isSome

/-- Lists a new constraint at its end points and in its class. -/
def pushEdge (g : ConstraintGraph C) (c : Constraint) :
    Except Fault (EdgeId × ConstraintGraph C) := do
  let e := g.edges.size
  let list := fun s : ClassSets => s.modify c.kind.edgeClass (·.insert e)
  let g ← g.modifyNode c.src (·.modify .outgoing list)
  let g ← g.modifyNode c.dst (·.modify .incoming list)
  return (e, { g with
    edges := g.edges.push (some c)
    lookup := g.lookup.insert c e
    classes := list g.classes })

/-- Adds a constraint between the representatives of two nodes, unless it exists or would copy a
node to itself; returns the id of a new constraint. -/
def addEdge (g : ConstraintGraph C) (src dst : NodeId) (kind : ConstraintKind) :
    Except Fault (Option EdgeId × ConstraintGraph C) := do
  let c := g.between src dst kind
  if c.kind = .copy ∧ c.src = c.dst then return (none, g)
  if (g.find? c).isSome then return (none, g)
  let (e, g) ← g.pushEdge c
  return (some e, g)

/-- Removes a constraint, which must exist. -/
def removeEdge (g : ConstraintGraph C) (e : EdgeId) :
    Except Fault (Constraint × ConstraintGraph C) := do
  match g.edge? e with
  | none => throw (.removedEdge e)
  | some c =>
    let cls := c.kind.edgeClass
    let listed :=
      e ∈ g.edgesAt .outgoing c.src cls ∧ e ∈ g.edgesAt .incoming c.dst cls
    let unlist := fun s : ClassSets => s.modify cls (·.erase e)
    let g ← g.modifyNode c.src (·.modify .outgoing unlist)
    let g ← g.modifyNode c.dst (·.modify .incoming unlist)
    unless listed do throw (.detachedEdge e)
    return (c, { g with
      edges := g.edges.setIfInBounds e none
      lookup := g.lookup.erase c
      classes := unlist g.classes })

/-- Moves one end of a constraint to another node: the target of one that is listed as incoming, the
source of one that is listed as outgoing. -/
def retarget (g : ConstraintGraph C) (side : Side) (e : EdgeId) (n : NodeId) :
    Except Fault (Option EdgeId × ConstraintGraph C) := do
  let (c, g) ← g.removeEdge e
  match side with
  | .incoming => g.addEdge c.src n c.kind
  | .outgoing => g.addEdge n c.dst c.kind

/-- The ids of the constraints of one class, ascending. -/
def edgesOfClass (g : ConstraintGraph C) (c : EdgeClass) : List EdgeId := (g.classes.get c).toList

/-- The direct constraints, in the order of their ids. -/
def directEdges (g : ConstraintGraph C) : Except Fault (List Constraint) :=
  (g.edgesOfClass .direct).mapM g.edge

/-- The end points of the copy constraints. -/
def copyPairs (g : ConstraintGraph C) : Except Fault (List (NodeId × NodeId)) := do
  return ((← g.directEdges).filter (·.kind = .copy)).map (·.ends)

/-- The end points of the direct constraints. -/
def directPairs (g : ConstraintGraph C) : Except Fault (List (NodeId × NodeId)) := do
  return (← g.directEdges).map (·.ends)

/-- The number of constraints. -/
def edgeCount (g : ConstraintGraph C) : Nat := g.lookup.size

/-! ## Construction -/

/-- The graph that has a node, and no constraint, for each node of a context graph. -/
def start (g : ContextGraph C) : ConstraintGraph C where
  contexts := g
  slots := Array.replicate g.nodes.size (some {})

/-- Adds the constraint of an edge of the context graph. A projection from a node to itself shifts
to other fields. -/
def addContextEdge (g : ConstraintGraph C) (e : ContextEdge) :
    Except Fault (ConstraintGraph C) := do
  let kind := ConstraintKind.ofEdge e.kind e.offset
  let g := if e.src = e.dst ∧ kind.isShifting then g.setShifting e.src else g
  return (← g.addEdge e.src e.dst kind).2

/-- The constraints of a context graph. -/
def ofContextGraph (g : ContextGraph C) : Except Fault (ConstraintGraph C) :=
  g.edges.toList.foldlM addContextEdge (start g)

/-! ## Fields -/

/-- Makes sure that a node and all before it have a place. -/
def extendTo (g : ConstraintGraph C) (n : NodeId) : ConstraintGraph C :=
  if n < g.slots.size then g
  else { g with slots := g.slots ++ Array.replicate (n + 1 - g.slots.size) (some {}) }

/-- The node at an offset from an object node, which is made if there is none. -/
def field (g : ConstraintGraph C) (n : NodeId) (offset : Offset) :
    Except Fault (NodeId × ConstraintGraph C) := do
  let (field, contexts) ← g.contexts.field n offset
  return (field, { g with contexts }.extendTo field)

end ConstraintGraph

end PointerAnalysis
