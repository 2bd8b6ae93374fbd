import PointerAnalysis.Solver.Fold

/-!
Visiting nodes: how each kind of constraint passes on what a node points to.
-/

namespace PointerAnalysis

namespace Solver

variable {C : Type} [Context C]

/-! ## Constraints -/

/-- The target of an address constraint points to the source. -/
def processAddr (e : EdgeId) : SolverM C Unit := do
  count fun t => { t with addrs := t.addrs + 1 }
  let c ← edge e
  discard <| learn (← rep c.dst) {c.src}

/-- The target of a copy constraint points to the given objects of the source. -/
def processCopy (c : Constraint) (objs : IdSet) : SolverM C Unit := do
  count fun t => { t with copies := t.copies + 1 }
  discard <| learn (← rep c.dst) objs

/-- Adds a copy constraint that was found while solving. The strategy that sends only what is new
sends along it at once; the others visit the source again. -/
def addCopy (src dst : NodeId) : SolverM C Unit := do
  let added ← onGraph (·.addEdge src dst .copy)
  if added.isSome then
    modify fun s => { s with copied := true }
    count fun t => { t with copyEdgesAdded := t.copyEdgesAdded + 1 }
    let s ← get
    match s.strategy with
    | .baseline | .wave => schedule (s.graph.rep src)
    | .waveDiff => discard <| learn (s.graph.rep dst) (s.pointsTo src)

/-- The base of an object node; its object stops telling its fields apart. -/
def widen (obj : NodeId) : SolverM C NodeId := do
  markFieldInsensitive obj
  orHalt ((← get).graph.contexts.baseOf obj)

/-- The field of an object node at an offset. What is stored in the object as a whole can be read
from its first field. -/
def project (offset : Offset) (obj : NodeId) : SolverM C NodeId := do
  let field ← onGraph (·.field obj offset)
  let base ← orHalt ((← get).graph.contexts.baseOf obj)
  if offset.isZero ∧ base = obj ∧ field ≠ obj then addCopy base field
  return field

/-- The target of a projection points to the projections of the given objects; the special objects
are their own projections. -/
def processProjection (c : Constraint) (projection : NodeId → SolverM C NodeId) (objs : IdSet) :
    SolverM C Unit := do
  count fun t => { t with projections := t.projections + 1 }
  let fields ← objs.toList.mapM fun obj =>
    if ContextGraph.isSpecial obj then pure obj else projection obj
  discard <| learn (← rep c.dst) (.ofList fields)

/-- Whether nothing is read from or written to an object: constant data, and objects that hold no
pointers. -/
def isInert (obj : NodeId) : SolverM C Bool := do
  let contexts := (← get).graph.contexts
  if ← orHalt (contexts.isConstant obj) then return true
  orHalt (contexts.isPointerFree obj)

/-- A load from an object that the pointer points to copies from the object to the target. -/
def processLoad (obj : NodeId) (e : EdgeId) : SolverM C Unit := do
  if ← isInert obj then return
  count fun t => { t with loads := t.loads + 1 }
  addCopy obj (← edge e).dst

/-- A store to an object that the pointer points to copies from the source to the object. -/
def processStore (obj : NodeId) (e : EdgeId) : SolverM C Unit := do
  if ← isInert obj then return
  count fun t => { t with stores := t.stores + 1 }
  addCopy (← edge e).src obj

/-! ## Nodes -/

/-- Passes objects on along one direct constraint. -/
def sendAlong (objs : IdSet) (e : EdgeId) : SolverM C Unit := do
  let c ← edge e
  match c.kind with
  | .copy => processCopy c objs
  | .field offset => processProjection c (project offset) objs
  | .anyField => processProjection c widen objs
  | kind => throw (.fault (.misfiledEdge kind.edgeClass e))

/-- Passes objects on along the direct constraints of a node. -/
def send (n : NodeId) (objs : IdSet) : SolverM C Unit := do
  if objs.isEmpty then return
  ((← get).graph.edgesAt .outgoing n .direct).toList.forM (sendAlong objs)

/-- Deals with the loads and stores through a pointer for all objects it points to. -/
def dereference (n : NodeId) : SolverM C Unit := do
  let s ← get
  let loads := (s.graph.edgesAt .outgoing n .load).toList
  let stores := (s.graph.edgesAt .incoming n .store).toList
  (s.pointsTo n).toList.forM fun obj => do
    loads.forM (processLoad obj)
    stores.forM (processStore obj)

/-- Deals with one load or store for the objects that are new to it. -/
def dereferenceNew (process : NodeId → EdgeId → SolverM C Unit) (n : NodeId) (e : EdgeId) :
    SolverM C Unit := do
  let (objs, facts) := (← get).facts.handle e n
  modify fun s => { s with facts }
  objs.toList.forM (process · e)

/-- Counts a visit. -/
def countVisit : SolverM C Unit := count fun t => { t with visits := t.visits + 1 }

/-- A visit that deals with all constraints of a node. -/
def visitFully (n : NodeId) : SolverM C Unit := do
  countVisit
  ((← get).graph.edgesAt .incoming n .addr).toList.forM processAddr
  dereference n
  send n ((← get).pointsTo n)

/-- A visit that deals with the direct constraints of a node. -/
def visitDirect (n : NodeId) : SolverM C Unit := do
  countVisit
  let n ← settle n
  let s ← get
  if s.strategy = .waveDiff then
    let (facts, gained) := s.facts.send n
    set { s with facts }
    if gained then send n (facts.gainedBy n)
  else send n (s.pointsTo n)

/-- A visit that deals with the loads and stores of a node. -/
def visitIndirect (n : NodeId) : SolverM C Unit := do
  countVisit
  let s ← get
  if s.strategy = .waveDiff then
    (s.graph.edgesAt .outgoing n .load).toList.forM (dereferenceNew processLoad n)
    (s.graph.edgesAt .incoming n .store).toList.forM (dereferenceNew processStore n)
  else dereference n

end Solver

end PointerAnalysis
