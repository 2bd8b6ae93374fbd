import PointerAnalysis.Components
import PointerAnalysis.Solver.Basic

/-!
Merging nodes: cycles of direct constraints, whose nodes all end up with the same points-to set, and
the field nodes of objects whose fields are no longer told apart.
-/

namespace PointerAnalysis

namespace Solver

variable {C : Type} [Context C]

/-! ## Merging -/

/-- Moves the facts of `sub` to `rep`. -/
def mergeFacts (sub rep : NodeId) : SolverM C Unit :=
  modify fun s =>
    let facts := if s.strategy = .waveDiff then s.facts.restrictSent rep sub else s.facts
    let (facts, grew) := facts.merge rep sub
    { s with
      facts
      stats := { s.stats with ptsChanges := s.stats.ptsChanges + grew.toNat } }

/-- Merges a node into the one that is to represent it: facts, constraints, and the record of who
represents whom. -/
def mergeNode (sub rep : NodeId) (members : IdSet) : SolverM C Unit := do
  if sub = rep then return
  mergeFacts sub rep
  onGraph fun g => return ((), ← g.merge sub rep members)
  modify fun s =>
    { s with
      worklist := s.worklist.push rep
      merged := true
      stats := { s.stats with mergedNodes := s.stats.mergedNodes + 1 } }

/-- Merges a group of nodes into its smallest member. -/
def mergeGroup (members : IdSet) : SolverM C Unit :=
  match members.toList with
  | [] => pure ()
  | rep :: subs => subs.forM fun sub => mergeNode sub rep members

/-- Merges every cycle of direct constraints; returns the representatives of all components, each
before those that its constraints lead to. -/
def mergeCycles : SolverM C (List NodeId) := do
  count fun t => { t with cycleSearches := t.cycleSearches + 1 }
  let s ← get
  let pairs ← orHalt s.graph.directPairs
  let components ← orHalt (Components.find s.graph.liveNodes pairs)
  components.cycles.forM mergeGroup
  return components.order

/-! ## Folding fields -/

/-- Folds a field node into its base node: whoever points to the field points to the base as well,
and the two nodes are merged. -/
def foldField (base field : NodeId) : SolverM C Unit := do
  (← get).facts.pointersTo field |>.forM fun ptr => do
    if ← learn ptr {base} then modify fun s => { s with merged := true }
  let s ← get
  let baseRep := s.graph.rep base
  let fieldRep := s.graph.rep field
  if fieldRep ≠ baseRep then
    mergeNode fieldRep baseRep (.ofList (s.graph.group baseRep ++ s.graph.group fieldRep))
    count fun t => { t with foldedFields := t.foldedFields + 1 }

/-- Folds all field nodes of an object, in each of its copies. -/
def foldObject (mem : MemObjId) : SolverM C Unit := do
  let bases ← orHalt ((← get).graph.contexts.baseCopies mem)
  bases.forM fun base => do
    (← get).graph.contexts.fieldsAt base |>.forM (foldField base)

/-- Folds the field nodes of all objects that wait for it. -/
def foldPending : SolverM C Unit := do
  let objects := (← get).pending
  modify fun s => { s with pending := ∅ }
  objects.toList.forM foldObject

/-- Stops telling the fields of a node's object apart; if they were so far, its field nodes have
to be folded. -/
def markFieldInsensitive (obj : NodeId) : SolverM C Unit := do
  if ContextGraph.isSpecial obj then return
  let s ← get
  match (← orHalt (entryAt s.graph.contexts.nodes obj)).memObj with
  | none => return
  | some mem =>
    let (changed, contexts) ← orHalt (s.graph.contexts.setFieldInsensitive mem)
    set { s with
      graph := { s.graph with contexts }
      pending := if changed then s.pending.insert mem else s.pending }

/-- Before a node on a shifting cycle is visited, the objects it points to stop telling their fields
apart. Returns the node that then stands for it. -/
def settle (n : NodeId) : SolverM C NodeId := do
  let s ← get
  if s.graph.isShifting n then
    (s.pointsTo n).toList.forM markFieldInsensitive
    foldPending
    rep n
  else return n

end Solver

end PointerAnalysis
