import PointerAnalysis.ConstraintGraph.Merge
import PointerAnalysis.Facts
import PointerAnalysis.Solver.Strategy
import PointerAnalysis.WorkList

/-!
The state of a solver and its elementary steps. A run is a computation on the state; when it stops
short, the state reached so far remains.
-/

namespace PointerAnalysis

/-- How much work a solver has done. -/
structure SolverStats where
  addrs : Nat := 0
  copies : Nat := 0
  projections : Nat := 0
  loads : Nat := 0
  stores : Nat := 0
  cycleSearches : Nat := 0
  mergedNodes : Nat := 0
  foldedFields : Nat := 0
  rounds : Nat := 0
  visits : Nat := 0
  copyEdgesAdded : Nat := 0
  ptsChanges : Nat := 0

/-- The state of a solver. -/
structure Solver (C : Type) [Context C] where
  strategy : Strategy
  graph : ConstraintGraph C
  facts : Facts := {}
  worklist : WorkList := ∅
  stats : SolverStats := {}
  /-- the objects that became field-insensitive and whose field nodes are not folded yet -/
  pending : IdSet := ∅
  /-- whether this round added a copy constraint -/
  copied : Bool := false
  /-- whether this round merged nodes, or let a pointer to a field point to the whole object -/
  merged : Bool := false
  initialized : Bool := false

/-- Why a run stopped short. -/
inductive Halt where
  | fault (f : Fault)
  /-- the bound on the number of steps was too low -/
  | outOfFuel
deriving DecidableEq

/-- Computations on the state of a solver. -/
abbrev SolverM (C : Type) [Context C] := EStateM Halt (Solver C)

namespace Solver

variable {C : Type} [Context C] {α : Type}

/-! ## Queries -/

/-- The objects that a node points to. -/
def pointsTo (s : Solver C) (n : NodeId) : IdSet := s.facts.pointsTo (s.graph.rep n)

/-- The nodes that point to anything, ascending, with their points-to sets. -/
def snapshot (s : Solver C) : List (NodeId × IdSet) :=
  ((List.range s.graph.slots.size).map fun n => (n, s.pointsTo n)).filter (!·.2.isEmpty)

/-! ## Steps -/

/-- The result of an operation; a fault stops the run. -/
def orHalt (r : Except Fault α) : SolverM C α :=
  match r with
  | .ok a => pure a
  | .error f => throw (.fault f)

/-- Changes the counters. -/
def count (f : SolverStats → SolverStats) : SolverM C Unit :=
  modify fun s => { s with stats := f s.stats }

/-- Lets a node wait for a visit. -/
def schedule (n : NodeId) : SolverM C Unit :=
  modify fun s => { s with worklist := s.worklist.push n }

/-- Applies an operation to the constraint graph. -/
def onGraph (f : ConstraintGraph C → Except Fault (α × ConstraintGraph C)) : SolverM C α := do
  let (a, graph) ← orHalt (f (← get).graph)
  modify fun s => { s with graph }
  return a

/-- The constraint with an id, which must exist. -/
def edge (e : EdgeId) : SolverM C Constraint := do orHalt ((← get).graph.edge e)

/-- The node that stands for `n`. -/
def rep (n : NodeId) : SolverM C NodeId := return (← get).graph.rep n

/-- Adds objects to the points-to set of a node. A set that grows is counted, and its node has to be
visited. Says whether the set grew. -/
def learn (n : NodeId) (objs : IdSet) : SolverM C Bool := do
  let s ← get
  let (facts, grew) := s.facts.absorb n objs
  if grew then
    set { s with
      facts
      worklist := s.worklist.push n
      stats := { s.stats with ptsChanges := s.stats.ptsChanges + 1 } }
  return grew

end Solver

end PointerAnalysis
