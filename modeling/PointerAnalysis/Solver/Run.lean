import PointerAnalysis.Solver.Visit

/-!
Rounds and whole runs. A round merges the cycles of direct constraints and visits nodes until none
waits; rounds follow each other until one adds no constraint and merges nothing.
-/

namespace PointerAnalysis

namespace Solver

variable {C : Type} [Context C]

/-- A bound on the number of nodes that the graph can ever have: each object copy has at most as
many field nodes as its modulus says. -/
def nodeBound (s : Solver C) : Nat :=
  let contexts := s.graph.contexts
  contexts.nodes.size * contexts.memObjs.foldl (fun n m => n + m.modulus.toNat) 1

/-- A bound on the number of visits and of rounds. Every one but the first of each node is due to a
fact or a constraint that was new or to a merge. Between two merges there are at most as many new
facts, and as many new copy constraints, as pairs of nodes, and each merge removes a node. -/
def fuel (s : Solver C) : Nat :=
  let n := s.nodeBound + 2
  4 * (n * n * n)

/-- A solver for a constraint graph, before its run. -/
def new (graph : ConstraintGraph C) (strategy : Strategy) : Solver C := { strategy, graph }

/-- Takes up the address constraints, and folds the fields of the objects that start out without
telling them apart. Does nothing the second time. -/
def seed : SolverM C Unit := do
  let s ← get
  if s.initialized then return
  let whole := s.graph.contexts.memObjs.toList.filter (·.fieldInsensitive)
  set { s with
    initialized := true
    pending := s.pending ∪ IdSet.ofList (whole.map MemObject.id) }
  (s.graph.edgesOfClass .addr).forM processAddr
  foldPending

/-- Visits a waiting node, or rather the one that stands for it. -/
def serve (visit : NodeId → SolverM C Unit) (n : NodeId) : SolverM C Unit := do
  let n ← rep n
  if (← get).graph.isLive n then
    visit (← settle n)
    foldPending

/-- Visits the waiting nodes until none is left. -/
def drain (visit : NodeId → SolverM C Unit) : (fuel : Nat) → SolverM C Unit
  | 0 => throw .outOfFuel
  | fuel + 1 => do
    match (← get).worklist.pop? with
    | none => return
    | some (n, worklist) =>
      modify fun s => { s with worklist }
      serve visit n
      drain visit fuel

/-- Visits a node for its direct constraints, unless it was merged away. -/
def sweep (n : NodeId) : SolverM C Unit := do
  let g := (← get).graph
  if g.rep n = n ∧ g.isLive n then visitDirect n

/-- One round. Says whether another one is needed. -/
def round : SolverM C Bool := do
  seed
  modify fun s => { s with copied := false, merged := false }
  count fun t => { t with rounds := t.rounds + 1 }
  let order ← mergeCycles
  if (← get).strategy.isWave then
    order.forM sweep
    foldPending
    drain visitIndirect (← get).fuel
  else
    order.forM schedule
    drain visitFully (← get).fuel
  foldPending
  let s ← get
  return s.copied || s.merged

/-- Rounds until none is needed. -/
def rounds : (fuel : Nat) → SolverM C Unit
  | 0 => throw .outOfFuel
  | fuel + 1 => do if ← round then rounds fuel

/-- A whole run. -/
def solve : SolverM C Unit := do
  seed
  rounds (← get).fuel

end Solver

end PointerAnalysis
