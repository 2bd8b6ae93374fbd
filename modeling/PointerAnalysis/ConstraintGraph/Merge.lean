import PointerAnalysis.ConstraintGraph.Basic

/-!
Moving the constraints of a node to the node that is to represent it. Direct constraints inside the
group that is being merged are dropped; if one of them shifts to other fields, that is reported.
-/

namespace PointerAnalysis

namespace ConstraintGraph

variable {C : Type} [Context C]

/-- Moves one constraint from a side of `sub` to `rep`. Address constraints are dropped, since the
points-to sets carry them; so are direct ones whose far end is in the group. Says, together with
what was found before, whether a dropped one shifts. -/
def moveEdge (side : Side) (rep : NodeId) (members : IdSet) (acc : Bool × ConstraintGraph C)
    (e : EdgeId) : Except Fault (Bool × ConstraintGraph C) := do
  let (shifts, g) := acc
  let c ← g.edge e
  match c.kind.edgeClass with
  | .addr => return (shifts, (← g.removeEdge e).2)
  | .load | .store => return (shifts, (← g.retarget side e rep).2)
  | .direct =>
    if c.farEnd side = rep ∨ c.farEnd side ∈ members then
      return (shifts || c.kind.isShifting, (← g.removeEdge e).2)
    else return (shifts, (← g.retarget side e rep).2)

/-- Moves the constraints of one class. -/
def moveClass (side : Side) (sub rep : NodeId) (members : IdSet) (acc : Bool × ConstraintGraph C)
    (c : EdgeClass) : Except Fault (Bool × ConstraintGraph C) :=
  (acc.2.edgesAt side sub c).toList.foldlM (moveEdge side rep members) acc

/-- Moves the constraints at one side, class by class. -/
def moveSide (g : ConstraintGraph C) (side : Side) (sub rep : NodeId) (members : IdSet) :
    Except Fault (Bool × ConstraintGraph C) :=
  EdgeClass.all.foldlM (moveClass side sub rep members) (false, g)

/-- Moves all constraints of `sub` to `rep`. -/
def moveEdges (g : ConstraintGraph C) (sub rep : NodeId) (members : IdSet) :
    Except Fault (Bool × ConstraintGraph C) := do
  let (shiftsIn, g) ← g.moveSide .incoming sub rep members
  let (shiftsOut, g) ← g.moveSide .outgoing sub rep members
  return (shiftsIn || shiftsOut, g)

/-- Merges `sub` into `rep`, which inherits its constraints and its place on a shifting cycle. -/
def merge (g : ConstraintGraph C) (sub rep : NodeId) (members : IdSet) :
    Except Fault (ConstraintGraph C) := do
  let (shifts, g) ← g.moveEdges sub rep members
  let g := if shifts || g.isShifting sub then g.setShifting rep else g
  (← g.removeNode sub).mergeRep sub rep

end ConstraintGraph

end PointerAnalysis
