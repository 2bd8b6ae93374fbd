import PointerAnalysis.AssignmentGraph.Check
import PointerAnalysis.Config.Basic
import PointerAnalysis.ContextGraph.Build
import PointerAnalysis.ContextGraph.Stats
import PointerAnalysis.Policy.CallString
import PointerAnalysis.Policy.Origin
import PointerAnalysis.Solver.Run

/-!
Whole analyses: a program and its call graph go in, and out comes a solution that answers which
objects a pointer can point to and which pointers may be aliases.
-/

namespace PointerAnalysis

/-- What an analysis found. -/
structure Solution (C : Type) [Context C] where
  graph : ConstraintGraph C
  facts : Facts
  strategy : Strategy
  solverStats : SolverStats
  /-- the size of the context graph before solving -/
  graphStats : ContextGraphStats

/-- An object as a whole. -/
structure BaseObject where
  node : NodeId
  memObj : MemObjId
  numFields : UInt32
  typeName : Option String

namespace Solution

variable {C : Type} [Context C]

/-- The objects that a node points to. -/
def pointsTo (s : Solution C) (n : NodeId) : IdSet := s.facts.pointsTo (s.graph.rep n)

/-- Whether two pointers can point to the same object. -/
def mayAlias (s : Solution C) (a b : NodeId) : Bool := (s.pointsTo a).intersects (s.pointsTo b)

/-- The copies of an input node. -/
def copiesOf (s : Solution C) (input : NodeId) : List NodeId := s.graph.contexts.copiesOf input

/-- The copy of an input node in a context. -/
def copyIn? (s : Solution C) (input : NodeId) (ctx : C) : Option NodeId :=
  s.graph.contexts.copyIn? input ctx

/-- The context of a node. -/
def contextOf (s : Solution C) (n : NodeId) : Except Fault C := do
  return (← entryAt s.graph.contexts.nodes n).ctx

/-- The input node that a node is a copy of. -/
def inputOf (s : Solution C) (n : NodeId) : Except Fault (Option NodeId) := do
  return (← entryAt s.graph.contexts.nodes n).input

/-- The objects that an input node points to in any context. -/
def pointsToAnywhere (s : Solution C) (input : NodeId) : IdSet :=
  (s.copiesOf input).foldl (fun objs n => objs ∪ s.pointsTo n) ∅

/-- Whether the fields of an object are not told apart. -/
def isFieldInsensitive (s : Solution C) (mem : MemObjId) : Except Fault Bool :=
  s.graph.contexts.isFieldInsensitive mem

/-- The whole object to which an object node belongs. -/
def baseObject (s : Solution C) (n : NodeId) : Except Fault (Option BaseObject) := do
  let contexts := s.graph.contexts
  if contexts.isObject n then
    match ← contexts.memObjOf n with
    | some mem =>
      return some {
        node := ← contexts.baseOf n
        memObj := mem.id
        numFields := mem.numFields
        typeName := mem.typeName }
    | none => return none
  else return none

end Solution

/-- Why an analysis has no solution. -/
inductive Failure where
  | refused (e : AnalysisError)
  | halted (h : Halt)
deriving DecidableEq

/-- An analysis with a configuration that was checked. -/
structure Analyzer where
  config : Config

namespace Analyzer

/-- The analyzer for a configuration, if that is right. -/
def ofConfig (c : Config) : Except AnalysisError Analyzer :=
  match c.check with
  | .ok _ => .ok ⟨c⟩
  | .error e => .error (.config e)

variable {C : Type} [Context C]

/-- Builds the constraints of a program under a policy. -/
def constraints (policy : ContextPolicy C) (p : AssignmentGraph) (fieldSensitive : Bool) :
    Except Fault (ConstraintGraph C) := do
  ConstraintGraph.ofContextGraph (← ContextGraph.build policy p fieldSensitive)

/-- Solves a program under a policy. -/
def analyzeWith (a : Analyzer) (policy : ContextPolicy C) (p : AssignmentGraph) :
    Except Failure (Solution C) :=
  match p.check with
  | .error d => .error (.refused (.malformed d.message))
  | .ok _ =>
    match constraints policy p a.config.fieldSensitive with
    | .error f => .error (.halted (.fault f))
    | .ok graph =>
      match Solver.solve.run (Solver.new graph a.config.solver) with
      | .error h _ => .error (.halted h)
      | .ok _ s =>
        .ok {
          graph := s.graph
          facts := s.facts
          strategy := s.strategy
          solverStats := s.stats
          graphStats := graph.contexts.stats }

/-- A solution under either kind of context. -/
inductive Outcome where
  | callString (s : Solution CallString)
  | origin (s : Solution Origin)

/-- Solves a program under the configured policy. -/
def analyze (a : Analyzer) (p : AssignmentGraph) (calls : CallGraph) : Except Failure Outcome :=
  match a.config.context with
  | .callString =>
    .callString <$> a.analyzeWith (CallStringPolicy.mk calls a.config.kLimit).policy p
  | .origin =>
    match OriginPolicy.ofEntries calls a.config.entryFunctions with
    | .error e => .error (.refused e)
    | .ok origins => .origin <$> a.analyzeWith origins.policy p

end Analyzer

end PointerAnalysis
