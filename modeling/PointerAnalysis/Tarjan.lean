import Std.Data.TreeMap
import PointerAnalysis.Fault

/-!
Tarjan's search for the strongly connected components of a graph given by its successor function.
The search numbers the vertices as it first sees them, and keeps those without a component on a
stack. A vertex that leads back to none with a smaller number on the stack closes a component: what
lies above it on the stack. The search goes one step at a time along an explicit path.
-/

namespace PointerAnalysis

/-- How far a search for components has come. -/
structure Tarjan where
  /-- the numbers of the vertices seen -/
  index : Std.TreeMap Nat Nat
  /-- for each vertex seen, the smallest number on the stack that it is known to lead to -/
  low : Std.TreeMap Nat Nat
  /-- whether a vertex seen is still on the stack -/
  onStack : Std.TreeMap Nat Bool
  /-- the vertices seen that have no component yet, the latest first -/
  stack : List Nat
  /-- the number of the next vertex -/
  next : Nat
  /-- the components found, the latest first -/
  components : List (List Nat)
  /-- the vertices being explored, the latest first, each with its successors not looked at yet -/
  path : List (Nat × List Nat)

namespace Tarjan

/-- A search that has seen nothing. -/
def start : Tarjan := ⟨∅, ∅, ∅, [], 0, [], []⟩

/-- The entry of a vertex that must have been seen. -/
def lookup (numbers : Std.TreeMap Nat Nat) (v : Nat) : Except Fault Nat :=
  match numbers[v]? with
  | some i => .ok i
  | none => .error (.unseenVertex v)

/-- Begins to explore a vertex. -/
def enter (succ : Nat → List Nat) (s : Tarjan) (v : Nat) : Tarjan :=
  { s with
    index := s.index.insert v s.next
    low := s.low.insert v s.next
    next := s.next + 1
    stack := v :: s.stack
    onStack := s.onStack.insert v true
    path := (v, succ v) :: s.path }

/-- Replaces the number recorded for `v`. -/
def setLow (s : Tarjan) (v i : Nat) : Tarjan := { s with low := s.low.insert v i }

/-- Records that `v` leads to what `w` has as its entry in `numbers`. -/
def lower (s : Tarjan) (v : Nat) (numbers : Std.TreeMap Nat Nat) (w : Nat) :
    Except Fault Tarjan := do
  let low ← lookup s.low v
  let i ← lookup numbers w
  return s.setLow v (min low i)

/-- Looks at a successor `w` of `v`. -/
def look (succ : Nat → List Nat) (s : Tarjan) (v w : Nat) : Except Fault Tarjan :=
  if w ∉ s.index then .ok (s.enter succ w)
  else if s.onStack.getD w false then s.lower v s.index w
  else .ok s

/-- Splits a stack below `v`. -/
def popTo (v : Nat) : List Nat → List Nat × List Nat
  | [] => ([], [])
  | w :: stack =>
    if w = v then ([w], stack)
    else
      let (popped, left) := popTo v stack
      (w :: popped, left)

/-- Takes `v`, and what lies above it, from the stack as a component. -/
def close (s : Tarjan) (v : Nat) : Tarjan :=
  let (component, stack) := popTo v s.stack
  { s with
    stack
    onStack := component.foldl (fun m w => m.insert w false) s.onStack
    components := component :: s.components }

/-- Lets the vertex from which `v` was entered know what `v` leads to. -/
def report (s : Tarjan) (v : Nat) : Except Fault Tarjan :=
  match s.path with
  | [] => .ok s
  | (parent, _) :: _ => s.lower parent s.low v

/-- Is done with `v`, all of whose successors have been looked at. -/
def leave (s : Tarjan) (v : Nat) : Except Fault Tarjan := do
  let s ← s.report v
  if (← lookup s.low v) = (← lookup s.index v) then return s.close v
  else return s

/-- One step of the search, at the end of its path. -/
def step (succ : Nat → List Nat) (s : Tarjan) : Except Fault Tarjan :=
  match s.path with
  | [] => .ok s
  | (v, w :: rest) :: path => look succ { s with path := (v, rest) :: path } v w
  | (v, []) :: path => leave { s with path } v

/-- Takes steps until the path ends. `steps` bounds their number. -/
def run (succ : Nat → List Nat) : (steps : Nat) → Tarjan → Except Fault Tarjan
  | 0, s => .ok s
  | steps + 1, s => if s.path.isEmpty then .ok s else do run succ steps (← step succ s)

/-- Explores a root and what it leads to, unless it was seen before. -/
def explore (succ : Nat → List Nat) (steps : Nat) (s : Tarjan) (root : Nat) : Except Fault Tarjan :=
  if root ∈ s.index then .ok s else run succ steps (s.enter succ root)

end Tarjan

end PointerAnalysis
