import Std.Data.TreeSet
import PointerAnalysis.CallGraph
import PointerAnalysis.Context.CallString
import PointerAnalysis.Policy.Basic

/-!
Bounded call strings. The contexts of a function are the chains of its callers, cut at a given depth
or at a function that nobody calls. A call puts the caller in front of its own chain.
-/

namespace PointerAnalysis

/-- Where a walk from a function to its callers stands: the callers between, and the chains that it
has followed to their ends. -/
structure Walk where
  current : CallString
  found : Std.TreeSet CallString

namespace Walk

/-- Goes on to a caller. -/
def climb (w : Walk) (caller : FuncId) : Walk := { w with current := w.current.push caller }

/-- Goes back from the caller that was reached last. -/
def back (w : Walk) : Walk := { w with current := w.current.pop.2 }

/-- Notes that a chain ends here. -/
def collect (w : Walk) : Walk := { w with found := w.found.insert w.current }

end Walk

namespace CallGraph

/-- Follows all chains of callers from a function on, each for at most `depth` callers. -/
def walk (g : CallGraph) : (depth : Nat) → FuncId → Walk → Walk
  | 0, _, w => w.collect
  | depth + 1, f, w =>
    if (g.callers f).isEmpty then w.collect
    else (g.callers f).toList.foldl (fun w c => (g.walk depth c (w.climb c)).back) w

/-- The call strings of a function up to depth `k`, ascending. -/
def callStrings (g : CallGraph) (f : FuncId) (k : Nat) : List CallString :=
  (g.walk k f ⟨.empty, ∅⟩).found.toList

end CallGraph

/-- Contexts by chains of at most `k` callers. -/
structure CallStringPolicy where
  graph : CallGraph
  k : Nat

namespace CallStringPolicy

/-- The contexts of a function; none if it is not in the call graph. -/
def contexts (p : CallStringPolicy) (f : FuncId) : List CallString :=
  if p.graph.contains f then p.graph.callStrings f p.k else []

/-- The contexts in which a caller's variables have copies. -/
def callerContexts (p : CallStringPolicy) (f : FuncId) : List CallString :=
  match p.contexts f with
  | [] => [.empty]
  | cs => cs

/-- The pairs of a caller's context and the context that a call from there enters. -/
def transitions (p : CallStringPolicy) (caller : FuncId) : List (CallString × CallString) :=
  (p.callerContexts caller).map fun c => (c, c.enter caller p.k)

/-- A call joins the caller's context with the one it enters. The caller is the function of the
actual argument; an argument that belongs to no function is not passed on. -/
def callPairs (p : CallStringPolicy) (g : AssignmentGraph) (e : Edge) :
    Except Fault (List (CallString × CallString)) := do
  let src ← entryAt g.nodes e.src
  let dst ← entryAt g.nodes e.dst
  match src.hasValue && dst.hasValue, src.localTo with
  | true, some caller => return p.transitions caller
  | _, _ => return []

/-- A return joins the same contexts as the call, in the other direction. The caller is the function
of the result. -/
def returnPairs (p : CallStringPolicy) (g : AssignmentGraph) (e : Edge) :
    Except Fault (List (CallString × CallString)) := do
  let src ← entryAt g.nodes e.src
  let dst ← entryAt g.nodes e.dst
  match src.hasValue && dst.hasValue, dst.localTo with
  | true, some caller => return (p.transitions caller).map fun (c, d) => (d, c)
  | _, _ => return []

/-- The policy in its general form. -/
def policy (p : CallStringPolicy) : ContextPolicy CallString where
  name := "call-string"
  contexts := p.contexts
  callPairs g e _ _ := p.callPairs g e
  returnPairs g e _ _ := p.returnPairs g e

end CallStringPolicy

end PointerAnalysis
