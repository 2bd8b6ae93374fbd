import PointerAnalysis.DepthFirst
import PointerAnalysis.Ident
import PointerAnalysis.IdSet

/-!
Call graphs: the functions of a program and who calls whom. There is one call edge per pair of
caller and callee, which records the call sites at which the call is made.
-/

namespace PointerAnalysis

/-- The call sites at which one function calls another. -/
structure CallSites where
  direct : IdSet
  indirect : IdSet

namespace CallSites

/-- The number of call sites; one that is both direct and indirect counts twice. -/
def count (s : CallSites) : Nat := s.direct.size + s.indirect.size

end CallSites

/-- That one function calls another. -/
structure Call where
  caller : FuncId
  callee : FuncId
  sites : CallSites

/-- The functions of a program in the order of their registration, and the calls between them, the
latest one first. -/
structure CallGraph where
  functions : List (FuncId × String)
  calls : List Call

namespace CallGraph

/-- The call graph without functions. -/
def empty : CallGraph := ⟨[], []⟩

/-- Whether a function is registered. -/
def contains (g : CallGraph) (f : FuncId) : Bool := g.functions.any (·.1 == f)

/-- The name of a function. -/
def name? (g : CallGraph) (f : FuncId) : Option String := g.functions.lookup f

/-- The function that was registered first under a name. -/
def byName? (g : CallGraph) (name : String) : Option FuncId :=
  (g.functions.find? (·.2 == name)).map (·.1)

/-- The ids of all functions, ascending. -/
def functionIds (g : CallGraph) : IdSet := .ofList (g.functions.map (·.1))

/-- Registers a function; one that is registered already keeps its name. -/
def addFunction (g : CallGraph) (f : FuncId) (name : String) : CallGraph :=
  if g.contains f then g else { g with functions := g.functions ++ [(f, name)] }

/-- Registers a function under the name that its id gives, unless it is registered already. -/
def mention (g : CallGraph) (f : FuncId) : CallGraph := g.addFunction f s!"f{f}"

/-- The call sites at which `caller` calls `callee`, if it does. -/
def sites? (g : CallGraph) (caller callee : FuncId) : Option CallSites :=
  (g.calls.find? fun c => c.caller == caller && c.callee == callee).map (·.sites)

/-- Records call sites of a call, which is added if it is new; both functions get registered. -/
def record (g : CallGraph) (caller callee : FuncId) (extend : CallSites → CallSites) : CallGraph :=
  let g := (g.mention caller).mention callee
  if (g.sites? caller callee).isSome then
    { g with
      calls := g.calls.map fun c =>
        if c.caller = caller ∧ c.callee = callee then { c with sites := extend c.sites } else c }
  else { g with calls := ⟨caller, callee, extend ⟨∅, ∅⟩⟩ :: g.calls }

/-- Records a direct call. -/
def addCall (g : CallGraph) (caller callee : FuncId) (site : CallSiteId) : CallGraph :=
  g.record caller callee fun s => { s with direct := s.direct.insert site }

/-- Records an indirect call whose target is known. -/
def addIndirectCall (g : CallGraph) (caller callee : FuncId) (site : CallSiteId) : CallGraph :=
  g.record caller callee fun s => { s with indirect := s.indirect.insert site }

/-- The calls of a function, the latest one first. -/
def incoming (g : CallGraph) (f : FuncId) : List Call := g.calls.filter (·.callee == f)

/-- The calls by a function, the latest one first. -/
def outgoing (g : CallGraph) (f : FuncId) : List Call := g.calls.filter (·.caller == f)

/-- The functions that call a function. -/
def callers (g : CallGraph) (f : FuncId) : IdSet := .ofList ((g.incoming f).map (·.caller))

/-- The functions that a function calls. -/
def callees (g : CallGraph) (f : FuncId) : IdSet := .ofList ((g.outgoing f).map (·.callee))

/-- The functions that run when `root` is called, `root` included; none if it is unknown. -/
def reachable (g : CallGraph) (root : FuncId) : IdSet :=
  if g.contains root then
    .ofList (Search.visit (fun f => (g.callees f).toList) g.functions.length .start root).finished
  else ∅

end CallGraph

end PointerAnalysis
