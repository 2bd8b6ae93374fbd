/-!
Identifiers. Functions, call sites, graph nodes, graph edges and memory objects are all named by
natural numbers, handed out in the order in which they are created.
-/

namespace PointerAnalysis

/-- Names a function of the analysed program. -/
abbrev FuncId := Nat

/-- Names a place in the program text from which a function is called. -/
abbrev CallSiteId := Nat

/-- Names a node of a program graph. -/
abbrev NodeId := Nat

/-- Names an edge of a program graph. -/
abbrev EdgeId := Nat

/-- Names a memory object: a variable, or the storage made at one allocation site. -/
abbrev MemObjId := Nat

/-- The object that stands for memory about which nothing is known. -/
def blackHole : NodeId := 0

/-- The object that stands for all constant data. -/
def constantData : NodeId := 1

/-- Nodes with an id below this bound are reserved and mean the same in every program. -/
def reservedCount : Nat := 4

end PointerAnalysis
