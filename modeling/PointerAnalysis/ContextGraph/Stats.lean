import PointerAnalysis.ContextGraph.Basic
import PointerAnalysis.Json.Basic

/-!
The size of a context graph.
-/

namespace PointerAnalysis

/-- How many nodes and edges a context graph has, by their kinds. -/
structure ContextGraphStats where
  pointerNodes : Nat
  objectNodes : Nat
  lazyFieldNodes : Nat
  addrEdges : Nat
  copyEdges : Nat
  loadEdges : Nat
  storeEdges : Nat
  fieldEdges : Nat
  callEdges : Nat
  returnEdges : Nat

/-- Counts the nodes and edges of a context graph. -/
def ContextGraph.stats {C : Type} [Context C] (g : ContextGraph C) : ContextGraphStats :=
  let count kind := (g.edgesOfKind kind).length
  { pointerNodes := g.nodes.countP (·.kind.isPointer)
    objectNodes := g.nodes.countP (·.kind.isObject)
    lazyFieldNodes := g.lazyFields
    addrEdges := count .addr
    copyEdges := count .copy
    loadEdges := count .load
    storeEdges := count .store
    fieldEdges := count .field + count .anyField
    callEdges := count .call
    returnEdges := count .ret }

def ContextGraphStats.toJson (s : ContextGraphStats) : Json :=
  .record
    [("pointer_nodes", .natural s.pointerNodes), ("object_nodes", .natural s.objectNodes),
      ("lazy_field_nodes", .natural s.lazyFieldNodes), ("addr_edges", .natural s.addrEdges),
      ("copy_edges", .natural s.copyEdges), ("load_edges", .natural s.loadEdges),
      ("store_edges", .natural s.storeEdges), ("gep_edges", .natural s.fieldEdges),
      ("call_edges", .natural s.callEdges), ("ret_edges", .natural s.returnEdges)]

end PointerAnalysis
