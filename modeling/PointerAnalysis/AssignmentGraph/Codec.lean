import PointerAnalysis.AssignmentGraph.Check
import PointerAnalysis.Json.Decode
import PointerAnalysis.Json.Parse
import PointerAnalysis.Json.Render

/-!
Assignment graphs as JSON. Every field is written, in a fixed order; on reading, fields with a
default may be left out. A text is accepted only if the graph it denotes has no defect.
-/

namespace PointerAnalysis

open Json (text record nullable)

namespace Offset

def toJson (o : Offset) : Json := record [("offset", .natural o.units.toNat)]

def ofJson? (j : Json) : Option Offset := do
  match ← j.fields ["offset"] with
  | [units] => return ⟨← units.required Json.toWord⟩
  | _ => none

end Offset

namespace ProgramValue

def toJson : ProgramValue → Json
  | instruction f => record [("Instruction", .natural f)]
  | argument f => record [("Argument", .natural f)]
  | function f => record [("Function", .natural f)]
  | constant => text "Constant"
  | inlineAsm => text "InlineAsm"

def ofJson? (j : Json) : Option ProgramValue := do
  match ← j.alternative with
  | ("Instruction", f) => return .instruction (← f.toId)
  | ("Argument", f) => return .argument (← f.toId)
  | ("Function", f) => return .function (← f.toId)
  | ("Constant", .null) => return .constant
  | ("InlineAsm", .null) => return .inlineAsm
  | _ => none

end ProgramValue

namespace Node

def toJson (n : Node) : Json :=
  record
    [("id", .natural n.id), ("kind", text n.kind.name),
      ("value", nullable ProgramValue.toJson n.value),
      ("mem_obj", nullable .natural n.memObj), ("location", n.offset.toJson),
      ("name", nullable text n.name)]

def ofJson? (j : Json) : Option Node := do
  match ← j.fields ["id", "kind", "value", "mem_obj", "location", "name"] with
  | [id, kind, value, memObj, offset, name] =>
    return {
      id := ← id.required Json.toId
      kind := ← kind.required (Json.toNamed NodeKind.ofName?)
      value := ← value.optional ProgramValue.ofJson?
      memObj := ← memObj.optional Json.toId
      offset := ← offset.withDefault 0 Offset.ofJson?
      name := ← name.withDefault none (Json.toOption Json.toText) }
  | _ => none

end Node

namespace MemObject

def toJson (m : MemObject) : Json :=
  record
    [("id", .natural m.id), ("base_node", .natural m.baseNode),
      ("num_fields", .natural m.numFields.toNat), ("type_name", nullable text m.typeName),
      ("is_constant", .bool m.isConstant), ("has_pointers", .bool m.hasPointers),
      ("field_insensitive", .bool m.fieldInsensitive)]

def ofJson? (j : Json) : Option MemObject := do
  match ← j.fields ["id", "base_node", "num_fields", "type_name", "is_constant", "has_pointers",
    "field_insensitive"] with
  | [id, baseNode, numFields, typeName, isConstant, hasPointers, fieldInsensitive] =>
    return {
      id := ← id.required Json.toId
      baseNode := ← baseNode.required Json.toId
      numFields := ← numFields.required Json.toWord
      typeName := ← typeName.withDefault none (Json.toOption Json.toText)
      isConstant := ← isConstant.withDefault false Json.toBool
      hasPointers := ← hasPointers.withDefault true Json.toBool
      fieldInsensitive := ← fieldInsensitive.withDefault false Json.toBool }
  | _ => none

end MemObject

namespace Edge

def toJson (e : Edge) : Json :=
  record
    [("id", .natural e.id), ("kind", text e.kind.name), ("src", .natural e.src),
      ("dst", .natural e.dst), ("location", e.offset.toJson),
      ("call_site", nullable .natural e.callSite)]

def ofJson? (j : Json) : Option Edge := do
  match ← j.fields ["id", "kind", "src", "dst", "location", "call_site"] with
  | [id, kind, src, dst, offset, callSite] =>
    return {
      id := ← id.required Json.toId
      kind := ← kind.required (Json.toNamed EdgeKind.ofName?)
      src := ← src.required Json.toId
      dst := ← dst.required Json.toId
      offset := ← offset.withDefault 0 Offset.ofJson?
      callSite := ← callSite.withDefault none (Json.toOption Json.toId) }
  | _ => none

end Edge

namespace AssignmentGraph

def toJson (g : AssignmentGraph) : Json :=
  record
    [("nodes", .array (g.nodes.toList.map Node.toJson)),
      ("edges", .array (g.edges.toList.map Edge.toJson)),
      ("mem_objs", .array (g.memObjs.toList.map MemObject.toJson))]

/-- The graph that a value denotes, which may have defects. -/
def ofJson? (j : Json) : Option AssignmentGraph := do
  match ← j.fields ["nodes", "edges", "mem_objs"] with
  | [nodes, edges, memObjs] =>
    return {
      nodes := (← nodes.required (Json.toListOf Node.ofJson?)).toArray
      edges := (← edges.required (Json.toListOf Edge.ofJson?)).toArray
      memObjs := (← memObjs.required (Json.toListOf MemObject.ofJson?)).toArray }
  | _ => none

/-- The written form of a graph. -/
def render (g : AssignmentGraph) : String := g.toJson.render

/-- Why a text denotes no usable graph. -/
inductive Unreadable where
  /-- it is not the written form of a graph -/
  | notAGraph
  /-- the graph has a defect -/
  | defective (d : Defect)

/-- The graph that a text denotes, if the graph has no defect. -/
def parse (s : String) : Except Unreadable AssignmentGraph :=
  match (Json.parse s).bind ofJson? with
  | none => .error .notAGraph
  | some g =>
    match g.check with
    | .ok _ => .ok g
    | .error d => .error (.defective d)

end AssignmentGraph

end PointerAnalysis
