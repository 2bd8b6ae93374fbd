import PointerAnalysis.Config.Basic
import PointerAnalysis.Json.Decode

/-!
Configurations as JSON. Every field is written, and every field must be given.
-/

namespace PointerAnalysis

namespace Preset

def toJson (p : Preset) : Json := .text p.name

def ofJson? : Json → Option Preset := Json.toNamed ofName?

end Preset

namespace Config

def toJson (c : Config) : Json :=
  .record
    [("context", .text c.context.name), ("k_limit", .natural c.kLimit),
      ("entry_functions", .array (c.entryFunctions.map .text)), ("solver", .text c.solver.name),
      ("field_sensitive", .bool c.fieldSensitive)]

def ofJson? (j : Json) : Option Config := do
  match ← j.fields ["context", "k_limit", "entry_functions", "solver", "field_sensitive"] with
  | [context, kLimit, entryFunctions, solver, fieldSensitive] =>
    return {
      context := ← context.required (Json.toNamed ContextKind.ofName?)
      kLimit := ← kLimit.required (Json.toNatBelow 0x10000000000000000)
      entryFunctions := ← entryFunctions.required (Json.toListOf Json.toText)
      solver := ← solver.required (Json.toNamed Strategy.ofName?)
      fieldSensitive := ← fieldSensitive.required Json.toBool }
  | _ => none

end Config

end PointerAnalysis
