import PointerAnalysis.Context.CallString
import PointerAnalysis.Context.Origin
import PointerAnalysis.IdSet
import PointerAnalysis.Json.Decode

/-!
Contexts and points-to sets as JSON.
-/

namespace PointerAnalysis

namespace CallString

def toJson (c : CallString) : Json := .record [("frames", .naturals c.frames)]

def ofJson? (j : Json) : Option CallString := do
  match ← j.fields ["frames"] with
  | [frames] => return ⟨← frames.required (Json.toListOf Json.toId)⟩
  | _ => none

end CallString

namespace Origin

def toJson (o : Origin) : Json := Json.nullable .natural o.id

end Origin

namespace IdSet

def toJson (s : IdSet) : Json := .record [("elements", .naturals s.toList)]

end IdSet

end PointerAnalysis
