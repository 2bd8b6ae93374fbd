/-!
JSON values. Members of an object keep their order and may repeat a key. Numbers are told apart only
as far as identifiers need it: a plain run of digits is a natural number, anything else with a sign,
a fraction or an exponent is kept as it is written.
-/

namespace PointerAnalysis

/-- A JSON value. -/
inductive Json where
  | null
  | bool (b : Bool)
  /-- a number written as digits only -/
  | natural (n : Nat)
  /-- a number with a sign, a fraction or an exponent -/
  | number (literal : String)
  /-- a string; one whose escapes leave a surrogate without its partner is legal but has no text -/
  | string (text : Option String)
  | array (items : List Json)
  | object (members : List (Option String × Json))

namespace Json

/-- A string with a text. -/
def text (s : String) : Json := .string (some s)

/-- An object whose keys have a text. -/
def record (members : List (String × Json)) : Json :=
  .object (members.map fun (k, v) => (some k, v))

/-- A list of natural numbers. -/
def naturals (ns : List Nat) : Json := .array (ns.map .natural)

/-- A value that may be absent, which is written as null. -/
def nullable {α : Type} (write : α → Json) : Option α → Json
  | some a => write a
  | none => .null

end Json

end PointerAnalysis
