import PointerAnalysis.Json.Basic

/-!
Reading data out of JSON values. A record is given as an object, whose unknown members are ignored
and whose known ones may not be repeated, or as an array of its fields in their order. A choice
between named alternatives is given by the name, or as an object with that one member.
-/

namespace PointerAnalysis.Json

/-- A natural number below a bound. -/
def toNatBelow (bound : Nat) : Json → Option Nat
  | .natural n => if n < bound then some n else none
  | _ => none

/-- An identifier, which is a number of 32 bits. -/
def toId : Json → Option Nat := toNatBelow 0x100000000

/-- A 32-bit word. -/
def toWord (j : Json) : Option UInt32 := j.toId.map UInt32.ofNat

def toBool : Json → Option Bool
  | .bool b => some b
  | _ => none

def toText : Json → Option String
  | .string s => s
  | _ => none

/-- A list, every item of which can be read. -/
def toListOf {α : Type} (read : Json → Option α) : Json → Option (List α)
  | .array items => items.mapM read
  | _ => none

/-- Null for an absent value. -/
def toOption {α : Type} (read : Json → Option α) : Json → Option (Option α)
  | .null => some none
  | j => (read j).map some

/-! ## Records -/

/-- How a field of a record is given. -/
inductive Field where
  | present (value : Json)
  /-- an object without the member -/
  | omitted
  /-- an array that is too short -/
  | cutOff

namespace Field

/-- A field that must be present. -/
def required {α : Type} (read : Json → Option α) : Field → Option α
  | present j => read j
  | _ => none

/-- A field that may be null, or omitted from an object. -/
def optional {α : Type} (read : Json → Option α) : Field → Option (Option α)
  | present j => j.toOption read
  | omitted => some none
  | cutOff => none

/-- A field that has a default value. -/
def withDefault {α : Type} (default : α) (read : Json → Option α) : Field → Option α
  | present j => read j
  | _ => some default

end Field

/-- How an object gives a field; nothing if it repeats it. -/
def fieldOf (members : List (Option String × Json)) (name : String) : Option Field :=
  match members.filter (·.1 == some name) with
  | [] => some .omitted
  | [(_, v)] => some (.present v)
  | _ => none

/-- The fields of a record, in the order of their names. -/
def fields (names : List String) : Json → Option (List Field)
  | .object members => do
    guard (members.all (·.1.isSome))
    names.mapM (fieldOf members)
  | .array items => do
    guard (items.length ≤ names.length)
    return items.map .present ++ List.replicate (names.length - items.length) .cutOff
  | _ => none

/-! ## Alternatives -/

/-- The name of an alternative, and what stands with it. -/
def alternative : Json → Option (String × Json)
  | .string s => s.map (·, .null)
  | .object [(some name, v)] => some (name, v)
  | _ => none

/-- An alternative that consists of its name only. -/
def toNamed {α : Type} (ofName? : String → Option α) (j : Json) : Option α :=
  match j.alternative with
  | some (name, .null) => ofName? name
  | _ => none

end PointerAnalysis.Json
