import PointerAnalysis.Error
import PointerAnalysis.Ident
import PointerAnalysis.Solver.Strategy

/-!
Configurations of an analysis: how contexts are told apart, how the constraints are solved, and
whether the fields of objects are told apart.
-/

namespace PointerAnalysis

/-- A way of telling contexts apart. -/
inductive ContextKind where
  | callString
  | origin
deriving DecidableEq

namespace ContextKind

/-- The name under which a kind is written. -/
def name : ContextKind → String
  | callString => "call_string"
  | origin => "origin"

/-- The kind written as `s`. -/
def ofName? (s : String) : Option ContextKind := [callString, origin].find? (·.name == s)

end ContextKind

/-- How an analysis is to be made. -/
structure Config where
  context : ContextKind
  /-- the depth at which call strings are cut -/
  kLimit : Nat
  /-- the functions that open origins -/
  entryFunctions : List String
  solver : Strategy
  fieldSensitive : Bool
deriving DecidableEq

/-- A configuration that is known by name. -/
inductive Preset where
  | fast
  | balanced
  | thorough
  | custom
deriving DecidableEq

namespace Preset

/-- All presets. -/
def all : List Preset := [fast, balanced, thorough, custom]

/-- The name of a preset. -/
def name : Preset → String
  | fast => "fast"
  | balanced => "balanced"
  | thorough => "thorough"
  | custom => "custom"

/-- The preset with exactly this name. -/
def ofName? (s : String) : Option Preset := all.find? (·.name == s)

/-- The preset that is taken unless another is asked for. -/
def default : Preset := balanced

/-- The preset that a user names, in upper or lower case. The one character outside ASCII whose
lower case is an ASCII letter is the Kelvin sign; no preset has a k in its name. -/
def ofUserName (s : String) : Except ConfigError Preset :=
  match ofName? (s.map Char.toLower) with
  | some p => .ok p
  | none => .error (.unknownPreset s)

/-- The configuration of a preset. -/
def config : Preset → Config
  | fast =>
    { context := .callString, kLimit := 1, entryFunctions := [], solver := .wave,
      fieldSensitive := false }
  | balanced | custom =>
    { context := .callString, kLimit := 2, entryFunctions := [], solver := .waveDiff,
      fieldSensitive := true }
  | thorough =>
    { context := .callString, kLimit := 3, entryFunctions := [], solver := .waveDiff,
      fieldSensitive := true }

end Preset

namespace Config

/-- The configuration that is taken unless another is asked for. -/
def default : Config := Preset.default.config

/-- The default with contexts by origin. -/
def ofEntries (names : List String) : Config :=
  { default with context := .origin, entryFunctions := names }

/-- The deepest call strings that are allowed. -/
def maxDepth : Nat := 8

/-- Checks names of entry functions, given those before them. -/
def checkEntries (before : List String) : List String → Except ConfigError Unit
  | [] => .ok ()
  | name :: rest =>
    if name = "" then .error (.invalid "entry function names must not be empty")
    else if name ∈ before then .error (.invalid s!"entry function '{name}' listed twice")
    else checkEntries (name :: before) rest

/-- Checks a configuration: call strings are cut at a depth between one and eight, and contexts by
origin need entry functions, each listed once. -/
def check (c : Config) : Except ConfigError Unit :=
  if c.kLimit = 0 ∨ maxDepth < c.kLimit then
    .error (.range "k_limit" c.kLimit 1 maxDepth
      "Call-string contexts grow exponentially with depth")
  else
    match c.context, c.entryFunctions with
    | .callString, _ => .ok ()
    | .origin, [] => .error (.invalid "origin contexts require at least one entry function")
    | .origin, names => checkEntries [] names

end Config

end PointerAnalysis
