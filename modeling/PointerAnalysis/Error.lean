/-!
Why an analysis is refused before it starts: its configuration is wrong, its input graph has a
defect or cannot be read, or it names an entry function that the program lacks.
-/

namespace PointerAnalysis

/-- What can be wrong with a configuration. -/
inductive ConfigError where
  /-- a number outside the range of its field -/
  | range (field : String) (value min max : Nat) (hint : String)
  | unknownPreset (name : String)
  | invalid (reason : String)
deriving DecidableEq

namespace ConfigError

/-- The text that reports the error. -/
def message : ConfigError → String
  | range field value min max hint =>
    s!"Invalid range for field '{field}': {value} not in {min}..={max}. {hint}"
  | unknownPreset name =>
    s!"Unknown preset '{name}'. Valid presets: fast, balanced, thorough, custom"
  | invalid reason => s!"Validation error: {reason}"

end ConfigError

/-- Why an analysis is refused. -/
inductive AnalysisError where
  | config (e : ConfigError)
  | malformed (reason : String)
  | unknownEntry (name : String)
deriving DecidableEq

namespace AnalysisError

/-- The text that reports the error. -/
def message : AnalysisError → String
  | config e => s!"Configuration error: {e.message}"
  | malformed reason => s!"Malformed input graph: {reason}"
  | unknownEntry name => s!"Unknown entry function '{name}': not found in the call graph"

end AnalysisError

end PointerAnalysis
