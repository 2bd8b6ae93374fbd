/-!
Solving strategies: in which order, and how much at a time, points-to sets are sent along the
constraints.
-/

namespace PointerAnalysis

/-- A way of solving. -/
inductive Strategy where
  /-- every visit sends the whole set along all constraints of a node -/
  | baseline
  /-- a sweep along the direct constraints, then a drain along loads and stores -/
  | wave
  /-- the same, but only what is new is sent -/
  | waveDiff
deriving DecidableEq

namespace Strategy

/-- All strategies. -/
def all : List Strategy := [baseline, wave, waveDiff]

/-- The name under which a strategy is written. -/
def name : Strategy → String
  | baseline => "baseline"
  | wave => "wave"
  | waveDiff => "wave_diff"

/-- The strategy written as `s`. -/
def ofName? (s : String) : Option Strategy := all.find? (·.name == s)

/-- Whether the strategy sweeps before it drains. -/
def isWave : Strategy → Bool
  | baseline => false
  | wave | waveDiff => true

end Strategy

end PointerAnalysis
