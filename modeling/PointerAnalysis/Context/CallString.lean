import PointerAnalysis.Ident
import PointerAnalysis.Context.Basic

/-!
Call strings: a context given by the chain of callers that led to a function, the most recent caller
first.
-/

namespace PointerAnalysis

/-- A chain of callers, the most recent one first. -/
structure CallString where
  frames : List FuncId
deriving DecidableEq

namespace CallString

/-- Call strings are ordered like words in a dictionary. -/
instance : Ord CallString := ⟨compareOn frames⟩

instance : Std.TransOrd CallString := inferInstanceAs (Std.TransCmp (compareOn frames))

instance : Std.LawfulEqOrd CallString where
  eq_of_compare {a b} h := by
    have : a.frames = b.frames := Std.LawfulEqOrd.eq_of_compare h
    obtain ⟨a⟩ := a
    obtain ⟨b⟩ := b
    exact congrArg CallString.mk this

/-- The chain without callers. -/
def empty : CallString := ⟨[]⟩

/-- The number of callers. -/
def length (c : CallString) : Nat := c.frames.length

/-- Adds a caller behind the least recent one. -/
def push (c : CallString) (f : FuncId) : CallString := ⟨c.frames ++ [f]⟩

/-- The least recent caller, if any, and the chain without it. -/
def pop (c : CallString) : Option FuncId × CallString := (c.frames.getLast?, ⟨c.frames.dropLast⟩)

/-- The chain after a call by `f`, cut at `k` callers. -/
def enter (c : CallString) (f : FuncId) (k : Nat) : CallString := ⟨(f :: c.frames).take k⟩

/-- The written form: the callers joined by arrows, in braces. -/
def render (c : CallString) : String :=
  if c.frames.isEmpty then "( empty )"
  else "\x7b " ++ String.intercalate "->" (c.frames.map fun f => s!"{f}") ++ " \x7d"

instance : Context CallString where
  empty := empty
  render := render

end CallString

end PointerAnalysis
