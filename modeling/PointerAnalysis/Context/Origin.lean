import PointerAnalysis.Ident
import PointerAnalysis.Context.Basic

/-!
Origins: a context given by the entry point under which code runs. Origin 0 is the main program;
code that belongs to no function has no origin.
-/

namespace PointerAnalysis

/-- The origin under which code runs, if it has one. -/
structure Origin where
  id : Option Nat
deriving DecidableEq

namespace Origin

/-- Having no origin comes first, then the origins by number. -/
instance : Ord Origin := ⟨compareOn id⟩

instance : Std.TransOrd Origin := inferInstanceAs (Std.TransCmp (compareOn id))

instance : Std.LawfulEqOrd Origin where
  eq_of_compare {a b} h := by
    have : a.id = b.id := Std.LawfulEqOrd.eq_of_compare h
    obtain ⟨a⟩ := a
    obtain ⟨b⟩ := b
    exact congrArg Origin.mk this

/-- The number of the main program's origin. -/
def mainProgram : Nat := 0

/-- The absence of an origin. -/
def absent : Origin := ⟨none⟩

/-- The origin with a given number. -/
def ofNat (n : Nat) : Origin := ⟨some n⟩

/-- The written form; the main program's origin is named. -/
def render : Origin → String
  | ⟨none⟩ => "( no origin )"
  | ⟨some 0⟩ => "( origin: MAIN )"
  | ⟨some n⟩ => s!"( origin: {n} )"

instance : Context Origin where
  empty := absent
  render := render

end Origin

end PointerAnalysis
