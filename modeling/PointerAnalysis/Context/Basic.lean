/-!
Calling contexts. The analysis keeps one copy of a function's variables per context; it needs to
compare contexts, to order them, to name the one context of code that has none, and to write them.
-/

namespace PointerAnalysis

/-- A type of calling contexts: linearly ordered, with an empty context and a written form. -/
class Context (C : Type) extends Ord C where
  empty : C
  render : C → String
  [decEq : DecidableEq C]
  [trans : Std.TransOrd C]
  [lawfulEq : Std.LawfulEqOrd C]

attribute [reducible, instance] Context.decEq
attribute [instance] Context.trans Context.lawfulEq

end PointerAnalysis
