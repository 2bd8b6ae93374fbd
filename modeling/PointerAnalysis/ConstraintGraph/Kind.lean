import PointerAnalysis.AssignmentGraph.Kind
import PointerAnalysis.Offset

/-!
Constraints between points-to sets, and the classes in which a node keeps them.
-/

namespace PointerAnalysis

/-- How a constraint relates the points-to sets of its end points. -/
inductive ConstraintKind where
  /-- the target holds the source object -/
  | addr
  /-- the target holds all that the source holds -/
  | copy
  /-- the target holds the field at an offset of every object that the source holds -/
  | field (offset : Offset)
  /-- the target holds every object that the source holds, with all its fields -/
  | anyField
  /-- the target holds all that is held by an object that the source holds -/
  | load
  /-- every object that the target holds holds all that the source holds -/
  | store
deriving DecidableEq

/-- The classes of constraints. Direct ones relate the two end points themselves. -/
inductive EdgeClass where
  | addr
  | direct
  | load
  | store
deriving DecidableEq

namespace EdgeClass

/-- All classes, in their fixed order. -/
def all : List EdgeClass := [addr, direct, load, store]

/-- The name under which a class is written. -/
def name : EdgeClass → String
  | addr => "Addr"
  | direct => "Direct"
  | load => "Load"
  | store => "Store"

/-- The class written as `s`. -/
def ofName? (s : String) : Option EdgeClass := all.find? (·.name == s)

end EdgeClass

namespace ConstraintKind

/-- The constraint that an edge of a program graph gives rise to; calls, returns and the start and
end of threads copy. -/
def ofEdge (kind : EdgeKind) (offset : Offset) : ConstraintKind :=
  match kind with
  | .addr => addr
  | .copy | .call | .ret | .fork | .join => copy
  | .field => field offset
  | .anyField => anyField
  | .load => load
  | .store => store

/-- The class of a constraint. -/
def edgeClass : ConstraintKind → EdgeClass
  | addr => .addr
  | copy | field _ | anyField => .direct
  | load => .load
  | store => .store

theorem edgeClass_eq_addr_iff {kind : ConstraintKind} : kind.edgeClass = .addr ↔ kind = .addr := by
  cases kind <;> simp [edgeClass]

/-- The place of a kind in a fixed order; all projections to fixed fields share one. -/
def rank : ConstraintKind → Nat
  | addr => 0
  | copy => 1
  | field _ => 2
  | anyField => 3
  | load => 4
  | store => 5

/-- The offset of a projection to a fixed field, and zero for any other kind. -/
def offset : ConstraintKind → Offset
  | field o => o
  | _ => 0

theorem eq_of_rank_offset {a b : ConstraintKind} (hrank : a.rank = b.rank)
    (hoffset : a.offset = b.offset) : a = b := by
  cases a <;> cases b <;> simp_all [rank, offset]

/-- Whether the constraint projects to fields. -/
def isProjection : ConstraintKind → Bool
  | field _ | anyField => true
  | _ => false

/-- Whether going round the constraint again and again would reach ever new fields. -/
def isShifting : ConstraintKind → Bool
  | field offset => !offset.isZero
  | anyField => true
  | _ => false

end ConstraintKind

end PointerAnalysis
