import PointerAnalysis.Ident

/-!
The kinds of nodes and edges of an assignment graph, and the program values that nodes stand for.
-/

namespace PointerAnalysis

/-- What a node stands for. -/
inductive NodeKind where
  /-- a pointer-valued variable or temporary -/
  | value
  /-- the return value of a function -/
  | returned
  /-- the variable arguments of a function -/
  | variadic
  /-- a pointer to a field -/
  | fieldValue
  /-- a pointer that no program text mentions -/
  | dummyValue
  /-- a memory object as a whole -/
  | baseObject
  /-- one field of a memory object -/
  | fieldObject
  /-- an object that no program text mentions -/
  | dummyObject
deriving DecidableEq

namespace NodeKind

/-- All node kinds, in their fixed order. -/
def all : List NodeKind :=
  [value, returned, variadic, fieldValue, dummyValue, baseObject, fieldObject, dummyObject]

/-- The name under which a kind is written. -/
def name : NodeKind → String
  | value => "Val"
  | returned => "Ret"
  | variadic => "Vararg"
  | fieldValue => "GepVal"
  | dummyValue => "DummyVal"
  | baseObject => "FiObj"
  | fieldObject => "GepObj"
  | dummyObject => "DummyObj"

/-- The kind written as `s`. -/
def ofName? (s : String) : Option NodeKind := all.find? (·.name == s)

/-- Whether a node of this kind is a memory object or a part of one. -/
def isObject : NodeKind → Bool
  | baseObject | fieldObject | dummyObject => true
  | _ => false

/-- Whether a node of this kind is a pointer. -/
def isPointer (k : NodeKind) : Bool := !k.isObject

/-- Whether a node of this kind may lack a program value. -/
def isDummy : NodeKind → Bool
  | dummyValue | dummyObject => true
  | _ => false

end NodeKind

/-- How a pointer value flows along an edge. -/
inductive EdgeKind where
  /-- the pointer holds the object's address -/
  | addr
  | copy
  | load
  | store
  /-- projection to the field at a fixed offset -/
  | field
  /-- projection to a field that is not known statically -/
  | anyField
  /-- actual argument to formal parameter -/
  | call
  /-- returned value to call result -/
  | ret
  | fork
  | join
deriving DecidableEq

namespace EdgeKind

/-- All edge kinds, in their fixed order. -/
def all : List EdgeKind := [addr, copy, load, store, field, anyField, call, ret, fork, join]

/-- The place of a kind in `all`. -/
def rank : EdgeKind → Nat
  | addr => 0
  | copy => 1
  | load => 2
  | store => 3
  | field => 4
  | anyField => 5
  | call => 6
  | ret => 7
  | fork => 8
  | join => 9

theorem rank_injective {a b : EdgeKind} (h : a.rank = b.rank) : a = b := by
  cases a <;> cases b <;> simp_all [rank]

/-- Kinds are ordered by their ranks. -/
instance : Ord EdgeKind := ⟨compareOn rank⟩

instance : Std.TransOrd EdgeKind := inferInstanceAs (Std.TransCmp (compareOn rank))

instance : Std.LawfulEqOrd EdgeKind where
  eq_of_compare h := rank_injective (Std.LawfulEqOrd.eq_of_compare h)

/-- The name under which a kind is written. -/
def name : EdgeKind → String
  | addr => "Addr"
  | copy => "Copy"
  | load => "Load"
  | store => "Store"
  | field => "NormalGep"
  | anyField => "VariantGep"
  | call => "Call"
  | ret => "Ret"
  | fork => "ThreadFork"
  | join => "ThreadJoin"

/-- The kind written as `s`. -/
def ofName? (s : String) : Option EdgeKind := all.find? (·.name == s)

/-- Whether an edge of this kind stays inside one function. -/
def isIntra : EdgeKind → Bool
  | call | ret | fork | join => false
  | _ => true

/-- Whether an edge of this kind moves a value without following a pointer, inside one function. -/
def isDirect : EdgeKind → Bool
  | addr | copy | field | anyField => true
  | _ => false

end EdgeKind

/-- The part of the program text that a node stands for. -/
inductive ProgramValue where
  | instruction (func : FuncId)
  | argument (func : FuncId)
  | function (func : FuncId)
  | constant
  | inlineAsm
deriving DecidableEq

namespace ProgramValue

/-- The function in whose body the value is local. -/
def localTo : ProgramValue → Option FuncId
  | instruction f | argument f => some f
  | _ => none

end ProgramValue

end PointerAnalysis
