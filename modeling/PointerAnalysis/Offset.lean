/-!
Field offsets. An offset is a 32-bit word; sums wrap around, and inside an object of known size an
offset is reduced modulo that size.
-/

namespace PointerAnalysis

/-- The position of a field inside a memory object. -/
structure Offset where
  units : UInt32
deriving DecidableEq

namespace Offset

instance : OfNat Offset 0 := ⟨⟨0⟩⟩

instance : Add Offset := ⟨fun a b => ⟨a.units + b.units⟩⟩

instance : Ord Offset := ⟨compareOn units⟩

instance : Std.TransOrd Offset := inferInstanceAs (Std.TransCmp (compareOn units))

instance : Std.LawfulEqOrd Offset where
  eq_of_compare {a b} h := by
    have : a.units = b.units := Std.LawfulEqOrd.eq_of_compare h
    obtain ⟨a⟩ := a
    obtain ⟨b⟩ := b
    exact congrArg Offset.mk this

/-- Whether the offset names the start of the object. -/
def isZero (o : Offset) : Bool := o.units == 0

/-- The offset modulo `size`; a size of zero leaves it as it is. -/
def reduce (o : Offset) (size : UInt32) : Offset :=
  if size = 0 then o else ⟨o.units % size⟩

/-- The written form, a plus sign and the decimal number. -/
def render (o : Offset) : String := s!"+{o.units}"

@[simp] theorem units_zero : (0 : Offset).units = 0 := rfl

@[simp] theorem units_add (a b : Offset) : (a + b).units = a.units + b.units := rfl

theorem isZero_iff {o : Offset} : o.isZero = true ↔ o = 0 := by
  obtain ⟨u⟩ := o
  simp [isZero, OfNat.ofNat, Offset.mk.injEq]

end Offset

end PointerAnalysis
