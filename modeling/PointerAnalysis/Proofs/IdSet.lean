import Mathlib.Data.Finset.Sort
import PointerAnalysis.Analysis

/-!
Sets of identifiers are finite sets. Whatever operations lead to a set, it lists the elements that
the same operations on finite sets lead to, in ascending order. The operations that change a set
report whether it grew or shrank, the questions about sets are answered as for finite sets, and two
sets are equal if and only if they have the same elements.
-/

namespace PointerAnalysis

namespace IdSet

variable {s t : IdSet}

/-! ## The finite set of the elements -/

/-- The elements, without their order. -/
def toFinset (s : IdSet) : Finset Nat := s.toList.toFinset

@[simp] theorem mem_toFinset {x : Nat} : x ∈ s.toFinset ↔ x ∈ s := List.mem_toFinset

/-- The order of the list is all that is forgotten, and it can be restored. -/
theorem toList_eq_sort (s : IdSet) : s.toList = s.toFinset.sort := by
  have hnodup : s.toList.Nodup := s.ascending.imp Nat.ne_of_lt
  exact ((List.toFinset_sort _ hnodup).mpr (s.ascending.imp Nat.le_of_lt)).symm

theorem toFinset_inj : s.toFinset = t.toFinset ↔ s = t := by
  refine ⟨fun h => ext fun x => ?_, fun h => h ▸ rfl⟩
  rw [← mem_toFinset, h, mem_toFinset]

theorem toFinset_subset : s.toFinset ⊆ t.toFinset ↔ s ⊆ t := by
  simp only [Finset.subset_iff, mem_toFinset, subset_def]

@[simp] theorem toFinset_empty : toFinset ∅ = ∅ := rfl

@[simp] theorem toFinset_singleton (x : Nat) : toFinset {x} = {x} := rfl

@[simp] theorem toFinset_ofList (xs : List Nat) : (ofList xs).toFinset = xs.toFinset := by
  ext x
  simp

@[simp] theorem toFinset_add (s : IdSet) (x : Nat) :
    (s.add x).1.toFinset = Insert.insert x s.toFinset := by
  ext y
  rw [mem_toFinset, Finset.mem_insert, mem_toFinset]
  exact mem_insert

@[simp] theorem toFinset_absorb (s t : IdSet) :
    (s.absorb t).1.toFinset = s.toFinset ∪ t.toFinset := by
  ext x
  simp

@[simp] theorem toFinset_retain (s t : IdSet) :
    (s.retain t).1.toFinset = s.toFinset ∩ t.toFinset := by
  ext x
  rw [mem_toFinset, Finset.mem_inter, mem_toFinset, mem_toFinset]
  exact mem_inter

@[simp] theorem toFinset_difference (s t : IdSet) :
    (s.difference t).toFinset = s.toFinset \ t.toFinset := by
  ext x
  rw [mem_toFinset, Finset.mem_sdiff, mem_toFinset, mem_toFinset]
  exact mem_sdiff

/-! ## What is reported -/

/-- Adding an element reports whether the set grew. -/
theorem snd_add_iff (s : IdSet) (x : Nat) :
    (s.add x).2 = true ↔ s.toFinset ⊂ Insert.insert x s.toFinset := by
  rw [snd_add, Bool.not_eq_true', decide_eq_false_iff_not, ← mem_toFinset]
  constructor
  · exact Finset.ssubset_insert
  · intro hgrew hx
    rw [Finset.insert_eq_of_mem hx] at hgrew
    exact hgrew.ne rfl

/-- Adding a set reports whether the set grew. -/
theorem snd_absorb_iff (s t : IdSet) :
    (s.absorb t).2 = true ↔ s.toFinset ⊂ s.toFinset ∪ t.toFinset := by
  rw [snd_absorb, Bool.not_eq_true', decide_eq_false_iff_not, ← toFinset_subset]
  exact left_lt_sup.symm

/-- Dropping elements reports whether the set shrank. -/
theorem snd_retain_iff (s t : IdSet) :
    (s.retain t).2 = true ↔ s.toFinset ∩ t.toFinset ⊂ s.toFinset := by
  rw [snd_retain, Bool.not_eq_true', decide_eq_false_iff_not, ← toFinset_subset]
  exact inf_lt_left.symm

/-! ## All operations -/

/-- A set behaves like a finite set, alone and together with another one. -/
structure Agrees (s t : IdSet) (S T : Finset Nat) : Prop where
  ascending : s.elements.toList.Pairwise (· < ·)
  elements : s.elements.toList = S.sort
  contains : ∀ x, s.contains x = true ↔ x ∈ S
  add : ∀ x, (s.add x).1.elements.toList = (Insert.insert x S).sort ∧
    ((s.add x).2 = true ↔ S ⊂ Insert.insert x S)
  absorb : (s.absorb t).1.elements.toList = (S ∪ T).sort ∧ ((s.absorb t).2 = true ↔ S ⊂ S ∪ T)
  retain : (s.retain t).1.elements.toList = (S ∩ T).sort ∧ ((s.retain t).2 = true ↔ S ∩ T ⊂ S)
  difference : (s.difference t).elements.toList = (S \ T).sort
  subset : s.isSubsetOf t = true ↔ S ⊆ T
  intersects : s.intersects t = true ↔ (S ∩ T).Nonempty
  eq : decide (s = t) = true ↔ S = T

theorem agrees_toFinset (s t : IdSet) : Agrees s t s.toFinset t.toFinset where
  ascending := s.sorted
  elements := s.toList_eq_sort
  contains x := contains_iff.trans mem_toFinset.symm
  add x := ⟨by rw [← toFinset_add]; exact toList_eq_sort _, s.snd_add_iff x⟩
  absorb := ⟨by rw [← toFinset_absorb]; exact toList_eq_sort _, s.snd_absorb_iff t⟩
  retain := ⟨by rw [← toFinset_retain]; exact toList_eq_sort _, s.snd_retain_iff t⟩
  difference := by rw [← toFinset_difference]; exact toList_eq_sort _
  subset := isSubsetOf_iff.trans toFinset_subset.symm
  intersects := by
    rw [intersects_iff]
    exact exists_congr fun x => by simp
  eq := by rw [decide_eq_true_iff, toFinset_inj]

/-- The operations that lead to a set. -/
inductive Term where
  | empty
  | singleton (x : Nat)
  | ofList (xs : List Nat)
  | add (t : Term) (x : Nat)
  | absorb (t u : Term)
  | retain (t u : Term)
  | difference (t u : Term)
  | clear (t : Term)

namespace Term

/-- The set to which the operations lead. -/
def eval : Term → IdSet
  | empty => ∅
  | singleton x => {x}
  | ofList xs => .ofList xs
  | add t x => (t.eval.add x).1
  | absorb t u => (t.eval.absorb u.eval).1
  | retain t u => (t.eval.retain u.eval).1
  | difference t u => t.eval.difference u.eval
  | clear _ => ∅

/-- The elements that the operations on finite sets lead to. -/
def elements : Term → Finset Nat
  | empty => ∅
  | singleton x => {x}
  | ofList xs => xs.toFinset
  | add t x => Insert.insert x t.elements
  | absorb t u => t.elements ∪ u.elements
  | retain t u => t.elements ∩ u.elements
  | difference t u => t.elements \ u.elements
  | clear _ => ∅

theorem toFinset_eval (t : Term) : t.eval.toFinset = t.elements := by
  induction t with
  | empty => exact toFinset_empty
  | singleton x => exact toFinset_singleton x
  | ofList xs => exact toFinset_ofList xs
  | add t x ih => rw [eval, toFinset_add, ih, elements]
  | absorb t u iht ihu => rw [eval, toFinset_absorb, iht, ihu, elements]
  | retain t u iht ihu => rw [eval, toFinset_retain, iht, ihu, elements]
  | difference t u iht ihu => rw [eval, toFinset_difference, iht, ihu, elements]
  | clear t => exact toFinset_empty

end Term

/-- Any two sets that operations lead to behave like the finite sets that the same operations lead
to; so whether two pointers may be aliases is answered exactly. -/
theorem operations_refine_finsets (t u : Term) {C : Type} [Context C] (solution : Solution C)
    (a b : NodeId) :
    Agrees t.eval u.eval t.elements u.elements ∧
      (solution.mayAlias a b = true ↔ ∃ o, o ∈ solution.pointsTo a ∧ o ∈ solution.pointsTo b) := by
  refine ⟨?_, intersects_iff⟩
  rw [← t.toFinset_eval, ← u.toFinset_eval]
  exact agrees_toFinset t.eval u.eval

end IdSet

end PointerAnalysis
