import PointerAnalysis.IdSet.Ascending

/-!
Finite sets of identifiers. A set is held as the array of its elements in strictly ascending order,
so two sets with the same elements are equal, and every enumeration of a set is ascending.
Points-to sets are such sets.
-/

namespace PointerAnalysis

/-- A finite set of identifiers, given by its elements in strictly ascending order. -/
structure IdSet where
  elements : Array Nat
  sorted : elements.toList.Pairwise (· < ·)
deriving DecidableEq

namespace IdSet

/-- The elements, ascending. -/
def toList (s : IdSet) : List Nat := s.elements.toList

theorem ascending (s : IdSet) : s.toList.Pairwise (· < ·) := s.sorted

instance : Membership Nat IdSet := ⟨fun s x => x ∈ s.toList⟩

theorem mem_def {s : IdSet} {x : Nat} : x ∈ s ↔ x ∈ s.toList := Iff.rfl

instance : HasSubset IdSet := ⟨fun s t => ∀ x ∈ s.toList, x ∈ t.toList⟩

theorem subset_def {s t : IdSet} : s ⊆ t ↔ ∀ x ∈ s, x ∈ t := Iff.rfl

instance : EmptyCollection IdSet := ⟨⟨#[], .nil⟩⟩

instance : Inhabited IdSet := ⟨∅⟩

instance : Singleton Nat IdSet := ⟨fun x => ⟨#[x], List.pairwise_singleton _ x⟩⟩

/-- The elements of a list, in any order and with any repetitions, as a set. -/
def ofList (xs : List Nat) : IdSet :=
  ⟨(Ascending.dropRepeats (Ascending.sort xs)).toArray,
    Ascending.pairwise_dropRepeats (Ascending.pairwise_sort xs)⟩

/-- The number of elements. -/
def size (s : IdSet) : Nat := s.elements.size

theorem length_toList (s : IdSet) : s.toList.length = s.size := Array.length_toList

/-- Whether the set has no element. -/
def isEmpty (s : IdSet) : Bool := s.elements.isEmpty

theorem isEmpty_iff {s : IdSet} : s.isEmpty = true ↔ ∀ x, x ∉ s := by
  rw [isEmpty, Array.isEmpty_iff, ← Array.toList_eq_nil_iff]
  exact List.eq_nil_iff_forall_not_mem

/-! ## One element -/

/-- Whether an element is in the set. -/
def contains (s : IdSet) (x : Nat) : Bool :=
  match Ascending.search s.elements x with
  | .found _ => true
  | .absent _ => false

theorem contains_iff {s : IdSet} {x : Nat} : s.contains x = true ↔ x ∈ s := by
  have hlocates := Ascending.locates_search s.sorted x
  unfold contains
  split
  · rename_i i hsearch
    rw [hsearch] at hlocates
    obtain ⟨hi, rfl⟩ := hlocates
    exact iff_of_true rfl (Array.mem_toList_iff.mpr (Array.getElem_mem hi))
  · rename_i i hsearch
    rw [hsearch] at hlocates
    obtain ⟨-, hlow, hhigh⟩ := hlocates
    refine iff_of_false Bool.false_ne_true fun hx => ?_
    rw [mem_def, toList, ← List.take_append_drop i s.elements.toList] at hx
    rcases List.mem_append.mp hx with hx | hx
    · exact Nat.lt_irrefl x (hlow x hx)
    · exact Nat.lt_irrefl x (hhigh x hx)

instance (x : Nat) (s : IdSet) : Decidable (x ∈ s) := decidable_of_iff _ contains_iff

/-- Adds one element, and says whether it was new. -/
def add (s : IdSet) (x : Nat) : IdSet × Bool :=
  match h : Ascending.search s.elements x with
  | .found _ => (s, false)
  | .absent i =>
    have hplace : (Ascending.Place.absent i).Locates s.elements x :=
      h ▸ Ascending.locates_search s.sorted x
    (⟨s.elements.insertIdx i x hplace.1, Ascending.pairwise_insertIdx s.sorted hplace⟩, true)

/-- The set together with one more element. -/
def insert (s : IdSet) (x : Nat) : IdSet := (s.add x).1

instance : Insert Nat IdSet := ⟨fun x s => s.insert x⟩

/-- The set without one element. -/
def erase (s : IdSet) (x : Nat) : IdSet :=
  ⟨s.elements.filter (· ≠ x), by rw [Array.toList_filter]; exact s.sorted.filter _⟩

/-! ## Two sets -/

/-- Whether all elements of `s` are in `t`. -/
def isSubsetOf (s t : IdSet) : Bool :=
  if s.size > t.size then false else Ascending.includesFrom t.elements s.toList 0

theorem isSubsetOf_iff {s t : IdSet} : s.isSubsetOf t = true ↔ s ⊆ t := by
  have hiff := Ascending.includesFrom_iff t.sorted s.ascending (j := 0)
  unfold isSubsetOf
  split
  · rename_i hsize
    refine iff_of_false Bool.false_ne_true fun hsub => ?_
    exact Nat.not_le_of_gt hsize (Ascending.length_le_of_includesFrom (hiff.mpr hsub))
  · exact hiff

instance (s t : IdSet) : Decidable (s ⊆ t) := decidable_of_iff _ isSubsetOf_iff

/-- Adds all elements of `t`, and says whether any was new. -/
def absorb (s t : IdSet) : IdSet × Bool :=
  if t.isEmpty then (s, false)
  else if s.isEmpty then (t, true)
  else if t.isSubsetOf s then (s, false)
  else
    (⟨Ascending.mergeFrom s.elements t.elements 0 0 #[],
      Ascending.pairwise_mergeFrom s.sorted t.sorted⟩, true)

/-- Drops the elements outside `t`, and says whether there was one. -/
def retain (s t : IdSet) : IdSet × Bool :=
  let kept : IdSet :=
    ⟨s.elements.filter t.contains, by rw [Array.toList_filter]; exact s.sorted.filter _⟩
  (kept, kept.size ≠ s.size)

/-- The elements of `s` that are not in `t`. -/
def difference (s t : IdSet) : IdSet :=
  ⟨Ascending.differenceFrom t.elements s.toList 0 #[],
    Ascending.toList_differenceFrom t.sorted s.ascending ▸ s.ascending.filter _⟩

/-- Whether two sets have an element in common. -/
def intersects (s t : IdSet) : Bool := Ascending.meetFrom s.elements t.elements 0 0

instance : Union IdSet := ⟨fun s t => (s.absorb t).1⟩

instance : Inter IdSet := ⟨fun s t => (s.retain t).1⟩

instance : SDiff IdSet := ⟨difference⟩

/-! ## Membership -/

/-- An ascending list is determined by its elements. -/
theorem eq_of_mem_iff {xs ys : List Nat} (hx : xs.Pairwise (· < ·)) (hy : ys.Pairwise (· < ·))
    (h : ∀ z, z ∈ xs ↔ z ∈ ys) : xs = ys := by
  induction xs generalizing ys with
  | nil =>
      exact (List.eq_nil_iff_forall_not_mem.mpr fun z hz => List.not_mem_nil ((h z).mpr hz)).symm
  | cons x xs ih =>
      cases ys with
      | nil => exact absurd ((h x).mp List.mem_cons_self) List.not_mem_nil
      | cons y ys =>
          obtain ⟨hxs, hxt⟩ := List.pairwise_cons.mp hx
          obtain ⟨hys, hyt⟩ := List.pairwise_cons.mp hy
          have hxy : x = y := by
            have h₁ := (h x).mp List.mem_cons_self
            have h₂ := (h y).mpr List.mem_cons_self
            grind
          subst hxy
          have htail : ∀ z, z ∈ xs ↔ z ∈ ys := by
            intro z
            have := h z
            grind
          rw [ih hxt hyt htail]

theorem ext {s t : IdSet} (h : ∀ x, x ∈ s ↔ x ∈ t) : s = t := by
  have heq := Array.toList_inj.mp (eq_of_mem_iff s.sorted t.sorted h)
  obtain ⟨xs, hxs⟩ := s
  obtain ⟨ys, hys⟩ := t
  cases heq
  rfl

@[simp] theorem not_mem_empty {x : Nat} : x ∉ (∅ : IdSet) := List.not_mem_nil

@[simp] theorem mem_singleton {x y : Nat} : x ∈ ({y} : IdSet) ↔ x = y := List.mem_singleton

@[simp] theorem mem_ofList {xs : List Nat} {x : Nat} : x ∈ ofList xs ↔ x ∈ xs :=
  Ascending.mem_dropRepeats.trans Ascending.mem_sort

@[simp] theorem mem_erase {s : IdSet} {x y : Nat} : x ∈ s.erase y ↔ x ∈ s ∧ x ≠ y := by
  rw [mem_def, toList, erase, Array.toList_filter, List.mem_filter, decide_eq_true_eq]
  exact Iff.rfl

/-- An element that is found is left where it is; any other is put at its place. -/
theorem add_cases (s : IdSet) (x : Nat) :
    x ∈ s ∧ s.add x = (s, false) ∨
      x ∉ s ∧ (s.add x).2 = true ∧ ∀ z, z ∈ (s.add x).1 ↔ z = x ∨ z ∈ s := by
  have hcontains : s.contains x = true ↔ x ∈ s := contains_iff
  unfold contains at hcontains
  unfold add
  split
  · rename_i i hsearch
    rw [hsearch] at hcontains
    exact .inl ⟨hcontains.mp rfl, rfl⟩
  · rename_i i hsearch
    rw [hsearch] at hcontains
    refine .inr ⟨mt hcontains.mpr Bool.false_ne_true, rfl, fun z => ?_⟩
    have hplace : (Ascending.Place.absent i).Locates s.elements x :=
      hsearch ▸ Ascending.locates_search s.sorted x
    rw [mem_def, toList, Array.toList_insertIdx, List.mem_insertIdx hplace.1]
    exact Iff.rfl

@[simp] theorem mem_insert {s : IdSet} {x y : Nat} : x ∈ s.insert y ↔ x = y ∨ x ∈ s := by
  rw [insert]
  rcases s.add_cases y with ⟨hy, hadd⟩ | ⟨-, -, hadd⟩
  · rw [hadd]
    exact ⟨.inr, fun h => h.elim (fun h => h ▸ hy) id⟩
  · exact hadd x

theorem snd_add (s : IdSet) (x : Nat) : (s.add x).2 = !decide (x ∈ s) := by
  rcases s.add_cases x with ⟨hx, hadd⟩ | ⟨hx, hadd, -⟩
  · rw [hadd, decide_eq_true hx]
    rfl
  · rw [hadd, decide_eq_false hx]
    rfl

/-- The shortcuts of a union give what merging would give. -/
theorem absorb_cases (s t : IdSet) :
    t ⊆ s ∧ s.absorb t = (s, false) ∨
      ¬ t ⊆ s ∧ (s.absorb t).2 = true ∧ ∀ x, x ∈ (s.absorb t).1 ↔ x ∈ s ∨ x ∈ t := by
  unfold absorb
  by_cases ht : t.isEmpty
  · rw [if_pos ht]
    exact .inl ⟨fun x hx => absurd hx (isEmpty_iff.mp ht x), rfl⟩
  rw [if_neg ht]
  by_cases hs : s.isEmpty
  · rw [if_pos hs]
    refine .inr ⟨fun hsub => ht (isEmpty_iff.mpr fun x hx => ?_), rfl, fun x => ?_⟩
    · exact isEmpty_iff.mp hs x (hsub x hx)
    · exact (or_iff_right (isEmpty_iff.mp hs x)).symm
  rw [if_neg hs]
  by_cases hsub : t.isSubsetOf s
  · rw [if_pos hsub]
    exact .inl ⟨isSubsetOf_iff.mp hsub, rfl⟩
  · rw [if_neg hsub]
    refine .inr ⟨mt isSubsetOf_iff.mpr hsub, rfl, fun x => ?_⟩
    exact Ascending.mem_mergeFrom.trans (or_iff_right List.not_mem_nil)

@[simp] theorem mem_union {s t : IdSet} {x : Nat} : x ∈ s ∪ t ↔ x ∈ s ∨ x ∈ t := by
  rw [show s ∪ t = (s.absorb t).1 from rfl]
  rcases s.absorb_cases t with ⟨hsub, habsorb⟩ | ⟨-, -, habsorb⟩
  · rw [habsorb]
    exact ⟨.inl, fun h => h.elim id (hsub x)⟩
  · exact habsorb x

@[simp] theorem fst_absorb (s t : IdSet) : (s.absorb t).1 = s ∪ t := rfl

@[simp] theorem snd_absorb (s t : IdSet) : (s.absorb t).2 = !decide (t ⊆ s) := by
  rcases s.absorb_cases t with ⟨hsub, habsorb⟩ | ⟨hsub, habsorb, -⟩
  · rw [habsorb, decide_eq_true hsub]
    rfl
  · rw [habsorb, decide_eq_false hsub]
    rfl

theorem toList_retain (s t : IdSet) : (s.retain t).1.toList = s.toList.filter t.contains :=
  Array.toList_filter

@[simp] theorem mem_inter {s t : IdSet} {x : Nat} : x ∈ s ∩ t ↔ x ∈ s ∧ x ∈ t := by
  rw [show s ∩ t = (s.retain t).1 from rfl, mem_def, toList_retain, List.mem_filter, contains_iff]
  exact Iff.rfl

/-- Elements were dropped if fewer are left. -/
theorem snd_retain (s t : IdSet) : (s.retain t).2 = !decide (s ⊆ t) := by
  have hsize : (s.retain t).1.size = s.size ↔ s ⊆ t := by
    rw [← length_toList, ← length_toList, toList_retain, List.length_filter_eq_length_iff]
    exact forall_congr' fun x => imp_congr_right fun _ => contains_iff
  rw [show (s.retain t).2 = decide ((s.retain t).1.size ≠ s.size) from rfl, ← decide_not,
    decide_eq_decide, ne_eq, hsize]

@[simp] theorem mem_sdiff {s t : IdSet} {x : Nat} : x ∈ s \ t ↔ x ∈ s ∧ x ∉ t := by
  rw [show s \ t = s.difference t from rfl, mem_def, toList, difference,
    Ascending.toList_differenceFrom t.sorted s.ascending]
  simp [mem_def, toList]

theorem intersects_iff {s t : IdSet} : s.intersects t = true ↔ ∃ x, x ∈ s ∧ x ∈ t :=
  Ascending.meetFrom_iff s.sorted t.sorted

end IdSet

end PointerAnalysis
