/-!
Arrays of numbers in strictly ascending order: search by halving, and walks over two arrays side by
side that merge them, take one from the other or compare them. Each walk keeps a position in either
array, and what it still has to look at are the entries from there on.
-/

namespace PointerAnalysis

namespace Ascending

/-- The entries from a position on, the first of which stands at that position. -/
theorem drop_toList {xs : Array Nat} {i : Nat} (h : i < xs.size) :
    xs.toList.drop i = xs[i] :: xs.toList.drop (i + 1) := by
  rw [List.drop_eq_getElem_cons (by simpa using h), Array.getElem_toList]

/-- No entries are left behind the last one. -/
theorem drop_toList_eq_nil {xs : Array Nat} {i : Nat} (h : ¬ i < xs.size) :
    xs.toList.drop i = [] :=
  List.drop_eq_nil_iff.mpr (by simpa using Nat.le_of_not_lt h)

/-! ## Search -/

/-- The position of an element, or the one at which it would have to be put. -/
inductive Place where
  | found (i : Nat)
  | absent (i : Nat)

/-- Looks for `x` among the entries from `lo` on and before `hi`, and halves them at each step. -/
def searchIn (xs : Array Nat) (x lo hi : Nat) (hhi : hi ≤ xs.size) : Place :=
  if hlt : lo < hi then
    let mid := lo + (hi - lo) / 2
    have hmid : mid < hi := by omega
    match compare xs[mid] x with
    | .lt => searchIn xs x (mid + 1) hi hhi
    | .eq => .found mid
    | .gt => searchIn xs x lo mid (by omega)
  else .absent lo
termination_by hi - lo

/-- Looks for `x` among all entries. -/
def search (xs : Array Nat) (x : Nat) : Place := searchIn xs x 0 xs.size (Nat.le_refl _)

/-- What a search finds out. -/
def Place.Locates (xs : Array Nat) (x : Nat) : Place → Prop
  | .found i => ∃ h : i < xs.size, xs[i] = x
  | .absent i =>
    i ≤ xs.size ∧ (∀ y ∈ xs.toList.take i, y < x) ∧ ∀ y ∈ xs.toList.drop i, x < y

/-- Putting an element at a position divides what stands there from what stands before. -/
theorem insertIdx_eq_take_drop {x i : Nat} {ys : List Nat} (hi : i ≤ ys.length) :
    ys.insertIdx i x = ys.take i ++ x :: ys.drop i := by
  induction ys generalizing i with
  | nil =>
      cases Nat.le_zero.mp hi
      rfl
  | cons y ys ih =>
      cases i with
      | zero => rfl
      | succ i => rw [List.insertIdx_succ_cons, ih (Nat.le_of_succ_le_succ hi)]; rfl

section search

variable {xs : Array Nat} (hxs : xs.toList.Pairwise (· < ·)) {x : Nat}

include hxs

theorem getElem_lt {i j : Nat} (hj : j < xs.size) (hij : i < j) : xs[i] < xs[j] :=
  List.pairwise_iff_getElem.mp hxs i j (Nat.lt_trans hij hj) hj hij

/-- What was left out on either side is smaller or greater than `x`. -/
theorem locates_searchIn {lo hi : Nat} (hhi : hi ≤ xs.size) (hle : lo ≤ hi)
    (hlow : ∀ (j : Nat) (h : j < xs.size), j < lo → xs[j] < x)
    (hhigh : ∀ (j : Nat) (h : j < xs.size), hi ≤ j → x < xs[j]) :
    (searchIn xs x lo hi hhi).Locates xs x := by
  fun_induction searchIn xs x lo hi hhi with
  | case1 lo hi hhi hlt mid hmid hcompare ih =>
      rw [Nat.compare_eq_lt] at hcompare
      refine ih hmid (fun j hj hlt => ?_) hhigh
      rcases Nat.lt_or_eq_of_le (Nat.le_of_lt_succ hlt) with hlt | rfl
      · exact Nat.lt_trans (getElem_lt hxs _ hlt) hcompare
      · exact hcompare
  | case2 lo hi hhi hlt mid hmid hcompare =>
      exact ⟨Nat.lt_of_lt_of_le hmid hhi, Nat.compare_eq_eq.mp hcompare⟩
  | case3 lo hi hhi hlt mid hmid hcompare ih =>
      rw [Nat.compare_eq_gt] at hcompare
      refine ih (by omega) hlow fun j hj hle => ?_
      rcases Nat.lt_or_eq_of_le hle with hlt | rfl
      · exact Nat.lt_trans hcompare (getElem_lt hxs hj hlt)
      · exact hcompare
  | case4 lo hi hhi hlt =>
      have heq : lo = hi := Nat.le_antisymm hle (Nat.le_of_not_lt hlt)
      refine ⟨heq ▸ hhi, fun y hy => ?_, fun y hy => ?_⟩
      · obtain ⟨j, hj, rfl⟩ := List.mem_take_iff_getElem.mp hy
        exact hlow j (Nat.lt_of_lt_of_le hj (Nat.min_le_right ..))
          (Nat.lt_of_lt_of_le hj (Nat.min_le_left ..))
      · obtain ⟨j, hj, rfl⟩ := List.mem_drop_iff_getElem.mp hy
        exact hhigh (lo + j) (by simpa [Nat.add_comm] using hj) (by omega)

theorem locates_search (x : Nat) : (search xs x).Locates xs x :=
  locates_searchIn hxs _ (Nat.zero_le _) (fun _ _ h => absurd h (Nat.not_lt_zero _))
    fun _ hj hle => absurd hj (Nat.not_lt_of_le hle)

/-- An element that is put where it was missed is in order. -/
theorem pairwise_insertIdx {i : Nat} (h : (Place.absent i).Locates xs x) :
    (xs.insertIdx i x h.1).toList.Pairwise (· < ·) := by
  obtain ⟨hi, hlow, hhigh⟩ := h
  rw [← List.take_append_drop i xs.toList] at hxs
  obtain ⟨htake, hdrop, hacross⟩ := List.pairwise_append.mp hxs
  rw [Array.toList_insertIdx, insertIdx_eq_take_drop hi]
  refine List.pairwise_append.mpr ⟨htake, List.pairwise_cons.mpr ⟨hhigh, hdrop⟩, ?_⟩
  intro y hy z hz
  rcases List.mem_cons.mp hz with rfl | hz
  · exact hlow y hy
  · exact hacross y hy z hz

end search

/-! ## Two arrays side by side -/

/-- Appends to `merged` what is left of both arrays in ascending order, and what is left of
both only once. -/
def mergeFrom (xs ys : Array Nat) (i j : Nat) (merged : Array Nat) : Array Nat :=
  if h : i < xs.size ∧ j < ys.size then
    match compare xs[i] ys[j] with
    | .lt => mergeFrom xs ys (i + 1) j (merged.push xs[i])
    | .gt => mergeFrom xs ys i (j + 1) (merged.push ys[j])
    | .eq => mergeFrom xs ys (i + 1) (j + 1) (merged.push xs[i])
  else merged ++ xs.extract i ++ ys.extract j
termination_by xs.size - i + (ys.size - j)

/-- Whether something that is left of one array is left of the other as well. -/
def meetFrom (xs ys : Array Nat) (i j : Nat) : Bool :=
  if h : i < xs.size ∧ j < ys.size then
    match compare xs[i] ys[j] with
    | .lt => meetFrom xs ys (i + 1) j
    | .gt => meetFrom xs ys i (j + 1)
    | .eq => true
  else false
termination_by xs.size - i + (ys.size - j)

theorem toList_append_extract {xs ys : Array Nat} {i j : Nat} {merged : Array Nat} :
    (merged ++ xs.extract i ++ ys.extract j).toList =
      merged.toList ++ xs.toList.drop i ++ ys.toList.drop j := by
  have hextract : ∀ (zs : Array Nat) (k : Nat), (zs.extract k).toList = zs.toList.drop k := by
    intro zs k
    rw [Array.toList_extract, List.extract_eq_take_drop]
    exact List.take_of_length_le (by simp)
  rw [Array.toList_append, Array.toList_append, hextract, hextract]

theorem mem_mergeFrom {xs ys : Array Nat} {i j : Nat} {merged : Array Nat} {z : Nat} :
    z ∈ (mergeFrom xs ys i j merged).toList ↔
      z ∈ merged.toList ∨ z ∈ xs.toList.drop i ∨ z ∈ ys.toList.drop j := by
  fun_induction mergeFrom xs ys i j merged with
  | case1 i j merged h hcompare ih => grind [drop_toList h.1, Array.toList_push]
  | case2 i j merged h hcompare ih => grind [drop_toList h.2, Array.toList_push]
  | case3 i j merged h hcompare ih =>
      have heq := Nat.compare_eq_eq.mp hcompare
      grind [drop_toList h.1, drop_toList h.2, Array.toList_push]
  | case4 i j merged h => rw [toList_append_extract, List.mem_append, List.mem_append, or_assoc]

/-- An element between what was merged already and what is left of an array. -/
theorem pairwise_push {merged rest : List Nat} {x y : Nat} (hx : (merged ++ [x]).Pairwise (· < ·))
    (hy : (merged ++ y :: rest).Pairwise (· < ·)) (hxy : x < y) :
    (merged ++ [x] ++ y :: rest).Pairwise (· < ·) := by
  obtain ⟨hmerged, hrest, hlow⟩ := List.pairwise_append.mp hy
  refine List.pairwise_append.mpr ⟨hx, hrest, fun a ha b hb => ?_⟩
  rcases List.mem_append.mp ha with ha | ha
  · exact hlow a ha b hb
  · cases List.mem_singleton.mp ha
    rcases List.mem_cons.mp hb with rfl | hb
    · exact hxy
    · exact Nat.lt_trans hxy ((List.pairwise_cons.mp hrest).1 b hb)

/-- What was merged already is smaller than all that is left of either array. -/
theorem pairwise_mergeFrom {xs ys : Array Nat} {i j : Nat} {merged : Array Nat}
    (hx : (merged.toList ++ xs.toList.drop i).Pairwise (· < ·))
    (hy : (merged.toList ++ ys.toList.drop j).Pairwise (· < ·)) :
    (mergeFrom xs ys i j merged).toList.Pairwise (· < ·) := by
  fun_induction mergeFrom xs ys i j merged with
  | case1 i j merged h hcompare ih =>
      rw [drop_toList h.1, List.append_cons] at hx
      rw [drop_toList h.2] at hy ih
      refine ih (by rwa [Array.toList_push]) ?_
      rw [Array.toList_push]
      exact pairwise_push (List.pairwise_append.mp hx).1 hy (Nat.compare_eq_lt.mp hcompare)
  | case2 i j merged h hcompare ih =>
      rw [drop_toList h.1] at hx ih
      rw [drop_toList h.2, List.append_cons] at hy
      refine ih ?_ (by rwa [Array.toList_push])
      rw [Array.toList_push]
      exact pairwise_push (List.pairwise_append.mp hy).1 hx (Nat.compare_eq_gt.mp hcompare)
  | case3 i j merged h hcompare ih =>
      rw [drop_toList h.1, List.append_cons] at hx
      rw [drop_toList h.2, List.append_cons, ← Nat.compare_eq_eq.mp hcompare] at hy
      exact ih (by rwa [Array.toList_push]) (by rwa [Array.toList_push])
  | case4 i j merged h =>
      rw [toList_append_extract]
      by_cases hi : i < xs.size
      · rwa [drop_toList_eq_nil fun hj => h ⟨hi, hj⟩, List.append_nil]
      · rwa [drop_toList_eq_nil hi, List.append_nil]

/-- An element that is smaller than the first of an ascending list is not in that list. -/
theorem not_mem_of_lt {y z : Nat} {ys : List Nat} (hys : (y :: ys).Pairwise (· < ·)) (h : z < y) :
    z ∉ y :: ys := by
  intro hmem
  rcases List.mem_cons.mp hmem with rfl | hmem
  · exact Nat.lt_irrefl _ h
  · exact Nat.lt_asymm h ((List.pairwise_cons.mp hys).1 z hmem)

theorem meetFrom_iff {xs ys : Array Nat} {i j : Nat} (hx : (xs.toList.drop i).Pairwise (· < ·))
    (hy : (ys.toList.drop j).Pairwise (· < ·)) :
    meetFrom xs ys i j = true ↔ ∃ z, z ∈ xs.toList.drop i ∧ z ∈ ys.toList.drop j := by
  fun_induction meetFrom xs ys i j with
  | case1 i j h hcompare ih =>
      rw [drop_toList h.1] at hx ⊢
      rw [ih (List.pairwise_cons.mp hx).2 hy]
      rw [drop_toList h.2] at hy ⊢
      have hnot := not_mem_of_lt hy (Nat.compare_eq_lt.mp hcompare)
      grind
  | case2 i j h hcompare ih =>
      rw [drop_toList h.2] at hy ⊢
      rw [ih hx (List.pairwise_cons.mp hy).2]
      rw [drop_toList h.1] at hx ⊢
      have hnot := not_mem_of_lt hx (Nat.compare_eq_gt.mp hcompare)
      grind
  | case3 i j h hcompare =>
      refine iff_of_true rfl ⟨xs[i], ?_, ?_⟩
      · rw [drop_toList h.1]
        exact List.mem_cons_self
      · rw [drop_toList h.2, Nat.compare_eq_eq.mp hcompare]
        exact List.mem_cons_self
  | case4 i j h =>
      refine iff_of_false Bool.false_ne_true ?_
      rintro ⟨z, hzx, hzy⟩
      by_cases hi : i < xs.size
      · rw [drop_toList_eq_nil fun hj => h ⟨hi, hj⟩] at hzy
        cases hzy
      · rw [drop_toList_eq_nil hi] at hzx
        cases hzx

/-! ## One array against the other -/

/-- The first position from `j` on at which the entry is not below `x`. -/
def skipBelow (ys : Array Nat) (x j : Nat) : Nat :=
  if h : j < ys.size then if ys[j] < x then skipBelow ys x (j + 1) else j else j
termination_by ys.size - j

/-- Appends to `rest` the elements of a list that are not among the entries from `j` on. -/
def differenceFrom (ys : Array Nat) : (xs : List Nat) → (j : Nat) → (rest : Array Nat) → Array Nat
  | [], _, rest => rest
  | x :: xs, j, rest =>
    let j := skipBelow ys x j
    differenceFrom ys xs j (if ys[j]? = some x then rest else rest.push x)

/-- Whether the elements of a list are all among the entries from `j` on. Stops at the first that is
not, and goes on behind one that is. -/
def includesFrom (ys : Array Nat) : (xs : List Nat) → (j : Nat) → Bool
  | [], _ => true
  | x :: xs, j =>
    let j := skipBelow ys x j
    if ys[j]? = some x then includesFrom ys xs (j + 1) else false

theorem le_skipBelow (ys : Array Nat) (x j : Nat) : j ≤ skipBelow ys x j := by
  fun_induction skipBelow ys x j with
  | case1 j h hlt ih => exact Nat.le_of_succ_le ih
  | case2 j h hlt => exact Nat.le_refl j
  | case3 j h => exact Nat.le_refl j

/-- What is skipped is below `x`, so nothing else gets lost. -/
theorem mem_drop_skipBelow (ys : Array Nat) (j : Nat) {x z : Nat} (hz : x ≤ z) :
    z ∈ ys.toList.drop (skipBelow ys x j) ↔ z ∈ ys.toList.drop j := by
  fun_induction skipBelow ys x j with
  | case1 j h hlt ih =>
      rw [ih, drop_toList h, List.mem_cons, or_iff_right (by omega)]
  | case2 j h hlt => exact Iff.rfl
  | case3 j h => exact Iff.rfl

/-- An element that is among the entries is the one at which skipping stops. -/
theorem getElem?_skipBelow {ys : Array Nat} {x j : Nat} (hy : (ys.toList.drop j).Pairwise (· < ·)) :
    ys[skipBelow ys x j]? = some x ↔ x ∈ ys.toList.drop j := by
  fun_induction skipBelow ys x j with
  | case1 j h hlt ih =>
      rw [drop_toList h] at hy ⊢
      rw [ih (List.pairwise_cons.mp hy).2, List.mem_cons, or_iff_right (Nat.ne_of_gt hlt)]
  | case2 j h hlt =>
      rw [drop_toList h] at hy ⊢
      rw [Array.getElem?_eq_getElem h, Option.some_inj]
      refine ⟨fun heq => heq ▸ List.mem_cons_self, fun hmem => ?_⟩
      rcases List.mem_cons.mp hmem with heq | hmem
      · exact heq.symm
      · exact absurd ((List.pairwise_cons.mp hy).1 x hmem) hlt
  | case3 j h =>
      rw [drop_toList_eq_nil h, Array.getElem?_eq_none (Nat.le_of_not_lt h)]
      simp

section walk

variable {ys : Array Nat} (hys : ys.toList.Pairwise (· < ·)) {xs : List Nat}
  (hxs : xs.Pairwise (· < ·)) {j : Nat}

include hys hxs

theorem toList_differenceFrom {rest : Array Nat} :
    (differenceFrom ys xs j rest).toList =
      rest.toList ++ xs.filter fun x => decide (x ∉ ys.toList.drop j) := by
  induction xs generalizing j rest with
  | nil => simp [differenceFrom]
  | cons x xs ih =>
      obtain ⟨hlow, hxs⟩ := List.pairwise_cons.mp hxs
      have hsame : ∀ z ∈ xs, (z ∈ ys.toList.drop (skipBelow ys x j) ↔ z ∈ ys.toList.drop j) :=
        fun z hz => mem_drop_skipBelow ys j (Nat.le_of_lt (hlow z hz))
      have hrest : (xs.filter fun z => decide (z ∉ ys.toList.drop (skipBelow ys x j))) =
          xs.filter fun z => decide (z ∉ ys.toList.drop j) :=
        List.filter_congr fun z hz => by simp only [hsame z hz]
      have hfound := getElem?_skipBelow (x := x) (hys.sublist (List.drop_sublist j _))
      rw [differenceFrom, ih hxs, hrest, List.filter_cons]
      by_cases hx : x ∈ ys.toList.drop j
      · rw [if_pos (hfound.mpr hx), if_neg (by simpa using hx)]
      · rw [if_neg (mt hfound.mp hx),
          if_pos (by simpa using hx), Array.toList_push, List.append_assoc]
        rfl

theorem includesFrom_iff :
    includesFrom ys xs j = true ↔ ∀ x ∈ xs, x ∈ ys.toList.drop j := by
  induction xs generalizing j with
  | nil => simp [includesFrom]
  | cons x xs ih =>
      obtain ⟨hlow, hxs⟩ := List.pairwise_cons.mp hxs
      have hfound := getElem?_skipBelow (x := x) (hys.sublist (List.drop_sublist j _))
      rw [includesFrom, List.forall_mem_cons]
      by_cases hx : x ∈ ys.toList.drop j
      · have hlt := (Array.getElem?_eq_some_iff.mp (hfound.mpr hx)).1
        rw [if_pos (hfound.mpr hx), ih hxs, and_iff_right hx]
        refine forall_congr' fun z => imp_congr_right fun hz => ?_
        -- the entry at which skipping stopped is `x`, which comes before `z`
        have hsame := mem_drop_skipBelow ys j (Nat.le_of_lt (hlow z hz))
        rw [← hsame, drop_toList hlt, (Array.getElem?_eq_some_iff.mp (hfound.mpr hx)).2,
          List.mem_cons, or_iff_right (Nat.ne_of_gt (hlow z hz))]
      · rw [if_neg (mt hfound.mp hx)]
        exact iff_of_false Bool.false_ne_true fun h => hx h.1

omit hys hxs in
/-- Each element that is found uses up an entry of its own. -/
theorem length_le_of_includesFrom (h : includesFrom ys xs j = true) : xs.length ≤ ys.size - j := by
  induction xs generalizing j with
  | nil => exact Nat.zero_le _
  | cons x xs ih =>
      rw [includesFrom] at h
      split at h
      · rename_i hfound
        have hlt := (Array.getElem?_eq_some_iff.mp hfound).1
        have hle := le_skipBelow ys x j
        have hrest := ih h
        rw [List.length_cons]
        omega
      · cases h

end walk

/-! ## From any list -/

/-- Puts an element before the first that is not smaller. -/
def insertSorted (x : Nat) : List Nat → List Nat
  | [] => [x]
  | y :: ys => if x ≤ y then x :: y :: ys else y :: insertSorted x ys

/-- The elements of a list from the smallest to the greatest. -/
def sort (xs : List Nat) : List Nat := xs.foldr insertSorted []

/-- Drops every element that the next one repeats. -/
def dropRepeats : List Nat → List Nat
  | [] => []
  | [x] => [x]
  | x :: y :: ys => if x = y then dropRepeats (y :: ys) else x :: dropRepeats (y :: ys)

theorem mem_insertSorted {x z : Nat} {ys : List Nat} : z ∈ insertSorted x ys ↔ z = x ∨ z ∈ ys := by
  induction ys with
  | nil => simp [insertSorted]
  | cons y ys ih =>
      rw [insertSorted]
      split
      · exact List.mem_cons
      · rw [List.mem_cons, ih, List.mem_cons, or_left_comm]

theorem pairwise_insertSorted {x : Nat} {ys : List Nat} (h : ys.Pairwise (· ≤ ·)) :
    (insertSorted x ys).Pairwise (· ≤ ·) := by
  induction ys with
  | nil => exact List.pairwise_singleton _ x
  | cons y ys ih =>
      obtain ⟨hlow, hys⟩ := List.pairwise_cons.mp h
      rw [insertSorted]
      split
      · rename_i hle
        refine List.pairwise_cons.mpr ⟨fun z hz => ?_, h⟩
        rcases List.mem_cons.mp hz with rfl | hz
        · exact hle
        · exact Nat.le_trans hle (hlow z hz)
      · rename_i hlt
        refine List.pairwise_cons.mpr ⟨fun z hz => ?_, ih hys⟩
        rcases mem_insertSorted.mp hz with rfl | hz
        · exact Nat.le_of_not_le hlt
        · exact hlow z hz

theorem mem_sort {z : Nat} {xs : List Nat} : z ∈ sort xs ↔ z ∈ xs := by
  induction xs with
  | nil => exact Iff.rfl
  | cons x xs ih => exact mem_insertSorted.trans ((or_congr_right ih).trans List.mem_cons.symm)

theorem pairwise_sort (xs : List Nat) : (sort xs).Pairwise (· ≤ ·) := by
  induction xs with
  | nil => exact .nil
  | cons x xs ih => exact pairwise_insertSorted ih

theorem mem_dropRepeats {z : Nat} {xs : List Nat} : z ∈ dropRepeats xs ↔ z ∈ xs := by
  fun_induction dropRepeats xs with
  | case1 => exact Iff.rfl
  | case2 x => exact Iff.rfl
  | case3 y ys ih => simp [ih]
  | case4 x y ys hne ih => rw [List.mem_cons, ih, List.mem_cons (b := x)]

/-- Without repetitions, a list that does not descend ascends. -/
theorem pairwise_dropRepeats {xs : List Nat} (h : xs.Pairwise (· ≤ ·)) :
    (dropRepeats xs).Pairwise (· < ·) := by
  fun_induction dropRepeats xs with
  | case1 => exact .nil
  | case2 x => exact List.pairwise_singleton _ x
  | case3 y ys ih => exact ih (List.pairwise_cons.mp h).2
  | case4 x y ys hne ih =>
      obtain ⟨hlow, hrest⟩ := List.pairwise_cons.mp h
      refine List.pairwise_cons.mpr ⟨fun z hz => ?_, ih hrest⟩
      have hxy : x < y := Nat.lt_of_le_of_ne (hlow y List.mem_cons_self) hne
      rcases List.mem_cons.mp (mem_dropRepeats.mp hz) with rfl | hz
      · exact hxy
      · exact Nat.lt_of_lt_of_le hxy ((List.pairwise_cons.mp hrest).1 z hz)

end Ascending

end PointerAnalysis
