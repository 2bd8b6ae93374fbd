import Mathlib.Algebra.BigOperators.Group.Finset.Basic
import Mathlib.Algebra.GroupWithZero.Nat
import Mathlib.Algebra.Order.BigOperators.Group.Finset
import PointerAnalysis.Proofs.DepthFirst
import PointerAnalysis.Tarjan

/-!
Tarjan's search finds the strongly connected components. The stack falls into layers, one for each
vertex of the path: that vertex, and above it vertices that lie on a cycle with it. What a layer
leads to on the stack is never below the smallest number recorded for its vertex. So a vertex that
is left with its own number as the smallest one has exactly its layer as its component, and every
other vertex that is left joins the layer below.
-/

namespace PointerAnalysis

namespace Tarjan

variable {succ : Nat → List Nat} {roots : List Nat} {s s' : Tarjan} {v w : Nat}

/-- The number of a vertex. -/
def number (s : Tarjan) (v : Nat) : Nat := s.index.getD v 0

/-- The smallest number on the stack that a vertex is known to lead to. -/
def lowest (s : Tarjan) (v : Nat) : Nat := s.low.getD v 0

/-- A vertex that has a component. -/
def Settled (s : Tarjan) (x : Nat) : Prop := ∃ c ∈ s.components, x ∈ c

/-- Two vertices on a common cycle. -/
def Joined (succ : Nat → List Nat) (x y : Nat) : Prop := Leads succ x y ∧ Leads succ y x

theorem Joined.refl (x : Nat) : Joined succ x x := ⟨.refl, .refl⟩

theorem Joined.trans {x y z : Nat} (h : Joined succ x y) (h' : Joined succ y z) : Joined succ x z :=
  ⟨h.1.trans h'.1, h'.2.trans h.2⟩

/-! ## Single operations -/

theorem lookup_of_mem {numbers : Std.TreeMap Nat Nat} (h : v ∈ numbers) :
    lookup numbers v = .ok (numbers.getD v 0) := by
  have hentry : numbers[v]? = some (numbers.getD v 0) := Std.TreeMap.getElem?_eq_some_getD h
  rw [lookup, hentry]

theorem lower_of_mem {numbers : Std.TreeMap Nat Nat} (hv : v ∈ s.low) (hw : w ∈ numbers) :
    s.lower v numbers w = .ok (s.setLow v (min (s.lowest v) (numbers.getD w 0))) := by
  simp only [lower, lookup_of_mem hv, lookup_of_mem hw]
  rfl

theorem popTo_append {front left : List Nat} (h : v ∉ front) :
    popTo v (front ++ v :: left) = (front ++ [v], left) := by
  induction front with
  | nil => simp [popTo]
  | cons x front ih =>
      have hx : x ≠ v := fun he => h (by simp [he])
      have hfront : v ∉ front := fun hv => h (by simp [hv])
      simp [popTo, hx, ih hfront]

theorem getD_foldl_false (xs : List Nat) (m : Std.TreeMap Nat Bool) (x : Nat) :
    (xs.foldl (fun m w => m.insert w false) m).getD x false =
      (m.getD x false && !xs.contains x) := by
  induction xs generalizing m with
  | nil => simp
  | cons y xs ih =>
      rw [List.foldl_cons, ih, Std.TreeMap.getD_insert]
      by_cases h : y = x
      · simp [h]
      · have h' : ¬ x = y := fun he => h he.symm
        simp [h, h']

theorem close_of_stack {front left : List Nat} (hstack : s.stack = front ++ v :: left)
    (h : v ∉ front) : s.close v =
      { s with
        stack := left
        onStack := (front ++ [v]).foldl (fun m w => m.insert w false) s.onStack
        components := (front ++ [v]) :: s.components } := by
  simp only [close, hstack, popTo_append h]

theorem number_enter (x : Nat) :
    (s.enter succ v).number x = if v = x then s.next else s.number x := by
  simp [number, enter, Std.TreeMap.getD_insert]

theorem lowest_enter (x : Nat) :
    (s.enter succ v).lowest x = if v = x then s.next else s.lowest x := by
  simp [lowest, enter, Std.TreeMap.getD_insert]

theorem lowest_setLow (i x : Nat) :
    (s.setLow v i).lowest x = if v = x then i else s.lowest x := by
  simp [lowest, setLow, Std.TreeMap.getD_insert]

/-! ## What holds of the maps and the components -/

/-- The maps agree with the stack and the components. Every component is a class of vertices
on common cycles, what has a component leads only to what has one, and no component leads to
a later one. -/
structure Sound (succ : Nat → List Nat) (roots : List Nat) (s : Tarjan) : Prop where
  low_iff : ∀ x, x ∈ s.low ↔ x ∈ s.index
  onStack_iff : ∀ x, s.onStack.getD x false = true ↔ x ∈ s.stack
  number_lt : ∀ x ∈ s.index, s.number x < s.next
  descending : s.stack.Pairwise fun x y => s.number y < s.number x
  index_iff : ∀ x, x ∈ s.index ↔ x ∈ s.stack ∨ s.Settled x
  not_settled : ∀ x ∈ s.stack, ¬ s.Settled x
  closed : ∀ x, s.Settled x → ∀ w ∈ succ x, s.Settled w
  classes : ∀ c ∈ s.components, ∃ v ∈ c, ∀ x, x ∈ c ↔ Joined succ x v
  nodup : ∀ c ∈ s.components, c.Nodup
  ordered : s.components.Pairwise fun c d => ∀ x ∈ c, ∀ y ∈ d, ¬ Leads succ y x
  origin : ∀ x ∈ s.index, ∃ r ∈ roots, Leads succ r x

namespace Sound

theorem start : Sound succ roots start where
  low_iff := by simp [Tarjan.start]
  onStack_iff := by simp [Tarjan.start]
  number_lt := by simp [Tarjan.start]
  descending := by simp [Tarjan.start]
  index_iff := by simp [Tarjan.start, Settled]
  not_settled := by simp [Tarjan.start]
  closed := by simp [Tarjan.start, Settled]
  classes := by simp [Tarjan.start]
  nodup := by simp [Tarjan.start]
  ordered := by simp [Tarjan.start]
  origin := by simp [Tarjan.start]

theorem mem_index (h : Sound succ roots s) {x : Nat} (hx : x ∈ s.stack) : x ∈ s.index :=
  (h.index_iff x).mpr (.inl hx)

theorem number_lt_of_above (h : Sound succ roots s) {above below : List Nat}
    (hstack : s.stack = above ++ v :: below) {x : Nat} (hx : x ∈ above) :
    s.number v < s.number x := by
  have hdescending := h.descending
  rw [hstack] at hdescending
  exact (List.pairwise_append.mp hdescending).2.2 x hx v List.mem_cons_self

theorem number_lt_of_below (h : Sound succ roots s) {above below : List Nat}
    (hstack : s.stack = above ++ v :: below) {x : Nat} (hx : x ∈ below) :
    s.number x < s.number v := by
  have hdescending := h.descending
  rw [hstack] at hdescending
  exact (List.pairwise_cons.mp (List.pairwise_append.mp hdescending).2.1).1 x hx

theorem withPath (h : Sound succ roots s) (path : List (Nat × List Nat)) :
    Sound succ roots { s with path } := { h with }

theorem setLow (h : Sound succ roots s) (hv : v ∈ s.index) (i : Nat) :
    Sound succ roots (s.setLow v i) :=
  { h with
    low_iff := fun x => by
      simp only [Tarjan.setLow, Std.TreeMap.mem_insert, h.low_iff]
      constructor
      · rintro (hx | hx)
        · rwa [← compare_eq_iff_eq.mp hx]
        · exact hx
      · exact .inr }

theorem enter (h : Sound succ roots s) (hv : v ∉ s.index) (horigin : ∃ r ∈ roots, Leads succ r v) :
    Sound succ roots (s.enter succ v) where
  low_iff x := by simp [Tarjan.enter, h.low_iff]
  onStack_iff x := by
    have hon := h.onStack_iff x
    by_cases hx : v = x
    · simp [Tarjan.enter, hx]
    · simp [Tarjan.enter, Std.TreeMap.getD_insert, hx, Ne.symm hx, hon]
  number_lt x hx := by
    rw [number_enter]
    by_cases hvx : v = x
    · simp [hvx, Tarjan.enter]
    · rw [if_neg hvx]
      have hx : x ∈ s.index := by simpa [Tarjan.enter, hvx] using hx
      exact (h.number_lt x hx).trans (Nat.lt_succ_self _)
  descending := by
    have hne : ∀ x ∈ s.stack, v ≠ x := fun x hx he => hv (he ▸ h.mem_index hx)
    refine List.pairwise_cons.mpr ⟨fun x hx => ?_, h.descending.imp_of_mem fun hx hy hlt => ?_⟩
    · rw [number_enter, number_enter, if_pos rfl, if_neg (hne x hx)]
      exact h.number_lt x (h.mem_index hx)
    · rwa [number_enter, number_enter, if_neg (hne _ hx), if_neg (hne _ hy)]
  index_iff x := by
    have hindex := h.index_iff x
    by_cases hx : v = x
    · simp [Tarjan.enter, hx]
    · simpa [Tarjan.enter, Settled, hx, Ne.symm hx] using hindex
  not_settled x hx hsettled := by
    rcases List.mem_cons.mp hx with rfl | hx
    · exact hv ((h.index_iff x).mpr (.inr hsettled))
    · exact h.not_settled x hx hsettled
  closed := h.closed
  classes := h.classes
  nodup := h.nodup
  ordered := h.ordered
  origin x hx := by
    by_cases hvx : v = x
    · exact hvx ▸ horigin
    · exact h.origin x (by simpa [Tarjan.enter, hvx] using hx)

/-- What has a component leads only to what has one. -/
theorem settled_of_leads (h : Sound succ roots s) {x y : Nat} (hlead : Leads succ x y)
    (hx : s.Settled x) : s.Settled y := by
  induction hlead with
  | refl => exact hx
  | tail _ hstep ih => exact h.closed _ ih _ hstep

/-- Vertices of the stack that lie on cycles with one of them, and lead only to each other and to
components, are all that lie on cycles with it. -/
theorem mem_iff_joined (h : Sound succ roots s) {part : List Nat} (hv : v ∈ part)
    (hpart : ∀ x ∈ part, x ∈ s.stack) (hjoined : ∀ x ∈ part, Joined succ x v)
    (hinside : ∀ x ∈ part, ∀ w ∈ succ x, w ∈ part ∨ s.Settled w) (x : Nat) :
    x ∈ part ↔ Joined succ x v := by
  refine ⟨hjoined x, fun hx => ?_⟩
  have hreach : ∀ y, Leads succ v y → y ∈ part ∨ s.Settled y := by
    intro y hy
    induction hy with
    | refl => exact .inl hv
    | tail _ hstep ih =>
        rcases ih with ih | ih
        · exact hinside _ ih _ hstep
        · exact .inr (h.closed _ ih _ hstep)
  -- a component would reach `v`, which has none
  exact (hreach x hx.2).resolve_right fun hsettled =>
    h.not_settled v (hpart v hv) (h.settled_of_leads hx.1 hsettled)

/-- The stack above a vertex becomes a component, if its vertices lie on cycles with that vertex and
lead only to each other and to components. -/
theorem close (h : Sound succ roots s) {front left : List Nat}
    (hstack : s.stack = front ++ v :: left) (hjoined : ∀ x ∈ front, Joined succ x v)
    (hinside : ∀ x ∈ front ++ [v], ∀ w ∈ succ x, w ∈ front ++ [v] ∨ s.Settled w) :
    Sound succ roots (s.close v) := by
  have hdescending := h.descending
  rw [hstack, List.append_cons] at hdescending
  obtain ⟨hpart, hbelow, habove⟩ := List.pairwise_append.mp hdescending
  have hfront : v ∉ front := fun hv => (h.number_lt_of_above hstack hv).false
  have hleft : ∀ x ∈ front ++ [v], x ∉ left := fun x hx hx' => (habove x hx x hx').false
  have hmem : ∀ x, x ∈ s.stack ↔ x ∈ front ++ [v] ∨ x ∈ left := fun x => by
    rw [hstack, List.append_cons, List.mem_append]
  have hclass : ∀ x, x ∈ front ++ [v] ↔ Joined succ x v := by
    refine h.mem_iff_joined (by simp) (fun x hx => (hmem x).mpr (.inl hx)) (fun x hx => ?_) hinside
    rcases List.mem_append.mp hx with hx | hx
    · exact hjoined x hx
    · obtain rfl : x = v := by simpa using hx
      exact .refl x
  have hsettled : ∀ x, Settled (s.close v) x ↔ x ∈ front ++ [v] ∨ s.Settled x := by
    intro x
    simp [close_of_stack hstack hfront, Settled]
  rw [close_of_stack hstack hfront] at hsettled ⊢
  exact {
    low_iff := h.low_iff
    onStack_iff := fun x => by
      have hon := h.onStack_iff x
      have hx := hleft x
      rw [getD_foldl_false]
      simp only [Bool.and_eq_true, hon, hmem, Bool.not_eq_true', List.contains_eq_mem,
        decide_eq_false_iff_not]
      tauto
    number_lt := h.number_lt
    descending := hbelow
    index_iff := fun x => by
      rw [hsettled, h.index_iff, hmem]
      tauto
    not_settled := fun x hx => by
      rw [hsettled]
      rintro (hx' | hx')
      · exact hleft x hx' hx
      · exact h.not_settled x ((hmem x).mpr (.inr hx)) hx'
    closed := fun x hx w hw => by
      rw [hsettled] at hx ⊢
      rcases hx with hx | hx
      · exact hinside x hx w hw
      · exact .inr (h.closed x hx w hw)
    classes := fun c hc => by
      rcases List.mem_cons.mp hc with rfl | hc
      · exact ⟨v, by simp, hclass⟩
      · exact h.classes c hc
    nodup := fun c hc => by
      rcases List.mem_cons.mp hc with rfl | hc
      · exact hpart.imp fun hlt he => (he ▸ hlt).false
      · exact h.nodup c hc
    ordered := List.pairwise_cons.mpr ⟨fun c hc x hx y hy hlead =>
      h.not_settled x ((hmem x).mpr (.inl hx)) (h.settled_of_leads hlead ⟨c, hc, hy⟩), h.ordered⟩
    origin := h.origin }

end Sound

/-! ## Layers of the stack -/

/-- A successor `w` of a layer of `v` has been seen, and is not below what is recorded for `v`. -/
def Looked (s : Tarjan) (v w : Nat) : Prop :=
  w ∈ s.index ∧ (w ∈ s.stack → s.lowest v ≤ s.number w)

/-- The layer of a vertex `v` of the path: `above` are the vertices above it up to the next vertex
of the path, and `rest` are its successors that have not been looked at. -/
structure Layer (succ : Nat → List Nat) (s : Tarjan) (v : Nat) (rest above below : List Nat) :
    Prop where
  joined : ∀ x ∈ above, Joined succ x v
  low_le : s.lowest v ≤ s.number v
  exists_low : ∃ y ∈ v :: below, s.number y = s.lowest v ∧ Leads succ v y
  rest_subset : ∀ w ∈ rest, w ∈ succ v
  looked : ∀ w ∈ succ v, w ∈ rest ∨ s.Looked v w
  above_looked : ∀ x ∈ above, ∀ w ∈ succ x, s.Looked v w

/-- A stack consists of the layers of a path, each entered from the one below it. -/
inductive Layers (succ : Nat → List Nat) (s : Tarjan) : List (Nat × List Nat) → List Nat → Prop
  | nil : Layers succ s [] []
  | cons {v : Nat} {rest above below : List Nat} {path : List (Nat × List Nat)} :
      Layer succ s v rest above below → (∀ p ∈ path.head?, Leads succ p.1 v) →
        Layers succ s path below → Layers succ s ((v, rest) :: path) (above ++ v :: below)

/-- Vertices keep their numbers, and none that was seen comes back to the stack. -/
structure Later (s s' : Tarjan) : Prop where
  index : ∀ x ∈ s.index, x ∈ s'.index ∧ s'.number x = s.number x
  stack : ∀ x ∈ s.index, x ∈ s'.stack → x ∈ s.stack

theorem Looked.later (h : s.Looked v w) (hlater : Later s s') (hlow : s'.lowest v ≤ s.lowest v) :
    s'.Looked v w := by
  obtain ⟨hindex, hle⟩ := h
  obtain ⟨hindex', hnumber⟩ := hlater.index w hindex
  refine ⟨hindex', fun hstack => ?_⟩
  rw [hnumber]
  exact hlow.trans (hle (hlater.stack w hindex hstack))

namespace Layer

variable {rest above below : List Nat}

/-- A layer outlasts steps that lower what is recorded for its vertex to a number that it leads to.
-/
theorem later (h : Layer succ s v rest above below) (hlater : Later s s') (hv : v ∈ s.index)
    (hlow : s'.lowest v ≤ s.lowest v)
    (hexists : ∃ y ∈ v :: below, s'.number y = s'.lowest v ∧ Leads succ v y) :
    Layer succ s' v rest above below where
  joined := h.joined
  low_le := by
    rw [(hlater.index v hv).2]
    exact hlow.trans h.low_le
  exists_low := hexists
  rest_subset := h.rest_subset
  looked w hw := (h.looked w hw).imp_right fun hlooked => hlooked.later hlater hlow
  above_looked x hx w hw := (h.above_looked x hx w hw).later hlater hlow

theorem later_of_eq (h : Layer succ s v rest above below) (hlater : Later s s')
    (hindex : ∀ x ∈ v :: below, x ∈ s.index) (hlow : s'.lowest v = s.lowest v) :
    Layer succ s' v rest above below := by
  obtain ⟨y, hy, hnumber, hlead⟩ := h.exists_low
  refine h.later hlater (hindex v List.mem_cons_self) hlow.le ⟨y, hy, ?_, hlead⟩
  rw [(hlater.index y (hindex y hy)).2, hnumber, hlow]

/-- Once the successors of its vertex have been looked at, so have those of the whole layer. -/
theorem looked_of_mem (h : Layer succ s v [] above below) {x : Nat} (hx : x ∈ above ++ [v])
    (hw : w ∈ succ x) : s.Looked v w := by
  rcases List.mem_append.mp hx with hx | hx
  · exact h.above_looked x hx w hw
  · obtain rfl : x = v := by simpa using hx
    exact (h.looked w hw).resolve_left List.not_mem_nil

end Layer

theorem Later.of_index (hindex : s'.index = s.index) (hstack : ∀ x ∈ s'.stack, x ∈ s.stack) :
    Later s s' where
  index x hx := by simp [number, hindex, hx]
  stack x _ hx := hstack x hx

theorem Later.enter (hv : v ∉ s.index) : Later s (s.enter succ v) where
  index x hx := by
    have hne : v ≠ x := fun he => hv (he ▸ hx)
    rw [number_enter, if_neg hne]
    exact ⟨by simp [Tarjan.enter, hx], rfl⟩
  stack x hx hstack := by
    have hne : x ≠ v := fun he => hv (he ▸ hx)
    simpa [Tarjan.enter, hne] using hstack

namespace Layers

variable {path : List (Nat × List Nat)} {stack rest : List Nat}

theorem mem_of_mem_path (h : Layers succ s path stack) {p : Nat × List Nat} (hp : p ∈ path) :
    p.1 ∈ stack := by
  induction h with
  | nil => simp at hp
  | cons _ _ _ ih =>
      rcases List.mem_cons.mp hp with rfl | hp
      · simp
      · simp [ih hp]

theorem exists_layer (h : Layers succ s ((v, rest) :: path) stack) :
    ∃ above below, stack = above ++ v :: below ∧ Layer succ s v rest above below ∧
      (∀ p ∈ path.head?, Leads succ p.1 v) ∧ Layers succ s path below := by
  cases h with
  | cons hlayer hlink hbelow => exact ⟨_, _, rfl, hlayer, hlink, hbelow⟩

/-- Layers outlast steps that leave what is recorded for the vertices of the path. -/
theorem later (h : Layers succ s path stack) (hlater : Later s s')
    (hindex : ∀ x ∈ stack, x ∈ s.index)
    (hlow : ∀ p ∈ path, s'.lowest p.1 = s.lowest p.1) : Layers succ s' path stack := by
  induction h with
  | nil => exact .nil
  | cons hlayer hlink _ ih =>
      refine .cons (hlayer.later_of_eq hlater ?_ (hlow _ List.mem_cons_self)) hlink
        (ih ?_ fun p hp => hlow p (List.mem_cons_of_mem _ hp))
      · exact fun x hx => hindex x (List.mem_append_right _ hx)
      · exact fun x hx => hindex x (List.mem_append_right _ (List.mem_cons_of_mem _ hx))

/-- Every vertex on the stack leads to the end of the path. -/
theorem leads_last (h : Layers succ s path stack) {p : Nat × List Nat} (hp : p ∈ path.head?)
    {y : Nat} (hy : y ∈ stack) : Leads succ y p.1 := by
  induction h generalizing p with
  | nil => simp at hy
  | @cons v rest above below path hlayer hlink hbelow ih =>
      obtain rfl : (v, rest) = p := by simpa using hp
      simp only [List.mem_append, List.mem_cons] at hy
      rcases hy with hy | rfl | hy
      · exact (hlayer.joined y hy).1
      · exact .refl
      · cases hbelow with
        | nil => simp at hy
        | cons => exact (ih rfl hy).trans (hlink _ rfl)

/-- The first successor left has been looked at. -/
theorem advance (h : Layers succ s ((v, w :: rest) :: path) stack) (hlooked : s.Looked v w) :
    Layers succ s ((v, rest) :: path) stack := by
  cases h with
  | cons hlayer hlink hbelow =>
      refine .cons { hlayer with
        rest_subset := fun x hx => hlayer.rest_subset x (List.mem_cons_of_mem w hx)
        looked := fun x hx => ?_ } hlink hbelow
      rcases hlayer.looked x hx with hx | hx
      · rcases List.mem_cons.mp hx with rfl | hx
        · exact .inr hlooked
        · exact .inl hx
      · exact .inr hx

theorem later_enter (h : Layers succ s path stack) (hindex : ∀ x ∈ stack, x ∈ s.index)
    (hw : w ∉ s.index) : Layers succ (s.enter succ w) path stack := by
  refine h.later (.enter hw) hindex fun p hp => ?_
  have hne : w ≠ p.1 := fun he => hw (he ▸ hindex _ (h.mem_of_mem_path hp))
  rw [lowest_enter, if_neg hne]

/-- A vertex that is entered from the end of the path begins a layer of its own. -/
theorem enter (h : Layers succ (s.enter succ w) path stack)
    (hlink : ∀ p ∈ path.head?, Leads succ p.1 w) :
    Layers succ (s.enter succ w) ((w, succ w) :: path) (w :: stack) := by
  have hnumber : (s.enter succ w).number w = (s.enter succ w).lowest w := by
    simp [number_enter, lowest_enter]
  have hlayer : Layer succ (s.enter succ w) w (succ w) [] stack :=
    { joined := by simp
      low_le := hnumber.ge
      exists_low := ⟨w, List.mem_cons_self, hnumber, .refl⟩
      rest_subset := fun _ hx => hx
      looked := fun _ hx => .inl hx
      above_looked := by simp }
  exact Layers.cons hlayer hlink h

/-- What is recorded for the end of a path is lowered to the number of a vertex that it leads to. -/
theorem lower (h : Layers succ s ((v, rest) :: path) stack) (hs : Sound succ roots s)
    {front : List Nat}
    (hstack : s.stack = front ++ stack) {y : Nat} (hy : y ∈ s.stack) (hlead : Leads succ v y) :
    Layers succ (s.setLow v (min (s.lowest v) (s.number y))) ((v, rest) :: path) stack := by
  have hindex : ∀ x ∈ stack, x ∈ s.index := fun x hx =>
    hs.mem_index (hstack ▸ List.mem_append_right front hx)
  have hlater : Later s (s.setLow v (min (s.lowest v) (s.number y))) :=
    .of_index rfl fun _ hx => hx
  cases h with
  | @cons _ _ above below _ hlayer hlink hbelow =>
      rw [← List.append_assoc] at hstack
      refine .cons (hlayer.later hlater (hindex v (by simp)) ?_ ?_) hlink
        (hbelow.later hlater (fun x hx => hindex x (by simp [hx])) fun p hp => ?_)
      · simp [lowest_setLow]
      · rw [lowest_setLow, if_pos rfl]
        by_cases hlt : s.number y < s.lowest v
        · rw [Nat.min_eq_right hlt.le]
          refine ⟨y, (List.mem_append.mp (hstack ▸ hy)).resolve_left fun hy => ?_, rfl, hlead⟩
          exact (hs.number_lt_of_above hstack hy).not_gt (hlt.trans_le hlayer.low_le)
        · rw [Nat.min_eq_left (Nat.le_of_not_lt hlt)]
          exact hlayer.exists_low
      · have hlt := hs.number_lt_of_below hstack (hbelow.mem_of_mem_path hp)
        rw [lowest_setLow, if_neg fun he => (he ▸ hlt).false]

/-- A layer whose vertex leads further down joins the layer below it. -/
theorem absorb {parent : Nat} {above below : List Nat}
    (h : Layers succ s ((parent, rest) :: path) below) (hv : Layer succ s v [] above below)
    (hlink : Leads succ parent v) (hlt : s.lowest v < s.number v)
    (hle : s.lowest parent ≤ s.lowest v) :
    Layers succ s ((parent, rest) :: path) (above ++ v :: below) := by
  have hback : Leads succ v parent := by
    obtain ⟨y, hy, hnumber, hlead⟩ := hv.exists_low
    rcases List.mem_cons.mp hy with rfl | hy
    · exact absurd hnumber hlt.ne'
    · exact hlead.trans (h.leads_last rfl hy)
  have hlooked : ∀ x ∈ above ++ [v], ∀ w ∈ succ x, s.Looked parent w := fun x hx w hw =>
    have hw' := hv.looked_of_mem hx hw
    ⟨hw'.1, fun hstack => hle.trans (hw'.2 hstack)⟩
  cases h with
  | @cons _ _ above' below' _ hlayer hlink' hbelow =>
      have hsplit : above ++ v :: (above' ++ parent :: below') =
          (above ++ [v] ++ above') ++ parent :: below' := by simp
      rw [hsplit]
      refine .cons { hlayer with
        joined := fun x hx => ?_
        above_looked := fun x hx => ?_ } hlink' hbelow
      · rcases List.mem_append.mp hx with hx | hx
        · rcases List.mem_append.mp hx with hx | hx
          · exact (hv.joined x hx).trans ⟨hback, hlink⟩
          · obtain rfl : x = v := by simpa using hx
            exact ⟨hback, hlink⟩
        · exact hlayer.joined x hx
      · rcases List.mem_append.mp hx with hx | hx
        · exact hlooked x hx
        · exact hlayer.above_looked x hx

end Layers

/-- A layer whose vertex leads no further down leads only to itself and to components. -/
theorem Layer.inside {above below : List Nat} (h : Layer succ s v [] above below)
    (hs : Sound succ roots s) (hstack : s.stack = above ++ v :: below)
    (heq : s.lowest v = s.number v)
    {x : Nat} (hx : x ∈ above ++ [v]) (hw : w ∈ succ x) : w ∈ above ++ [v] ∨ s.Settled w := by
  have hlooked := h.looked_of_mem hx hw
  refine ((hs.index_iff w).mp hlooked.1).imp_left fun hw' => ?_
  have hle := hlooked.2 hw'
  rw [hstack, List.append_cons, List.mem_append] at hw'
  exact hw'.resolve_right fun hw' => (hs.number_lt_of_below hstack hw').not_ge (heq ▸ hle)

/-! ## Steps -/

/-- What every step keeps. -/
structure Invariant (succ : Nat → List Nat) (roots : List Nat) (s : Tarjan) : Prop
    extends Sound succ roots s where
  layers : Layers succ s s.path s.stack

/-- The steps that are still to be taken: one for each successor on the path that was not looked at,
one to leave each vertex of the path, and as many for each target that has not been seen. -/
def remaining (succ : Nat → List Nat) (targets : Finset Nat) (s : Tarjan) : Nat :=
  (s.path.map fun p => p.2.length + 1).sum +
    ∑ x ∈ targets with x ∉ s.index, ((succ x).length + 1)

/-- The search goes on: the invariant holds again, and no vertex is forgotten. -/
structure Advances (succ : Nat → List Nat) (roots : List Nat) (s s' : Tarjan) : Prop where
  invariant : Invariant succ roots s'
  index_mono : ∀ x ∈ s.index, x ∈ s'.index

theorem Advances.refl (h : Invariant succ roots s) : Advances succ roots s s := ⟨h, fun _ hx => hx⟩

theorem Advances.trans {t : Tarjan} (h : Advances succ roots s s') (h' : Advances succ roots s' t) :
    Advances succ roots s t := ⟨h'.invariant, fun x hx => h'.index_mono x (h.index_mono x hx)⟩

variable {targets : Finset Nat} {path : List (Nat × List Nat)} {rest : List Nat}

theorem remaining_enter (hw : w ∈ targets) (hw' : w ∉ s.index) :
    (s.enter succ w).remaining succ targets = s.remaining succ targets := by
  have hfilter : (targets.filter fun x => x ∉ (s.enter succ w).index) =
      (targets.filter fun x => x ∉ s.index).erase w := by
    ext x
    simp only [Finset.mem_filter, Finset.mem_erase, enter, Std.TreeMap.mem_insert, not_or,
      compare_eq_iff_eq, ne_eq]
    grind
  have hsum := Finset.sum_erase_add (targets.filter fun x => x ∉ s.index)
    (fun x => (succ x).length + 1) (Finset.mem_filter.mpr ⟨hw, hw'⟩)
  rw [remaining, remaining, hfilter, ← hsum]
  simp only [enter, List.map_cons, List.sum_cons]
  omega

theorem look_advances (hs : Sound succ roots s) (htargets : ∀ x, ∀ y ∈ succ x, y ∈ targets)
    (hlayers : Layers succ s ((v, w :: rest) :: path) s.stack)
    (hpath : s.path = (v, rest) :: path) :
    ∃ s', look succ s v w = .ok s' ∧ Advances succ roots s s' ∧
      s'.remaining succ targets ≤ s.remaining succ targets := by
  obtain ⟨above, below, hstack, hlayer, -, -⟩ := hlayers.exists_layer
  have hv : v ∈ s.index := hs.mem_index (by simp [hstack])
  have hw : w ∈ succ v := hlayer.rest_subset w List.mem_cons_self
  rw [look]
  by_cases hseen : w ∈ s.index
  · rw [if_neg (not_not_intro hseen)]
    by_cases hon : w ∈ s.stack
    · rw [if_pos ((hs.onStack_iff w).mpr hon), lower_of_mem ((hs.low_iff v).mpr hv) hseen]
      have hlower := hlayers.lower hs (List.nil_append _).symm hon (.single hw)
      have hadvance := hlower.advance ⟨hseen, fun _ => by
        rw [lowest_setLow, if_pos rfl]
        exact Nat.min_le_right _ _⟩
      rw [← hpath] at hadvance
      exact ⟨_, rfl, ⟨⟨hs.setLow hv _, hadvance⟩, fun _ hx => hx⟩, le_rfl⟩
    · rw [if_neg (mt (hs.onStack_iff w).mp hon)]
      refine ⟨s, rfl, .refl ⟨hs, ?_⟩, le_rfl⟩
      rw [hpath]
      exact hlayers.advance ⟨hseen, fun hw => absurd hw hon⟩
  · rw [if_pos hseen]
    have hne : w ≠ v := fun he => hseen (he ▸ hv)
    obtain ⟨r, hr, hlead⟩ := hs.origin v hv
    refine ⟨_, rfl, ⟨⟨hs.enter hseen ⟨r, hr, hlead.tail hw⟩, ?_⟩, fun x hx => by simp [enter, hx]⟩,
      (remaining_enter (htargets v w hw) hseen).le⟩
    change Layers succ _ ((w, succ w) :: s.path) (w :: s.stack)
    rw [hpath]
    refine Layers.enter ((hlayers.later_enter (fun _ => hs.mem_index) hseen).advance ?_) ?_
    · refine ⟨by simp [enter], fun _ => ?_⟩
      rw [lowest_enter, if_neg hne, number_enter, if_pos rfl]
      exact (hlayer.low_le.trans_lt (hs.number_lt v hv)).le
    · simpa using Relation.ReflTransGen.single hw

/-- What the end of a path leads to is recorded for the vertex before it as well. -/
theorem exists_report (hs : Sound succ roots s)
    (hlayers : Layers succ s ((v, rest) :: s.path) s.stack) :
    ∃ s', s.report v = .ok s' ∧ s'.index = s.index ∧ s'.path = s.path ∧ Sound succ roots s' ∧
      Layers succ s' ((v, rest) :: s'.path) s'.stack ∧
      ∀ p ∈ s'.path.head?, s'.lowest p.1 ≤ s'.lowest v := by
  rw [report]
  by_cases hpath : s.path = []
  · exact ⟨s, by rw [hpath], rfl, rfl, hs, hlayers, by simp [hpath]⟩
  · obtain ⟨⟨parent, left⟩, path, hpath⟩ := List.exists_cons_of_ne_nil hpath
    obtain ⟨above, below, hstack, hlayer, hlink, hbelow⟩ := hlayers.exists_layer
    have hindex : ∀ x ∈ v :: below, x ∈ s.index := fun x hx =>
      hs.mem_index (hstack ▸ List.mem_append_right above hx)
    have hparent : parent ∈ below := hbelow.mem_of_mem_path (hpath ▸ List.mem_cons_self)
    have hparent' := hindex parent (List.mem_cons_of_mem v hparent)
    have hne : parent ≠ v := fun he => (hs.number_lt_of_below hstack (he ▸ hparent)).false
    obtain ⟨y, hy, hnumber, hlead⟩ := hlayer.exists_low
    have hlead' : Leads succ parent y := (hlink (parent, left) (by simp [hpath])).trans hlead
    have hfront : s.stack = (above ++ [v]) ++ below := by simpa using hstack
    have hlower := (hpath ▸ hbelow).lower hs hfront (hstack ▸ List.mem_append_right above hy) hlead'
    rw [hnumber, ← hpath] at hlower
    have hkeep :
        Layer succ (s.setLow parent (min (s.lowest parent) (s.lowest v))) v rest above below :=
      hlayer.later_of_eq (.of_index rfl fun _ hx => hx) hindex (by rw [lowest_setLow, if_neg hne])
    have hcons := Layers.cons hkeep hlink hlower
    rw [← hstack] at hcons
    rw [hpath]
    refine ⟨_, lower_of_mem ((hs.low_iff parent).mpr hparent')
      ((hs.low_iff v).mpr (hindex v List.mem_cons_self)), rfl, hpath, hs.setLow hparent' _, hcons,
      fun p hp => ?_⟩
    obtain rfl : (parent, left) = p := by simpa [setLow, hpath] using hp
    rw [lowest_setLow, lowest_setLow, if_pos rfl, if_neg hne]
    exact Nat.min_le_right _ _

theorem leave_advances (hs : Sound succ roots s)
    (hlayers : Layers succ s ((v, []) :: s.path) s.stack) :
    ∃ s', s.leave v = .ok s' ∧ Advances succ roots s s' ∧ s'.index = s.index ∧
      s'.path = s.path := by
  obtain ⟨s₁, hreport, hindex, hpath, hs, hlayers, hle⟩ := exists_report hs hlayers
  obtain ⟨above, below, hstack, hlayer, hlink, hbelow⟩ := hlayers.exists_layer
  have hv : v ∈ s₁.index := hs.mem_index (by simp [hstack])
  have hleave : s.leave v = if s₁.lowest v = s₁.number v then .ok (s₁.close v) else .ok s₁ := by
    simp only [leave, hreport, bind, Except.bind, lookup_of_mem hv,
      lookup_of_mem ((hs.low_iff v).mpr hv)]
    rfl
  rw [hleave]
  by_cases heq : s₁.lowest v = s₁.number v
  · rw [if_pos heq]
    have hclose := close_of_stack hstack fun hv => (hs.number_lt_of_above hstack hv).false
    have hsound := hs.close hstack hlayer.joined fun x hx w hw => hlayer.inside hs hstack heq hx hw
    rw [hclose] at hsound ⊢
    refine ⟨_, rfl, ⟨⟨hsound, ?_⟩, fun x hx => hindex ▸ hx⟩, hindex, hpath⟩
    exact hbelow.later (.of_index rfl fun x hx => by simp [hstack, hx])
      (fun x hx => hs.mem_index (by simp [hstack, hx])) fun _ _ => rfl
  · rw [if_neg heq]
    refine ⟨s₁, rfl, ⟨⟨hs, ?_⟩, fun x hx => hindex ▸ hx⟩, hindex, hpath⟩
    have hlt := lt_of_le_of_ne hlayer.low_le heq
    cases hp : s₁.path with
    | nil =>
        -- the layer is the whole stack, and its vertex leads to nothing below itself
        rw [hp] at hbelow
        cases hbelow with
        | nil =>
            obtain ⟨y, hy, hnumber, -⟩ := hlayer.exists_low
            obtain rfl : y = v := by simpa using hy
            exact absurd hnumber.symm heq
    | cons p path =>
        rw [hp] at hbelow
        rw [hstack]
        exact hbelow.absorb hlayer (hlink p (by simp [hp])) hlt (hle p (by simp [hp]))

/-- One step succeeds, keeps the invariant, and leaves fewer steps to be taken. -/
theorem step_advances (h : Invariant succ roots s) (htargets : ∀ x, ∀ y ∈ succ x, y ∈ targets)
    (hpath : s.path ≠ []) :
    ∃ s', step succ s = .ok s' ∧ Advances succ roots s s' ∧
      s'.remaining succ targets < s.remaining succ targets := by
  obtain ⟨⟨v, rest⟩, path, hpath⟩ := List.exists_cons_of_ne_nil hpath
  have hlayers : ∀ path', Layers succ { s with path := path' } ((v, rest) :: path) s.stack :=
    fun path' =>
    (hpath ▸ h.layers).later (.of_index rfl fun _ hx => hx) (fun _ => h.mem_index) fun _ _ => rfl
  cases rest with
  | cons w rest =>
      obtain ⟨s', hlook, hadvances, hle⟩ := look_advances (h.withPath ((v, rest) :: path)) htargets
        (hlayers _) rfl
      refine ⟨s', ?_, ⟨hadvances.invariant, hadvances.index_mono⟩, ?_⟩
      · rw [step, hpath]
        exact hlook
      · simp only [remaining, hpath, List.map_cons, List.sum_cons, List.length_cons] at hle ⊢
        omega
  | nil =>
      obtain ⟨s', hleave, hadvances, hindex, hpath'⟩ :=
        leave_advances (h.withPath path) (hlayers path)
      refine ⟨s', ?_, ⟨hadvances.invariant, hadvances.index_mono⟩, ?_⟩
      · rw [step, hpath]
        exact hleave
      · simp only [remaining, hindex, hpath', hpath, List.map_cons, List.sum_cons]
        omega

/-! ## Runs -/

/-- With as many steps as remain, a run succeeds, keeps the invariant and comes to the end
of its path. -/
theorem run_advances (htargets : ∀ x, ∀ y ∈ succ x, y ∈ targets) (steps : Nat)
    (h : Invariant succ roots s) (hsteps : s.remaining succ targets ≤ steps) :
    ∃ s', run succ steps s = .ok s' ∧ Advances succ roots s s' ∧ s'.path = [] := by
  induction steps generalizing s with
  | zero =>
      refine ⟨s, rfl, .refl h, List.eq_nil_iff_forall_not_mem.mpr fun p hp => ?_⟩
      have hle := List.single_le_sum (by simp) _
        (List.mem_map_of_mem (f := fun p : Nat × List Nat => p.2.length + 1) hp)
      simp only [remaining] at hsteps
      omega
  | succ steps ih =>
      rw [run]
      by_cases hpath : s.path = []
      · exact ⟨s, by simp [hpath], .refl h, hpath⟩
      · obtain ⟨s₁, hstep, hfirst, hlt⟩ := step_advances h htargets hpath
        obtain ⟨s₂, hrun, hrest, hend⟩ := ih hfirst.invariant (by omega)
        refine ⟨s₂, ?_, hfirst.trans hrest, hend⟩
        simp only [List.isEmpty_iff, hpath, if_false, hstep]
        exact hrun

/-- Exploring a root between two runs: the root is seen afterwards. -/
theorem explore_advances (htargets : ∀ x, ∀ y ∈ succ x, y ∈ targets) {steps root : Nat}
    (hsteps : (succ root).length + 1 + ∑ x ∈ targets.erase root, ((succ x).length + 1) ≤ steps)
    (hroot : root ∈ roots) (h : Invariant succ roots s) (hpath : s.path = []) :
    ∃ s', explore succ steps s root = .ok s' ∧ Advances succ roots s s' ∧ s'.path = [] ∧
      root ∈ s'.index := by
  rw [explore]
  by_cases hseen : root ∈ s.index
  · exact ⟨s, if_pos hseen, .refl h, hpath, hseen⟩
  · rw [if_neg hseen]
    have henter : Advances succ roots s (s.enter succ root) := by
      refine ⟨⟨h.enter hseen ⟨root, hroot, .refl⟩, ?_⟩, fun x hx => by simp [enter, hx]⟩
      exact (h.layers.later_enter (fun _ => h.mem_index) hseen).enter (by simp [hpath])
    have hremaining : (s.enter succ root).remaining succ targets ≤ steps := by
      have hsubset :
          (targets.filter fun x => x ∉ (s.enter succ root).index) ⊆ targets.erase root := by
        intro x hx
        simp only [Finset.mem_filter, enter, Std.TreeMap.mem_insert, not_or, compare_eq_iff_eq]
          at hx
        exact Finset.mem_erase.mpr ⟨fun he => hx.2.1 he.symm, hx.1⟩
      calc (s.enter succ root).remaining succ targets
          = (succ root).length + 1 +
              ∑ x ∈ targets with x ∉ (s.enter succ root).index, ((succ x).length + 1) := by
            simp [remaining, enter, hpath]
        _ ≤ (succ root).length + 1 + ∑ x ∈ targets.erase root, ((succ x).length + 1) :=
            Nat.add_le_add_left (Finset.sum_le_sum_of_subset hsubset) _
        _ ≤ steps := hsteps
    obtain ⟨s', hrun, hadvances, hend⟩ := run_advances htargets steps henter.invariant hremaining
    exact ⟨s', hrun, henter.trans hadvances, hend, hadvances.index_mono root (by simp [enter])⟩

theorem foldlM_explore_advances (htargets : ∀ x, ∀ y ∈ succ x, y ∈ targets) {steps : Nat}
    (hsteps : ∀ r, (succ r).length + 1 + ∑ x ∈ targets.erase r, ((succ x).length + 1) ≤ steps)
    (rs : List Nat) (hrs : ∀ r ∈ rs, r ∈ roots) (h : Invariant succ roots s) (hpath : s.path = []) :
    ∃ s', rs.foldlM (explore succ steps) s = .ok s' ∧ Advances succ roots s s' ∧ s'.path = [] ∧
      ∀ r ∈ rs, r ∈ s'.index := by
  induction rs generalizing s with
  | nil => exact ⟨s, rfl, .refl h, hpath, by simp⟩
  | cons r rs ih =>
      obtain ⟨s₁, hexplore, hfirst, hend, hr⟩ :=
        explore_advances htargets (hsteps r) (hrs r List.mem_cons_self) h hpath
      obtain ⟨s₂, hfold, hrest, hend', hall⟩ :=
        ih (fun x hx => hrs x (List.mem_cons_of_mem r hx)) hfirst.invariant hend
      refine ⟨s₂, ?_, hfirst.trans hrest, hend', ?_⟩
      · rw [List.foldlM_cons, hexplore]
        exact hfold
      · simpa using ⟨hrest.index_mono r hr, hall⟩

/-- Exploring all roots yields the components of what they lead to: each is a class of vertices on
common cycles, and no component leads to a later one. -/
theorem foldlM_explore_start (roots : List Nat) (htargets : ∀ x, ∀ y ∈ succ x, y ∈ targets)
    {steps : Nat}
    (hsteps : ∀ r, (succ r).length + 1 + ∑ x ∈ targets.erase r, ((succ x).length + 1) ≤ steps) :
    ∃ s, roots.foldlM (explore succ steps) start = .ok s ∧ Sound succ roots s ∧
      ∀ x, s.Settled x ↔ ∃ r ∈ roots, Leads succ r x := by
  obtain ⟨s, hfold, hadvances, hpath, hroots⟩ := foldlM_explore_advances htargets hsteps roots
    (fun _ hr => hr) (s := start) ⟨.start, .nil⟩ rfl
  have hs := hadvances.invariant
  have hsettled : ∀ x, x ∈ s.index → s.Settled x := by
    have hlayers := hs.layers
    rw [hpath] at hlayers
    have hstack : s.stack = [] := by
      cases hstack : s.stack with
      | nil => rfl
      | cons x stack => cases hstack ▸ hlayers
    intro x hx
    exact ((hs.index_iff x).mp hx).resolve_left (by simp [hstack])
  refine ⟨s, hfold, hs.toSound, fun x => ⟨fun hx => ?_, ?_⟩⟩
  · exact hs.origin x ((hs.index_iff x).mpr (.inr hx))
  · rintro ⟨r, hr, hlead⟩
    exact hs.settled_of_leads hlead (hsettled r (hroots r hr))

end Tarjan

end PointerAnalysis
