import PointerAnalysis.Components
import PointerAnalysis.Proofs.Tarjan

/-!
The components that the search finds are the strongly connected ones. The search always succeeds.
Two vertices that the roots reach share a component exactly if each leads to the other, every such
vertex has a component, and no component leads to one that stands before it. The smallest vertices
of the components represent them.
-/

namespace PointerAnalysis

namespace Components

/-- A path along the edges of a list. -/
abbrev Path (edges : List (Nat × Nat)) : Nat → Nat → Prop :=
  Relation.ReflTransGen fun x y => (x, y) ∈ edges

/-- Each of two vertices leads to the other. -/
def Mutual (edges : List (Nat × Nat)) (x y : Nat) : Prop := Path edges x y ∧ Path edges y x

namespace Mutual

variable {edges : List (Nat × Nat)} {x y z : Nat}

theorem symm (h : Mutual edges x y) : Mutual edges y x := ⟨h.2, h.1⟩

theorem trans (h : Mutual edges x y) (h' : Mutual edges y z) : Mutual edges x z :=
  ⟨h.1.trans h'.1, h'.2.trans h.2⟩

end Mutual

/-! ## Successors -/

theorem mem_adjacency_foldl (edges : List (Nat × Nat)) (adj : Std.TreeMap Nat IdSet) (v w : Nat) :
    w ∈ (edges.foldl (fun adj e => adj.insert e.1 ((adj.getD e.1 ∅).insert e.2)) adj).getD v ∅ ↔
      (v, w) ∈ edges ∨ w ∈ adj.getD v ∅ := by
  induction edges generalizing adj with
  | nil => simp
  | cons e edges ih =>
      obtain ⟨a, b⟩ := e
      rw [List.foldl_cons, ih, Std.TreeMap.getD_insert]
      by_cases h : a = v
      · subst h
        simp [or_assoc, or_left_comm]
      · have h' : ¬ v = a := fun he => h he.symm
        simp [h, h']

@[simp] theorem mem_successors {edges : List (Nat × Nat)} {v w : Nat} :
    w ∈ successors (adjacency edges) v ↔ (v, w) ∈ edges := by
  have h := mem_adjacency_foldl edges ∅ v w
  simpa [successors, adjacency, ← IdSet.mem_def] using h

theorem leads_successors {edges : List (Nat × Nat)} :
    Leads (successors (adjacency edges)) = Path edges := by
  unfold Leads Path
  congr
  funext x y
  exact propext mem_successors

/-! ## The number of steps -/

/-- The vertices of a set have, in all, no more successors than there are edges. -/
theorem sum_length_successors_le (edges : List (Nat × Nat)) (vertices : Finset Nat) :
    ∑ x ∈ vertices, (successors (adjacency edges) x).length ≤ edges.length := by
  have hnodup : ∀ x, (successors (adjacency edges) x).Nodup := fun x =>
    ((adjacency edges).getD x ∅).ascending.imp fun hlt => hlt.ne
  calc ∑ x ∈ vertices, (successors (adjacency edges) x).length
      = (vertices.sigma fun x => (successors (adjacency edges) x).toFinset).card := by
        simp [Finset.card_sigma, List.toFinset_card_of_nodup (hnodup _)]
    _ ≤ edges.toFinset.card := by
        refine Finset.card_le_card_of_injOn (fun p => (p.1, p.2)) (fun p hp => ?_) ?_
        · simpa using (Finset.mem_sigma.mp hp).2
        · rintro ⟨a, b⟩ - ⟨c, d⟩ - heq
          simpa using heq
    _ ≤ edges.length := edges.toFinset_card_le

/-- What a search from one root takes at most. -/
theorem steps_le (edges : List (Nat × Nat)) (r : Nat) :
    (successors (adjacency edges) r).length + 1 + ∑ x ∈ ((edges.map Prod.snd).toFinset).erase r,
      ((successors (adjacency edges) x).length + 1) ≤ 2 * edges.length + 1 := by
  have hsum := sum_length_successors_le edges (insert r (((edges.map Prod.snd).toFinset).erase r))
  rw [Finset.sum_insert (Finset.notMem_erase r _)] at hsum
  have hcard : (((edges.map Prod.snd).toFinset).erase r).card ≤ edges.length :=
    (Finset.card_erase_le.trans (List.toFinset_card_le _)).trans (by simp)
  rw [Finset.sum_add_distrib, ← Finset.card_eq_sum_ones]
  omega

/-! ## All components -/

/-- The components of the part of a graph that the roots reach, each before those that it leads to.
-/
structure Decomposes (roots : List Nat) (edges : List (Nat × Nat)) (cs : Components) : Prop where
  mem_iff_mutual : ∀ c ∈ cs.members, ∀ x ∈ c, ∀ y, y ∈ c ↔ Mutual edges y x
  nonempty : ∀ c ∈ cs.members, ∃ x, x ∈ c
  exists_component_iff : ∀ x, (∃ c ∈ cs.members, x ∈ c) ↔ ∃ r ∈ roots, Path edges r x
  ordered : cs.members.Pairwise fun c d => ∀ x ∈ c, ∀ y ∈ d, ¬ Path edges y x
  collapsed_eq : cs.collapsed = (cs.cycles.map fun c => c.size - 1).sum

theorem size_ofList {xs : List Nat} (h : xs.Nodup) : (IdSet.ofList xs).size = xs.length := by
  refine List.Perm.length_eq ((List.perm_ext_iff_of_nodup ?_ h).mpr fun x => IdSet.mem_ofList)
  exact (IdSet.ofList xs).ascending.imp fun hlt => hlt.ne

theorem foldl_collapsed (cs : List (List Nat)) (h : ∀ c ∈ cs, c.Nodup) (n : Nat) :
    cs.foldl (fun n c => if 1 < c.length then n + (c.length - 1) else n) n =
      n + (((cs.map IdSet.ofList).filter fun c => 1 < c.size).map fun c => c.size - 1).sum := by
  induction cs generalizing n with
  | nil => simp
  | cons c cs ih =>
      have hsize := size_ofList (h c List.mem_cons_self)
      rw [List.foldl_cons, ih fun d hd => h d (List.mem_cons_of_mem c hd)]
      by_cases hc : 1 < c.length
      · simp [hsize, hc, Nat.add_assoc]
      · simp [hsize, hc]

theorem find_decomposes (roots : List Nat) (edges : List (Nat × Nat)) :
    ∃ cs, find roots edges = .ok cs ∧ Decomposes roots edges cs := by
  have htargets : ∀ x, ∀ y ∈ successors (adjacency edges) x, y ∈ (edges.map Prod.snd).toFinset := by
    intro x y hy
    simp only [List.mem_toFinset, List.mem_map]
    exact ⟨(x, y), mem_successors.mp hy, rfl⟩
  obtain ⟨s, hsearch, hs, hsettled⟩ :=
    Tarjan.foldlM_explore_start roots htargets (steps_le edges)
  have hclasses : ∀ c ∈ s.components, ∃ v ∈ c, ∀ x, x ∈ c ↔ Mutual edges x v := by
    simpa only [Tarjan.Joined, leads_successors, Mutual] using hs.classes
  have hordered := hs.ordered
  simp only [leads_successors] at hordered hsettled
  refine ⟨_, by rw [find, hsearch]; rfl, ?_, ?_, fun x => ?_, ?_, ?_⟩
  · intro c hc x hx y
    obtain ⟨d, hd, rfl⟩ := List.mem_map.mp hc
    obtain ⟨v, -, hclass⟩ := hclasses d hd
    rw [IdSet.mem_ofList, hclass] at *
    exact ⟨fun h => h.trans hx.symm, fun h => h.trans hx⟩
  · intro c hc
    obtain ⟨d, hd, rfl⟩ := List.mem_map.mp hc
    obtain ⟨v, hv, -⟩ := hclasses d hd
    exact ⟨v, IdSet.mem_ofList.mpr hv⟩
  · rw [← hsettled]
    simp [Tarjan.Settled]
  · rw [List.pairwise_map]
    simpa using hordered
  · rw [cycles, foldl_collapsed _ hs.nodup, Nat.zero_add]

/-! ## Representatives -/

theorem representative_mem {c : IdSet} {x : Nat} (hx : x ∈ c) : representative c ∈ c := by
  rw [IdSet.mem_def] at hx ⊢
  unfold representative
  cases h : c.toList with
  | nil => simp [h] at hx
  | cons y ys => simp

theorem representative_le {c : IdSet} {x : Nat} (hx : x ∈ c) : representative c ≤ x := by
  have hascending := c.ascending
  rw [IdSet.mem_def] at hx
  unfold representative
  cases h : c.toList with
  | nil => simp [h] at hx
  | cons y ys =>
      rw [h] at hx hascending
      rcases List.mem_cons.mp hx with rfl | hx
      · exact le_rfl
      · exact ((List.pairwise_cons.mp hascending).1 x hx).le

/-- A set of at most one vertex consists of its representative. -/
theorem eq_representative {c : IdSet} (hsize : ¬ 1 < c.size) {x : Nat} (hx : x ∈ c) :
    x = representative c := by
  rw [IdSet.mem_def] at hx
  rw [← IdSet.length_toList] at hsize
  unfold representative
  cases hlist : c.toList with
  | nil => simp [hlist] at hx
  | cons y ys =>
      obtain rfl : ys = [] := by simpa [hlist] using hsize
      simpa [hlist] using hx

theorem getElem?_foldl_insert (xs : List Nat) (reps : Std.TreeMap Nat Nat) (r x : Nat) :
    (xs.foldl (fun reps v => reps.insert v r) reps)[x]? = if x ∈ xs then some r else reps[x]? := by
  induction xs generalizing reps with
  | nil => simp
  | cons y xs ih =>
      rw [List.foldl_cons, ih, Std.TreeMap.getElem?_insert]
      by_cases h : y = x
      · simp [h]
      · have h' : ¬ x = y := fun he => h he.symm
        simp [h, h']

/-- Of sets without common vertices, each has its representative recorded for its vertices. -/
theorem getElem?_foldl_representative (cs : List IdSet) (h : cs.Pairwise fun c d => ∀ x ∈ c, x ∉ d)
    (reps : Std.TreeMap Nat Nat) (x r : Nat) :
    (cs.foldl (fun reps c => c.toList.foldl (fun reps v => reps.insert v (representative c)) reps)
        reps)[x]? = some r ↔
      (∃ c ∈ cs, x ∈ c ∧ representative c = r) ∨ (∀ c ∈ cs, x ∉ c) ∧ reps[x]? = some r := by
  induction cs generalizing reps with
  | nil => simp
  | cons c cs ih =>
      obtain ⟨hdisjoint, hrest⟩ := List.pairwise_cons.mp h
      rw [List.foldl_cons, ih hrest, getElem?_foldl_insert]
      by_cases hx : x ∈ c
      · have hnot : ∀ d ∈ cs, x ∉ d := fun d hd => hdisjoint d hd x hx
        have hno : ¬ ∃ d ∈ cs, x ∈ d ∧ representative d = r := by
          rintro ⟨d, hd, hxd, -⟩
          exact hnot d hd hxd
        rw [if_pos (IdSet.mem_def.mp hx)]
        simpa [hx, hno] using fun _ => hnot
      · rw [if_neg (mt IdSet.mem_def.mpr hx)]
        simp [hx]

namespace Decomposes

variable {roots : List Nat} {edges : List (Nat × Nat)} {cs : Components}

theorem order_ordered (h : Decomposes roots edges cs) :
    cs.order.Pairwise fun x y => ¬ Path edges y x := by
  rw [order, List.pairwise_map]
  refine h.ordered.imp_of_mem fun hc hd hcd => ?_
  obtain ⟨x, hx⟩ := h.nonempty _ hc
  obtain ⟨y, hy⟩ := h.nonempty _ hd
  exact hcd _ (representative_mem hx) _ (representative_mem hy)

theorem not_lt_size_of_no_cycle (hcycles : cs.cycles = []) {c : IdSet} (hc : c ∈ cs.members) :
    ¬ 1 < c.size := by
  have hnot := (List.filter_eq_nil_iff.mp hcycles) c hc
  simpa using hnot

/-- Without cycles, every vertex that the roots reach stands in the order. -/
theorem mem_order_of_no_cycle (h : Decomposes roots edges cs) (hcycles : cs.cycles = []) {x : Nat}
    (hx : x ∈ roots) : x ∈ cs.order := by
  obtain ⟨c, hc, hxc⟩ := (h.exists_component_iff x).mpr ⟨x, hx, .refl⟩
  exact List.mem_map.mpr ⟨c, hc, (eq_representative (not_lt_size_of_no_cycle hcycles hc) hxc).symm⟩

/-- Without cycles, no two different vertices that the roots reach lead to each other. -/
theorem eq_of_mutual_of_no_cycle (h : Decomposes roots edges cs) (hcycles : cs.cycles = [])
    {x y : Nat} (hx : x ∈ roots) (hxy : Mutual edges x y) : x = y := by
  obtain ⟨c, hc, hxc⟩ := (h.exists_component_iff x).mpr ⟨x, hx, .refl⟩
  have hyc := (h.mem_iff_mutual c hc x hxc y).mpr hxy.symm
  have hsize := not_lt_size_of_no_cycle hcycles hc
  rw [eq_representative hsize hxc, eq_representative hsize hyc]

/-! ## The result of a search -/

theorem eq_of_mem (h : Decomposes roots edges cs) {c d : IdSet} (hc : c ∈ cs.members)
    (hd : d ∈ cs.members) {x : Nat} (hxc : x ∈ c) (hxd : x ∈ d) : c = d :=
  IdSet.ext fun y => by rw [h.mem_iff_mutual c hc x hxc, h.mem_iff_mutual d hd x hxd]

theorem disjoint (h : Decomposes roots edges cs) : cs.members.Pairwise fun c d => ∀ x ∈ c, x ∉ d :=
  h.ordered.imp fun hcd x hxc hxd => hcd x hxc x hxd .refl

theorem members_nodup (h : Decomposes roots edges cs) : cs.members.Nodup := by
  refine h.disjoint.imp_of_mem ?_
  rintro c _ hc - hdisjoint rfl
  obtain ⟨x, hx⟩ := h.nonempty c hc
  exact hdisjoint x hx hx

theorem getElem?_repOf (h : Decomposes roots edges cs) (x r : Nat) :
    cs.repOf[x]? = some r ↔ ∃ c ∈ cs.cycles, x ∈ c ∧ representative c = r := by
  have hdisjoint : cs.cycles.Pairwise fun c d => ∀ x ∈ c, x ∉ d := h.disjoint.filter _
  rw [repOf, getElem?_foldl_representative _ hdisjoint]
  simp

/-- Every vertex that the roots reach is represented by the smallest vertex of its component. -/
theorem rep_eq (h : Decomposes roots edges cs) {c : IdSet} (hc : c ∈ cs.members) {x : Nat}
    (hx : x ∈ c) : cs.rep x = representative c := by
  have hcycle : ∀ d ∈ cs.cycles, x ∈ d → d = c := fun d hd hxd =>
    h.eq_of_mem (List.mem_of_mem_filter hd) hc hxd hx
  rw [rep, Std.TreeMap.getD_eq_getD_getElem?]
  by_cases hsize : 1 < c.size
  · have hmem : c ∈ cs.cycles := List.mem_filter.mpr ⟨hc, by simpa using hsize⟩
    rw [(h.getElem?_repOf x _).mpr ⟨c, hmem, hx, rfl⟩, Option.getD_some]
  · have hnone : cs.repOf[x]? = none := by
      refine Option.eq_none_iff_forall_ne_some.mpr fun r hr => hsize ?_
      obtain ⟨d, hd, hxd, -⟩ := (h.getElem?_repOf x r).mp hr
      simpa [hcycle d hd hxd] using (List.mem_filter.mp hd).2
    rw [hnone, Option.getD_none]
    exact eq_representative hsize hx

/-- An edge from one component to another one leads to a later one. -/
theorem sublist_members (h : Decomposes roots edges cs) {c d : IdSet} (hc : c ∈ cs.members)
    (hd : d ∈ cs.members) {u v : Nat} (hu : u ∈ c) (hv : v ∈ d) (hedge : (u, v) ∈ edges)
    (hne : ¬ Mutual edges u v) : [c, d].Sublist cs.members := by
  obtain ⟨front, back, heq⟩ := List.append_of_mem hc
  have hordered := h.ordered
  rw [heq] at hd hordered ⊢
  obtain ⟨-, -, hfront⟩ := List.pairwise_append.mp hordered
  rcases List.mem_append.mp hd with hd | hd
  · exact absurd (.single hedge) (hfront d hd c List.mem_cons_self v hv u hu)
  · rcases List.mem_cons.mp hd with rfl | hd
    · exact absurd ((h.mem_iff_mutual d hc v hv u).mp hu) hne
    · exact ((List.singleton_sublist.mpr hd).cons_cons c).trans (List.sublist_append_right _ _)

end Decomposes

/-- A strongly connected component of the part of a graph that the roots reach. -/
def IsComponent (roots : List Nat) (edges : List (Nat × Nat)) (c : IdSet) : Prop :=
  ∃ x, (∃ r ∈ roots, Path edges r x) ∧ ∀ y, y ∈ c ↔ Mutual edges y x

/-- The smallest vertex of a set. -/
def IsSmallest (c : IdSet) (r : Nat) : Prop := r ∈ c ∧ ∀ x ∈ c, r ≤ x

theorem isSmallest_iff {c : IdSet} {x r : Nat} (hx : x ∈ c) :
    IsSmallest c r ↔ representative c = r := by
  constructor
  · rintro ⟨hr, hle⟩
    exact le_antisymm (representative_le hr) (hle _ (representative_mem hx))
  · rintro rfl
    exact ⟨representative_mem hx, fun y hy => representative_le hy⟩

theorem Decomposes.mem_members_iff {roots : List Nat} {edges : List (Nat × Nat)} {cs : Components}
    (h : Decomposes roots edges cs) (c : IdSet) : c ∈ cs.members ↔ IsComponent roots edges c := by
  constructor
  · intro hc
    obtain ⟨x, hx⟩ := h.nonempty c hc
    exact ⟨x, (h.exists_component_iff x).mp ⟨c, hc, hx⟩, h.mem_iff_mutual c hc x hx⟩
  · rintro ⟨x, hreached, hclass⟩
    obtain ⟨d, hd, hx⟩ := (h.exists_component_iff x).mpr hreached
    have heq : c = d := IdSet.ext fun y => by rw [hclass, h.mem_iff_mutual d hd x hx]
    exact heq ▸ hd

/-- The search succeeds for all roots and edges. Its cycles are the components with several
vertices, each once; it records for the vertices on cycles, and for no others, the smallest vertex
of their component; its order lists the smallest vertices of all components, each once, and an edge
from one component to another one leads to a later one in the order. -/
theorem find_lists_components (roots : List Nat) (edges : List (Nat × Nat)) :
    ∃ cs, find roots edges = .ok cs ∧
      (∀ c, c ∈ cs.cycles ↔ IsComponent roots edges c ∧ 1 < c.size) ∧ cs.cycles.Nodup ∧
      (∀ x r, cs.repOf[x]? = some r ↔ ∃ c ∈ cs.cycles, x ∈ c ∧ IsSmallest c r) ∧
      (∀ r, r ∈ cs.order ↔ ∃ c, IsComponent roots edges c ∧ IsSmallest c r) ∧ cs.order.Nodup ∧
      (∀ u v, (∃ r ∈ roots, Path edges r u) → (u, v) ∈ edges → ¬ Mutual edges u v →
        [cs.rep u, cs.rep v].Sublist cs.order) ∧
      cs.collapsed = (cs.cycles.map fun c => c.size - 1).sum := by
  obtain ⟨cs, hfind, h⟩ := find_decomposes roots edges
  refine ⟨cs, hfind, fun c => ?_, h.members_nodup.filter _, fun x r => ?_, fun r => ?_, ?_, ?_,
    h.collapsed_eq⟩
  · rw [cycles, List.mem_filter, h.mem_members_iff, decide_eq_true_iff]
  · rw [h.getElem?_repOf]
    refine exists_congr fun c => and_congr_right fun _ => and_congr_right fun hx => ?_
    exact (isSmallest_iff hx).symm
  · simp only [order, List.mem_map, h.mem_members_iff]
    refine exists_congr fun c => and_congr_right fun hc => ?_
    obtain ⟨x, hx⟩ := h.nonempty c ((h.mem_members_iff c).mpr hc)
    exact (isSmallest_iff hx).symm
  · refine h.order_ordered.imp ?_
    rintro x _ hxy rfl
    exact hxy .refl
  · intro u v hu hedge hne
    obtain ⟨c, hc, huc⟩ := (h.exists_component_iff u).mpr hu
    obtain ⟨r, hr, hpath⟩ := hu
    obtain ⟨d, hd, hvd⟩ := (h.exists_component_iff v).mpr ⟨r, hr, hpath.tail hedge⟩
    rw [h.rep_eq hc huc, h.rep_eq hd hvd]
    exact (h.sublist_members hc hd huc hvd hedge hne).map representative

end Components

end PointerAnalysis
