import PointerAnalysis.Proofs.Solver.Monotone
import PointerAnalysis.Proofs.Solver.Shown

/-!
Merging a group of nodes takes the quotient of the constraint graph. The constraints afterwards are
those before, with every member of the group replaced by the smallest one; address constraints of
the members that are given up are left out, and so are direct constraints inside the group, whose
shifting is recorded at the node that remains. This is so in every state of a run and for every
group of live nodes, whether or not they lie on a cycle.
-/

namespace PointerAnalysis

namespace ConstraintGraph

variable {C : Type} [Context C] {g g' : ConstraintGraph C} {r : NodeId} {subs : List NodeId}
  {members : IdSet}

/-- The node that stands for `n` once the members of a group are one with `r`. -/
def collapse (members : IdSet) (r n : NodeId) : NodeId := if n ∈ members then r else n

/-- What a group leaves out when it is merged into its member `r`: address constraints of its other
members, and the direct constraints between members, except those from `r` to itself. -/
def LeftOut (members : IdSet) (r : NodeId) (c : Constraint) : Prop :=
  (c.kind.edgeClass = .addr ∧ (c.src ∈ members ∧ c.src ≠ r ∨ c.dst ∈ members ∧ c.dst ≠ r)) ∨
    (c.kind.edgeClass = .direct ∧ (c.src ∈ members ∧ c.dst ∈ members) ∧ ¬ (c.src = r ∧ c.dst = r))

/-- The quotient of a constraint graph by a group of its nodes. -/
structure IsQuotient (g : ConstraintGraph C) (members : IdSet) (r : NodeId)
    (g' : ConstraintGraph C) : Prop where
  smallest : r ∈ members ∧ ∀ n ∈ members, r ≤ n
  isLive_iff : ∀ n, g'.isLive n ↔ g.isLive n ∧ (n ∈ members → n = r)
  rep_eq : ∀ n, g'.rep n = collapse members r (g.rep n)
  has_iff : ∀ c', g'.Has c' ↔ ∃ c, g.Has c ∧ ¬ LeftOut members r c ∧
  c.rename (collapse members r) = c'
  listed_once : ∀ e e' c, g'.edge? e = some c → g'.edge? e' = some c → e = e'
  isShifting_rep : g'.isShifting r ↔ (∃ n ∈ members, g.isShifting n) ∨
    ∃ c, g.Has c ∧ c.kind.edgeClass = .direct ∧ LeftOut members r c ∧ c.kind.isShifting
  isShifting_iff : ∀ n, n ∉ members → (g'.isShifting n ↔ g.isShifting n)

theorem survives_iff_not_leftOut (hmem : ∀ n, n ∈ members ↔ n = r ∨ n ∈ subs) (hr : r ∉ subs)
    (c : Constraint) : Survives subs members c ↔ ¬ LeftOut members r c := by
  have hsub : ∀ n, n ∈ subs ↔ n ∈ members ∧ n ≠ r := by
    intro n
    rw [hmem]
    constructor
    · exact fun hn => ⟨.inr hn, fun he => hr (he ▸ hn)⟩
    · exact fun hn => hn.1.resolve_left hn.2
  cases hcls : c.kind.edgeClass with
  | addr =>
      simp only [Survives, LeftOut, hcls, hsub]
      tauto
  | load => simp [Survives, LeftOut, hcls]
  | store => simp [Survives, LeftOut, hcls]
  | direct =>
      simp only [Survives, LeftOut, hcls, hsub]
      tauto

/-- Merging the members of a group one after the other leads to the quotient. -/
theorem Merged.isQuotient (h : Merged g g' r subs members) (hlist : members.toList = r :: subs) :
    IsQuotient g members r g' := by
  have hmem : ∀ n, n ∈ members ↔ n = r ∨ n ∈ subs := by
    intro n
    rw [IdSet.mem_def, hlist, List.mem_cons]
  have hascending := members.ascending
  rw [hlist] at hascending
  obtain ⟨hleast, -⟩ := List.pairwise_cons.mp hascending
  have hr : r ∉ subs := fun hn => (hleast r hn).false
  have hcollapse : redirect subs r = collapse members r := by
    funext n
    by_cases hn : n ∈ subs
    · rw [redirect, collapse, if_pos hn, if_pos ((hmem n).mpr (.inr hn))]
    · by_cases hnr : n = r
      · simp [redirect, collapse, hnr, hr, (hmem r).mpr]
      · have hout : n ∉ members := fun h => ((hmem n).mp h).elim hnr hn
        rw [redirect, collapse, if_neg hn, if_neg hout]
  have hleft := survives_iff_not_leftOut hmem hr
  constructor
  case smallest =>
    refine ⟨(hmem r).mpr (.inl rfl), fun n hn => ?_⟩
    rcases (hmem n).mp hn with rfl | hn
    · exact le_rfl
    · exact (hleast n hn).le
  case isLive_iff =>
    intro n
    rw [h.isLive_iff, hmem]
    refine and_congr_right fun _ => ⟨fun hn hn' => hn'.resolve_right hn, fun hn hsub => ?_⟩
    exact hr (hn (.inr hsub) ▸ hsub)
  case rep_eq => exact fun n => hcollapse ▸ h.rep_eq n
  case has_iff =>
    intro c'
    rw [h.has_iff]
    simp only [hleft, hcollapse, eq_comm]
  case listed_once => exact h.intact.toIndexed.unique
  case isShifting_rep =>
    rw [h.isShifting_iff]
    simp only [hleft, not_not, true_and, hmem, exists_eq_or_imp, or_assoc]
  case isShifting_iff =>
    intro n hn
    rw [h.isShifting_iff]
    have hne : n ≠ r := fun he => hn ((hmem n).mpr (.inl he))
    simp [hne]

end ConstraintGraph

namespace Solver

variable {C : Type} [Context C] {s : Solver C} {cg : ContextGraph C}

/-- Merging any group of live nodes takes the quotient. -/
theorem exists_isQuotient (hs : s.graph.Intact) {members : IdSet} (hsize : 1 < members.size)
    (hlive : ∀ n ∈ members, s.graph.isLive n) :
    ∃ r t, mergeGroup members s = .ok () t ∧ s.graph.IsQuotient members r t.graph := by
  obtain ⟨r, subs, hlist, -, -, _, t, hrun, hfused⟩ :=
    exhibits_mergeGroup (I := fun _ => True) hs hlive hsize fun _ _ _ _ _ => trivial
  rw [Traced.run_mergeGroup] at hrun
  exact ⟨r, t, hrun, hfused.graph.isQuotient hlist⟩

theorem Seen.intact {s₀ : Solver C} (hs₀ : s₀.WellFormed) (h : Seen s₀ s) : s.graph.Intact := by
  obtain ⟨u, hacts, hmerges⟩ := h
  cases hmerges with
  | refl => exact (hacts.wellFormed hs₀).graph.toIntact
  | tail _ hmerge =>
      obtain ⟨r, subs, members, -, hfused⟩ := hmerge
      exact hfused.graph.intact

section results

variable {p : AssignmentGraph} {policy : ContextPolicy C} {fieldSensitive : Bool}

/-- Whatever is asked of a solver, in every state that it passes through, also between the merges of
a group, any two or more live nodes can be merged as a group, and the constraints are then those of
the quotient. -/
theorem mergeGroup_takes_quotient (hp : p.Built) (hcheck : p.check = .ok ())
    (hbuild : ContextGraph.build policy p fieldSensitive = .ok cg) (strategy : Strategy)
    (requests : List Request) :
    ∃ g t, ConstraintGraph.ofContextGraph cg = .ok g ∧
      requests.forM perform (new g strategy) = .ok () t ∧ Seen (new g strategy) t ∧
      (∀ shown ∈ (requests.forM Traced.perform).shown (new g strategy),
        Seen (new g strategy) shown.2) ∧
      ∀ u : Solver C, Seen (new g strategy) u → ∀ members : IdSet, 1 < members.size →
        (∀ n ∈ members, u.graph.isLive n) →
        ∃ r v, mergeGroup members u = .ok () v ∧ u.graph.IsQuotient members r v.graph := by
  obtain ⟨hcg, -⟩ := ContextGraph.build_wellBuilt hp hcheck hbuild
  obtain ⟨g, hok, hg⟩ := ConstraintGraph.ofContextGraph_spans hcg.edges_lt
  obtain ⟨hshown, _, t, hrun, hacts, -⟩ := exhibits_performAll_new hcg hg strategy requests
  rw [Traced.run_performAll] at hrun
  refine ⟨g, t, hok, hrun, .of_acts hacts, hshown, fun u hu members => ?_⟩
  exact exists_isQuotient (hu.intact (wellFormed_new hcg hg strategy))

/-- Four nodes are merged that lie on no common cycle: the object 4, the pointers 5 and 6, between
which there is a shifting cycle, and the node 8, to which 6 is loaded. -/
theorem mergeGroup_takes_quotient_shifting :
    ∃ cg g v, ContextGraph.build insensitive shifting true = .ok cg ∧
      ConstraintGraph.ofContextGraph cg = .ok g ∧
      mergeGroup (.ofList [8, 4, 6, 5]) (new g .wave) = .ok () v ∧
      g.IsQuotient (.ofList [8, 4, 6, 5]) 4 v.graph ∧
      (g.isShifting 4 = false ∧ v.graph.isShifting 4) ∧ v.graph.Has ⟨4, 4, .load⟩ := by
  have hcheck : shifting.check = .ok () := by decide +kernel
  have hrun : (outcome? insensitive shifting true .wave).any (fun r =>
      (ConstraintGraph.ofContextGraph r.1).toOption.any fun g => [8, 4, 6, 5].all g.isLive &&
        !g.isShifting 4 && decide (g.Has ⟨6, 8, .load⟩) && decide (g.Has ⟨5, 6, .field ⟨1⟩⟩)) =
        true := by
    decide +kernel
  obtain ⟨cg, s, hbuild, ⟨g, hok, hsolve⟩, hs⟩ := exists_outcome_of_any hrun
  obtain ⟨g', t, hok', hrequests, ht, -, hquotient⟩ :=
    mergeGroup_takes_quotient built_shifting hcheck hbuild .wave []
  cases hok.symm.trans hok'
  cases hrequests
  simp only [hok, Except.toOption, Option.any_some, Bool.and_eq_true, decide_eq_true_eq,
    List.all_eq_true, Bool.not_eq_true'] at hs
  obtain ⟨⟨⟨hlive, hshifting⟩, hload⟩, hfield⟩ := hs
  obtain ⟨r, v, hmerge, hv⟩ := hquotient (new g .wave) ht (.ofList [8, 4, 6, 5]) (by decide)
    fun n hn => hlive n (IdSet.mem_ofList.mp hn)
  obtain rfl : r = 4 := by
    obtain ⟨hr, hle⟩ := hv.smallest
    have hle : r ≤ 4 := hle 4 (by decide +kernel)
    have hlist : ∀ n ∈ [8, 4, 6, 5], n ≤ 4 → n = 4 := by decide
    exact hlist r (IdSet.mem_ofList.mp hr) hle
  refine ⟨cg, g, v, hbuild, hok, hmerge, hv, ⟨hshifting, ?_⟩, ?_⟩
  · rw [hv.isShifting_rep]
    exact .inr ⟨_, hfield, rfl, .inr ⟨rfl, by decide +kernel⟩, by decide⟩
  · rw [hv.has_iff]
    exact ⟨_, hload, by simp [ConstraintGraph.LeftOut, ConstraintKind.edgeClass], by decide +kernel⟩

end results

end Solver

end PointerAnalysis
