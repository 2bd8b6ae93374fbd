import PointerAnalysis.Proofs.Solver.Requests

/-!
Runs are monotone. Facts are kept with the node that stands for others, and move when it is merged
away; seen through representatives nothing is ever lost. Whatever step a run takes, points-to sets
grow, nodes that were merged stay merged, objects do not begin again to tell their fields apart, and
what lies on a shifting cycle remains there.
-/

namespace PointerAnalysis

namespace Solver

variable {C : Type} [Context C] {active : NodeId → Prop} {s t u : Solver C} {cg : ContextGraph C}

/-- How a state compares with a later one. -/
structure Precedes (s t : Solver C) : Prop where
  pointsTo : ∀ n, s.pointsTo n ⊆ t.pointsTo n
  rep : ∀ a b, s.graph.rep a = s.graph.rep b → t.graph.rep a = t.graph.rep b
  whole : ∀ mem, s.graph.contexts.IsWhole mem → t.graph.contexts.IsWhole mem
  shifting : ∀ n, s.graph.isShifting (s.graph.rep n) → t.graph.isShifting (t.graph.rep n)

namespace Precedes

theorem refl (s : Solver C) : Precedes s s :=
  ⟨fun _ => IdSet.subset_def.mpr fun _ h => h, fun _ _ h => h, fun _ h => h, fun _ h => h⟩

theorem trans (h : Precedes s t) (h' : Precedes t u) : Precedes s u where
  pointsTo n := IdSet.subset_def.mpr fun o ho =>
    IdSet.subset_def.mp (h'.pointsTo n) o (IdSet.subset_def.mp (h.pointsTo n) o ho)
  rep a b hab := h'.rep a b (h.rep a b hab)
  whole mem hmem := h'.whole mem (h.whole mem hmem)
  shifting n hn := h'.shifting n (h.shifting n hn)

/-- Only the graph and the points-to sets matter. -/
theorem of_graph_eq (hgraph : t.graph = s.graph)
    (hfacts : ∀ n, t.facts.pointsTo n = s.facts.pointsTo n) : Precedes s t := by
  have hpoints : ∀ n, t.pointsTo n = s.pointsTo n := fun n => by
    rw [Solver.pointsTo, Solver.pointsTo, hgraph, hfacts]
  refine ⟨fun n => ?_, ?_, ?_, ?_⟩
  · rw [hpoints]
    exact (refl s).pointsTo n
  all_goals
    rw [hgraph]
  · exact (refl s).rep
  · exact (refl s).whole
  · exact (refl s).shifting

end Precedes

/-- Shifting cycles are the only thing of which a frame does not speak. -/
theorem Frame.precedes (h : Frame s t)
    (hshift : ∀ n, s.graph.isShifting (s.graph.rep n) → t.graph.isShifting (t.graph.rep n)) :
    Precedes s t where
  pointsTo n := by
    refine IdSet.subset_def.mpr fun o ho => ?_
    have := h.pointsTo (s.graph.rep n) o ho
    rwa [h.rep_rep] at this
  rep a b hab := by rw [← h.rep_rep a, hab, h.rep_rep]
  whole mem hmem := h.contexts.isWhole hmem
  shifting := hshift

theorem Move.precedes (h : Move active s t) (hs : s.WellFormed) : Precedes s t := by
  have hframe := h.frame hs
  refine hframe.precedes fun n hn => ?_
  cases h with
  | step h =>
      have hgrows := h.grows hs
      rw [hgrows.rep_eq, ConstraintGraph.isShifting, hgrows.shifting]
      exact hn
  | collapse h =>
      cases h with
      | tally stats => exact hn
      | spill m f hf hwhole hnew =>
          change (s.learned m _).graph.isShifting ((s.learned m _).graph.rep n)
          rw [graph_learned]
          exact hn
      | fuse r subs members hgroup hdue hfused =>
          rw [hfused.graph.rep_eq]
          exact isShifting_redirect hfused hn
  | clear => exact hn
  | record facts h => exact hn

theorem Act.precedes (h : Act s t) (hs : s.WellFormed) : Precedes s t := by
  cases h with
  | turn h =>
      cases h with
      | move h => exact h.precedes hs
      | queue w hlt hnodup => exact .of_graph_eq rfl fun _ => rfl
  | reset => exact .of_graph_eq rfl fun _ => rfl
  | start objs h => exact .of_graph_eq rfl fun _ => rfl

theorem Acts.wellFormed (h : Acts s t) (hs : s.WellFormed) : t.WellFormed := by
  induction h with
  | refl => exact hs
  | tail _ hact ih => exact hact.wellFormed ih

theorem Acts.precedes (h : Acts s t) (hs : s.WellFormed) : Precedes s t := by
  induction h with
  | refl => exact .refl s
  | tail hacts hact ih => exact ih.trans (hact.precedes (Acts.wellFormed hacts hs))

/-! ## All programs -/

section results

variable {p : AssignmentGraph} {policy : ContextPolicy C} {fieldSensitive : Bool}

/-- Of any two states that a solver reaches by requests the earlier one precedes the later one; and
so it is with the states in between, between which the solver acts step by step. -/
theorem requests_monotone (hp : p.Built) (hcheck : p.check = .ok ())
    (hbuild : ContextGraph.build policy p fieldSensitive = .ok cg) (strategy : Strategy)
    (earlier later : List Request) :
    ∃ g s t, ConstraintGraph.ofContextGraph cg = .ok g ∧
      earlier.forM perform (new g strategy) = .ok () s ∧ later.forM perform s = .ok () t ∧
      Precedes s t ∧ Acts s t ∧ ∀ u v, Acts s u → Acts u v → Precedes u v := by
  obtain ⟨hcg, -⟩ := ContextGraph.build_wellBuilt hp hcheck hbuild
  obtain ⟨g, hok, hg⟩ := ConstraintGraph.ofContextGraph_spans hcg.edges_lt
  obtain ⟨_, s, hrun, hacts, hs⟩ := yields_performAll_new hcg hg strategy earlier
  have hlater : Yields (later.forM perform) s fun _ t => Acts s t := by
    rcases hs with rfl | hs
    · exact (yields_performAll_new hcg hg strategy later).mono fun _ t ht => ht.1
    · exact (hs.performAll later).mono fun _ t ht => ht.1
  obtain ⟨_, t, hlater, hst⟩ := hlater
  have hwf : s.WellFormed := hacts.wellFormed (wellFormed_new hcg hg strategy)
  refine ⟨g, s, t, hok, hrun, hlater, hst.precedes hwf, hst, fun u v hsu huv => ?_⟩
  exact huv.precedes (hsu.wellFormed hwf)

/-- After the start the field 5 is a node of its own, and only the node 6 points to it. The rounds
make it one with its object, to which the nodes 6 and 7 then point as well. -/
theorem requests_monotone_walking :
    ∃ cg g s t, ContextGraph.build insensitive walking true = .ok cg ∧
      ConstraintGraph.ofContextGraph cg = .ok g ∧
      [Request.seed].forM perform (new g .wave) = .ok () s ∧
      [Request.round, .round].forM perform s = .ok () t ∧
      (s.graph.rep 5 = 5 ∧ (s.pointsTo 6).toList = [5] ∧ (s.pointsTo 7).toList = []) ∧
      (t.graph.rep 5 = 4 ∧ (t.pointsTo 6).toList = [4, 5] ∧ (t.pointsTo 7).toList = [4, 5]) ∧
      Precedes s t := by
  have hcheck : walking.check = .ok () := by decide +kernel
  have hstart :
      (after? insensitive walking true .wave ([Request.seed].forM perform)).any (fun r => decide
      (r.2.graph.rep 5 = 5 ∧ (r.2.pointsTo 6).toList = [5] ∧ (r.2.pointsTo 7).toList = [])) =
      true := by
    decide +kernel
  have hrun : (after? insensitive walking true .wave (do
      [Request.seed].forM perform
      [Request.round, .round].forM perform)).any (fun r => decide
        (r.2.graph.rep 5 = 4 ∧ (r.2.pointsTo 6).toList = [4, 5] ∧
          (r.2.pointsTo 7).toList = [4, 5])) = true := by
    decide +kernel
  obtain ⟨cg, g, s, hbuild, hok, hseed, hs⟩ := exists_after_of_any hstart
  obtain ⟨cg', g', t, hbuild', hok', hrounds, ht⟩ := exists_after_of_any hrun
  cases hbuild.symm.trans hbuild'
  cases hok.symm.trans hok'
  obtain ⟨g', s', t', hok', hearlier, hlater, hst, -⟩ :=
    requests_monotone built_walking hcheck hbuild .wave [.seed] [.round, .round]
  cases hok.symm.trans hok'
  cases hseed.symm.trans hearlier
  have hboth : (do
      [Request.seed].forM perform
      [Request.round, .round].forM perform) (new g .wave) = .ok () t' := by
    change EStateM.bind _ _ _ = _
    rw [EStateM.bind, hseed]
    exact hlater
  cases hrounds.symm.trans hboth
  exact ⟨cg, g, s, t, hbuild, hok, hseed, hlater, of_decide_eq_true hs, of_decide_eq_true ht, hst⟩

end results

end Solver

end PointerAnalysis
