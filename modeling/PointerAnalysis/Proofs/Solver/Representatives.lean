import PointerAnalysis.Proofs.Solver.Exact
import PointerAnalysis.Proofs.Solver.Grounded
import PointerAnalysis.Proofs.Solver.Requests

/-!
Representatives during whole runs. Whatever a solver is asked for, it never leaves a node without a
representative that stands for itself: not at the start, not between the merges of a group, not
while a worklist is being drained, and not between rounds. Every state that a run shows is grounded,
and the partition of a grounded state is flat.
-/

namespace PointerAnalysis

namespace Solver

variable {C : Type} [Context C] {s : Solver C} {cg : ContextGraph C}

/-! ## Watched requests -/

/-- Carries out a request and shows the states on the way. -/
def Traced.perform : Request → Traced C Unit
  | .seed => seed
  | .round => do let _ ← round
  | .solve => solve

@[simp] theorem Traced.run_perform (request : Request) :
    (perform request : Traced C Unit).run = Solver.perform request := by
  cases request with
  | seed => exact run_seed
  | round =>
      rw [perform, run_bind, run_round]
      exact bind_pure_comp _ _
  | solve => exact run_solve

theorem Traced.run_performAll (requests : List Request) :
    (requests.forM perform : Traced C Unit).run = requests.forM Solver.perform := by
  simp

theorem Grounded.perform (hs : s.Grounded) (request : Request) :
    Exhibits Grounded (Traced.perform request) s fun _ t => t.Grounded := by
  cases request with
  | seed => exact hs.seed.mono fun _ t => Onward.grounded
  | round => exact hs.round.bind fun _ t ht => (exhibits_pure _).mpr ht.1
  | solve => exact hs.exhibits_solve

theorem Grounded.performAll (hs : s.Grounded) (requests : List Request) :
    Exhibits Grounded (requests.forM Traced.perform) s fun _ t => t.Grounded :=
  .forM_of_keeps hs requests fun request _ _ ht => ht.perform request

theorem Grounded.flat (hs : s.Grounded) : Flat s := hs.ledger.flat hs.coherent

/-! ## All programs -/

section results

variable {p : AssignmentGraph} {policy : ContextPolicy C} {fieldSensitive : Bool}

/-- Whatever is asked of a solver, the partition of its nodes is flat when the start is over, after
every node that is merged, after every node that is visited, after every round, and at the end. -/
theorem flat_throughout_requests (hp : p.Built) (hcheck : p.check = .ok ())
    (hbuild : ContextGraph.build policy p fieldSensitive = .ok cg) (strategy : Strategy)
    (requests : List Request) :
    ∃ g t, ConstraintGraph.ofContextGraph cg = .ok g ∧
      (requests.forM Traced.perform).run = requests.forM (perform : Request → SolverM C Unit) ∧
      requests.forM perform (new g strategy) = .ok () t ∧ Flat t ∧
      ∀ shown ∈ (requests.forM Traced.perform).shown (new g strategy), Flat shown.2 := by
  obtain ⟨hcg, -⟩ := ContextGraph.build_wellBuilt hp hcheck hbuild
  obtain ⟨g, hok, hg⟩ := ConstraintGraph.ofContextGraph_spans hcg.edges_lt
  have hnew : (new g strategy).Grounded := grounded_new hg hcg.toWellFormed.grounded
    (fun e he _ => hcg.toWellFormed.anchored (hcg.edges_lt e he).1) strategy
  obtain ⟨hshown, _, t, hrun, ht⟩ := hnew.performAll requests
  rw [Traced.run_performAll] at hrun
  exact ⟨g, t, hok, Traced.run_performAll requests, hrun, ht.flat, fun v hv => (hshown v hv).flat⟩

/-- The start folds the field 5 into its object 4; the second round finds the two on a cycle with 7
and 8 and merges these one after the other. -/
theorem flat_throughout_requests_folding :
    ∃ cg g t, ContextGraph.build insensitive folding false = .ok cg ∧
      ConstraintGraph.ofContextGraph cg = .ok g ∧
      [Request.solve].forM perform (new g .wave) = .ok () t ∧
      (∀ event, ∃ s, (event, s) ∈ ([Request.solve].forM Traced.perform).shown (new g .wave) ∧
        Flat s) ∧
      (∃ s, (Event.merged, s) ∈ ([Request.solve].forM Traced.perform).shown (new g .wave) ∧
        [4, 5, 7, 8].map s.graph.rep = [4, 4, 4, 8] ∧ s.stats.mergedNodes = 2 ∧ Flat s) ∧
      [4, 5, 7, 8].map t.graph.rep = [4, 4, 4, 4] ∧ t.stats.mergedNodes = 3 ∧ Flat t := by
  have hcheck : folding.check = .ok () := by decide +kernel
  have hrun : (outcome? insensitive folding false .wave).any (fun r =>
      decide ([4, 5, 7, 8].map r.2.graph.rep = [4, 4, 4, 4] ∧ r.2.stats.mergedNodes = 3) &&
      (ConstraintGraph.ofContextGraph r.1).toOption.any fun g =>
        let shown := ([Request.solve].forM Traced.perform).shown (new g .wave)
        [Event.seeded, .merged, .visited, .rounded].all
        (fun event => shown.any fun v => v.1 = event) &&
        shown.any fun v => v.1 = .merged ∧ [4, 5, 7, 8].map v.2.graph.rep = [4, 4, 4, 8] ∧
          v.2.stats.mergedNodes = 2) = true := by
    decide +kernel
  obtain ⟨cg, s, hbuild, ⟨g, hok, hsolve⟩, hs⟩ := exists_outcome_of_any hrun
  obtain ⟨g', t, hok', -, hrequests, ht, hshown⟩ :=
    flat_throughout_requests built_folding hcheck hbuild .wave [.solve]
  cases hok.symm.trans hok'
  have hlone : [Request.solve].forM perform (new g .wave) = .ok () s := by
    change EStateM.bind solve (fun _ => pure ()) (new g .wave) = _
    rw [EStateM.bind, hsolve]
    rfl
  cases hlone.symm.trans hrequests
  simp only [hok, Except.toOption, Option.any_some, Bool.and_eq_true, decide_eq_true_eq,
    List.all_eq_true, List.any_eq_true] at hs
  obtain ⟨hend, hevents, ⟨_, u⟩, hu, rfl, hbetween⟩ := hs
  refine ⟨cg, g, s, hbuild, hok, hlone, fun event => ?_,
    ⟨u, hu, hbetween.1, hbetween.2, hshown _ hu⟩, hend.1, hend.2, ht⟩
  obtain ⟨⟨_, v⟩, hv, rfl⟩ := hevents event (by cases event <;> simp)
  exact ⟨v, hv, hshown _ hv⟩

end results

end Solver

end PointerAnalysis
