import PointerAnalysis.Proofs.Solver.Monotone

/-!
Cycles of direct constraints at the end of a run. A round that asks for no other one has found no
cycle when it began, and no direct constraint has appeared since; so none is left, but for
projections of a node onto itself. Neither new constraints nor merges make such a projection: it was
there from the start, of the same kind and at the same node.
-/

namespace PointerAnalysis

namespace Solver

variable {C : Type} [Context C] {active : NodeId → Prop} {s s₀ t : Solver C} {cg : ContextGraph C}

/-! ## Constraints from a node to itself -/

section loops

variable {c : Constraint} (hloop : c.src = c.dst)

include hloop

/-- A visit adds copies only, and none from a node to itself. -/
theorem Step.has_of_loop (h : Step active s t) (hs : s.WellFormed) (hc : t.graph.Has c) :
    s.graph.Has c := by
  have hgrows := h.grows hs
  have hframe := (Steps.frame (.single h)) hs
  have ht := h.wellFormed hs
  rcases hframe.has c hc with ⟨c₀, hc₀, heq, -⟩ | ⟨hcopy, -⟩
  · rw [rename_of_has ht (hgrows.has hc₀)] at heq
    exact heq ▸ hc₀
  · exact absurd hloop (ht.graph.no_loop c hc hcopy)

variable (hclass : c.kind.edgeClass = .direct)

include hclass

theorem Turn.has_of_loop (h : Turn active s t) (hs : s.WellFormed) (hc : t.graph.Has c) :
    s.graph.Has c := by
  cases h with
  | queue w hlt hnodup => exact hc
  | move hmove =>
      cases hmove with
      | step hstep => exact hstep.has_of_loop hloop hs hc
      | clear => exact hc
      | record facts _ => exact hc
      | collapse hcollapse =>
          cases hcollapse with
          | tally stats => exact hc
          | spill n f hf hwhole hnew =>
              have hgraph := graph_learned s n {s.graph.contexts.home f}
              change (s.learned n {s.graph.contexts.home f}).graph.Has c at hc
              rwa [hgraph] at hc
          | fuse r subs members hgroup hdue hfused =>
              exact loop_of_fused hgroup hfused hs hc hclass hloop

theorem Act.has_of_loop (h : Act s t) (hs : s.WellFormed) (hc : t.graph.Has c) : s.graph.Has c := by
  cases h with
  | turn hturn => exact hturn.has_of_loop hloop hclass hs hc
  | reset => exact hc
  | start objs _ => exact hc

/-- A direct constraint from a node to itself has been there from the start. -/
theorem Acts.has_of_loop (h : Acts s₀ t) (hs₀ : s₀.WellFormed) (hc : t.graph.Has c) :
    s₀.graph.Has c := by
  induction h with
  | refl => exact hc
  | tail hacts hact ih => exact ih (hact.has_of_loop hloop hclass (Acts.wellFormed hacts hs₀) hc)

end loops

/-! ## The end of a run -/

/-- A direct constraint leads from one node to another. -/
def Feeds (g : ConstraintGraph C) (m n : NodeId) : Prop :=
  m ≠ n ∧ ∃ c, g.Has c ∧ c.kind.edgeClass = .direct ∧ c.src = m ∧ c.dst = n

/-- No cycle of direct constraints is left of those of `g`, except for projections of a node onto
itself that `g` has as well. -/
structure CyclesCollapsed (g : ConstraintGraph C) (s : Solver C) : Prop where
  live : ∀ c, s.graph.Has c → s.graph.isLive c.src ∧ s.graph.isLive c.dst
  acyclic : ∀ n, ¬ Relation.TransGen (Feeds s.graph) n n
  loops : ∀ c, s.graph.Has c → c.kind.edgeClass = .direct → c.src = c.dst → c.kind ≠ .copy ∧ g.Has c

theorem Acyclic.not_transGen {g : ConstraintGraph C} (h : Acyclic g) (hg : g.Indexed) (n : NodeId) :
    ¬ Relation.TransGen (Feeds g) n n := by
  intro hcycle
  have hpath : ∀ x y, Relation.ReflTransGen (Feeds g) x y → Components.Path g.directEnds x y :=
    fun x y hxy => hxy.lift id fun _ _ hstep => hg.mem_directEnds.mpr hstep.2
  obtain ⟨m, hstep, hback⟩ := Relation.TransGen.head'_iff.mp hcycle
  exact hstep.1 (h n m ⟨hpath n m (.single hstep), hpath m n hback⟩)

theorem Acts.cyclesCollapsed {g : ConstraintGraph C} {strategy : Strategy}
    (h : Acts (new g strategy) t) (hs : (new g strategy).WellFormed) (hacyclic : Acyclic t.graph) :
    CyclesCollapsed g t where
  live c hc := by
    have ht := (Acts.wellFormed h hs).graph
    exact ⟨ht.isLive_src hc, ht.isLive_dst hc⟩
  acyclic := hacyclic.not_transGen (Acts.wellFormed h hs).graph.toIndexed
  loops c hc hclass hloop := by
    refine ⟨fun hcopy => ?_, Acts.has_of_loop hloop hclass h hs hc⟩
    exact (Acts.wellFormed h hs).graph.no_loop c hc hcopy hloop

/-! ## All programs -/

/-- `q = &a; q = &q[1]; r = q; q = r`, with the node 4 for the object and 5 and 6 for the pointers.
-/
def circling : AssignmentGraph :=
  let g := (AssignmentGraph.empty.addObject .constant 3).2
  let g := (g.addValue .constant).2
  let g := (g.addValue .constant).2
  let g := (g.addEdge .addr 4 5).2
  let g := (g.addFieldEdge 5 5 ⟨1⟩).2
  let g := (g.addEdge .copy 5 6).2
  (g.addEdge .copy 6 5).2

theorem built_circling : circling.Built :=
  have h :=
    ((AssignmentGraph.Built.empty.addObject .constant 3).addValue .constant).addValue .constant
  have h := (h.pushEdge .addr 4 5 0 none).pushEdge .field 5 5 ⟨1⟩ none
  (h.pushEdge .copy 5 6 0 none).pushEdge .copy 6 5 0 none

section results

variable {p : AssignmentGraph} {policy : ContextPolicy C} {fieldSensitive : Bool}

/-- Whatever was asked of a solver before, a whole run leaves no cycle of direct constraints, except
for projections of a node onto itself, which have been there from the start. -/
theorem cycles_collapsed_by_solve (hp : p.Built) (hcheck : p.check = .ok ())
    (hbuild : ContextGraph.build policy p fieldSensitive = .ok cg) (strategy : Strategy)
    (requests : List Request) :
    ∃ g s t, ConstraintGraph.ofContextGraph cg = .ok g ∧
      requests.forM perform (new g strategy) = .ok () s ∧ solve s = .ok () t ∧
      CyclesCollapsed g t := by
  obtain ⟨hcg, -⟩ := ContextGraph.build_wellBuilt hp hcheck hbuild
  obtain ⟨g, hok, hg⟩ := ConstraintGraph.ofContextGraph_spans hcg.edges_lt
  obtain ⟨_, s, hrun, hacts, hs⟩ := yields_performAll_new hcg hg strategy requests
  have hsolve : Yields solve s fun _ t => Acts s t ∧ Acyclic t.graph := by
    rcases hs with rfl | hs
    · exact (yields_solve hcg hg strategy).mono fun _ t ht => ⟨ht.acts, ht.acyclic⟩
    · exact hs.solve.mono fun _ t ht => ⟨ht.1, ht.2.2.2⟩
  obtain ⟨_, t, hsolve, hacts', hacyclic⟩ := hsolve
  exact ⟨g, s, t, hok, hrun, hsolve,
    Acts.cyclesCollapsed (hacts.trans hacts') (wellFormed_new hcg hg strategy) hacyclic⟩

/-- The two pointers become one; the projection of the first onto itself remains. -/
theorem cycles_collapsed_by_solve_circling :
    ∃ cg g s, ContextGraph.build insensitive circling true = .ok cg ∧
      ConstraintGraph.ofContextGraph cg = .ok g ∧ solve (new g .waveDiff) = .ok () s ∧
      s.graph.rep 6 = 5 ∧ s.graph.Has ⟨5, 5, .field ⟨1⟩⟩ ∧ CyclesCollapsed g s := by
  have hcheck : circling.check = .ok () := by decide +kernel
  have hrun : (outcome? insensitive circling true .waveDiff).any (fun r =>
      decide (r.2.graph.rep 6 = 5) && decide (r.2.graph.Has ⟨5, 5, .field ⟨1⟩⟩)) = true := by
    decide +kernel
  obtain ⟨cg, s, hbuild, ⟨g, hok, hsolve⟩, hs⟩ := exists_outcome_of_any hrun
  simp only [Bool.and_eq_true, decide_eq_true_eq] at hs
  obtain ⟨g', _, t, hok', hnone, hsolve', hcollapsed⟩ :=
    cycles_collapsed_by_solve built_circling hcheck hbuild .waveDiff []
  cases hok.symm.trans hok'
  cases hnone
  cases hsolve.symm.trans hsolve'
  exact ⟨cg, g, s, hbuild, hok, hsolve, hs.1, hs.2, hcollapsed⟩

end results

end Solver

end PointerAnalysis
