import PointerAnalysis.Proofs.Solver.Fixpoint

/-!
Projections after merging. When the nodes of a cycle are merged, the projections between them are
dropped. Those that shift are not missed, since the objects that go round the cycle give up telling
their fields apart; a projection at offset zero then acts as a copy. So at the end of a run every
edge that projects has found its fields, unless it is a projection at offset zero that was dropped.
-/

namespace PointerAnalysis

namespace Solver

variable {C : Type} [Context C] {s t : Solver C} {cg : ContextGraph C}

/-- What the edge projects an object to is among the pointees of its target. -/
def Finds (s : Solver C) (e : ContextEdge) (o : NodeId) : Prop :=
  match e.kind with
  | .field => ∃ f ∈ s.pointsTo e.dst, s.graph.contexts.field o e.offset = .ok (f, s.graph.contexts)
  | .anyField => (ContextGraph.isSpecial o → o ∈ s.pointsTo e.dst) ∧
      (¬ ContextGraph.isSpecial o → ∃ b ∈ s.pointsTo e.dst, s.graph.contexts.baseOf o = .ok b)
  | _ => True

/-- The ends of the edge were merged, and no constraint is left of it. -/
def Dropped (s : Solver C) (e : ContextEdge) : Prop :=
  s.graph.rep e.src = s.graph.rep e.dst ∧
    ¬ s.graph.Has ⟨s.graph.rep e.src, s.graph.rep e.dst, .ofEdge e.kind e.offset⟩

/-- Some field that the source points to is so far into its object that the offset of the edge,
added to its own, wraps around. -/
def Overflows (s : Solver C) (e : ContextEdge) : Prop :=
  ∃ o ∈ s.pointsTo e.src, ¬ s.graph.contexts.StepFits o e.offset

section solved

variable {g : ConstraintGraph C} {strategy : Strategy} (h : Solved cg g strategy t)
  {e : ContextEdge} (he : e ∈ cg.edges) {o : NodeId} (ho : o ∈ t.pointsTo e.src)

include h

/-- A field that is among the pointees is found. -/
theorem Solved.finds_of_projects (hkind : e.kind = .field) (ho : o ∈ t.pointsTo e.src) {f : NodeId}
    (hf : f ∈ t.pointsTo e.dst) (hproj : t.graph.contexts.Projects o e.offset f) : Finds t e o := by
  have hlt := (h.wellFormed.target _ _ ho).1
  rw [Finds, hkind]
  obtain ⟨f', hok, rfl | ⟨hw, rfl⟩⟩ := hproj.field_eq h.wellFormed.contexts hlt
  · exact ⟨f', hf, hok⟩
  · exact ⟨_, h.folded.home_mem hf hw, hok⟩

/-- A home that is among the pointees is found. -/
theorem Solved.finds_of_home (hkind : e.kind = .anyField) (ho : o ∈ t.pointsTo e.src)
    (hhome : t.graph.contexts.home o ∈ t.pointsTo e.dst) : Finds t e o := by
  have hlt := (h.wellFormed.target _ _ ho).1
  rw [Finds, hkind]
  refine ⟨fun hspecial => ?_, fun _ => ⟨_, hhome, h.wellFormed.contexts.baseOf_eq hlt⟩⟩
  rwa [ContextGraph.WellFormed.home_of_not_partOf
    (h.wellFormed.contexts.special o · hspecial)] at hhome

include he in
/-- A projection that was not dropped is still a constraint. -/
theorem Solved.has_of_not_dropped (hkind : e.kind = .field) (hkept : ¬ Dropped t e) :
    t.graph.Has ⟨t.graph.rep e.src, t.graph.rep e.dst, .field e.offset⟩ := by
  have hfield : ConstraintKind.ofEdge e.kind e.offset = .field e.offset := by rw [hkind]; rfl
  rw [← hfield]
  by_contra hnone
  have heq := (h.reflects.has_or_eq he (by rw [hfield]; exact nofun)).resolve_left hnone
  exact hkept ⟨heq.2.1, hnone⟩

include he ho in
theorem Solved.finds_anyField (hkind : e.kind = .anyField) : Finds t e o := by
  have hctx := h.wellFormed.contexts
  have hany : ConstraintKind.ofEdge e.kind e.offset = .anyField := by rw [hkind]; rfl
  have hself : ∀ m ∈ t.pointsTo e.src, (∀ mem, ¬ t.graph.contexts.PartOf m mem) →
      t.graph.contexts.home m = m := fun m hm =>
    ContextGraph.WellFormed.home_of_not_partOf
  refine h.finds_of_home hkind ho ?_
  rcases h.reflects.has_or_eq he (by rw [hany]; exact nofun) with hc | ⟨-, heq, -⟩
  · rw [hany] at hc
    obtain ⟨p, hp, hecho, -, hpass⟩ := h.exists_sent hc rfl ho
    rw [hecho.home_eq h.wellFormed]
    rcases hpass with ⟨hnone, hin⟩ | ⟨-, f, hf, hw, hhome⟩
    · rwa [hself p hp hnone]
    · rw [← hhome]
      exact h.folded.home_mem hf hw
  · rcases h.reflects.home_mem_of_shifting he h.folded h.whole (by rw [hany]; rfl) heq ho with
      ⟨hnone, hin⟩ | ⟨-, hin⟩
    · rwa [hself o ho hnone]
    · exact hin

include ho

/-- A projection that is still a constraint has found the fields of all objects but those that were
sent late. These come from others by a projection at offset zero and have the same fields. -/
theorem Solved.finds_field_of_has (hkind : e.kind = .field)
    (hc : t.graph.Has ⟨t.graph.rep e.src, t.graph.rep e.dst, .field e.offset⟩)
    (hfits : strategy ≠ .baseline → Stutters t.graph (t.graph.rep e.src) → ¬ Overflows t e) :
    Finds t e o := by
  obtain ⟨p, hp, hecho, hbase, f, hf, hproj, -⟩ := h.exists_sent hc rfl ho
  refine h.finds_of_projects hkind ho hf ?_
  by_cases hop : o = p
  · rwa [hop]
  · obtain ⟨hst, hstart⟩ := hecho.resolve_left hop
    have hfits : ∀ q ∈ t.pointsTo e.src, t.graph.contexts.StepFits q e.offset := fun q hq => by
      by_contra hover
      exact hfits (fun hb => hop (hbase hb)) hst ⟨q, hq, hover⟩
    exact hstart.of_start h.wellFormed.contexts (hfits p hp) (hfits o ho) hproj

include he

theorem Solved.finds_field_of_shifting (hkind : e.kind = .field) (hnz : ¬ e.offset.isZero)
    (hfits : strategy ≠ .baseline → Stutters t.graph (t.graph.rep e.src) → ¬ Overflows t e) :
    Finds t e o := by
  have hfield : ConstraintKind.ofEdge e.kind e.offset = .field e.offset := by rw [hkind]; rfl
  rcases h.reflects.has_or_eq he (by rw [hfield]; exact nofun) with hc | ⟨-, heq, -⟩
  · rw [hfield] at hc
    exact h.finds_field_of_has ho hkind hc hfits
  · have hshift : (ConstraintKind.ofEdge e.kind e.offset).isShifting := by
      rw [hfield]
      simpa [ConstraintKind.isShifting] using hnz
    rcases h.reflects.home_mem_of_shifting he h.folded h.whole hshift heq ho with
      ⟨hnone, hin⟩ | ⟨hw, hin⟩
    · exact h.finds_of_projects hkind ho hin (.self hnone rfl)
    · exact h.finds_of_projects hkind ho hin (h.wellFormed.contexts.projects_home hw _)

theorem Solved.finds_field_of_zero (hkind : e.kind = .field) (hzero : e.offset.isZero)
    (hkept : ¬ Dropped t e) : Finds t e o := by
  refine h.finds_field_of_has ho hkind (h.has_of_not_dropped he hkind hkept) fun _ _ ⟨q, _,
    hover⟩ => ?_
  rw [Offset.isZero_iff.mp hzero] at hover
  exact hover (t.graph.contexts.stepFits_zero q)

end solved

/-! ## All programs -/

/-- `p = &a; q = &p[0]; p = q`, with the node 4 for the object and 5 and 6 for the pointers. -/
def rejoining : AssignmentGraph :=
  let g := (AssignmentGraph.empty.addObject .constant 2).2
  let g := (g.addValue .constant).2
  let g := (g.addValue .constant).2
  let g := (g.addEdge .addr 4 5).2
  let g := (g.addFieldEdge 5 6 0).2
  (g.addEdge .copy 6 5).2

section results

variable {p : AssignmentGraph} {policy : ContextPolicy C} {fieldSensitive : Bool}

/-- At the end of a run every edge that projects has found its fields, whether it is still a
constraint or not, unless it is a projection at offset zero that was dropped. What a sweep sends
late, from a node that the program projects onto itself, is left open where offsets wrap around. -/
theorem finds_of_not_dropped (hp : p.Built) (hcheck : p.check = .ok ())
    (hbuild : ContextGraph.build policy p fieldSensitive = .ok cg) (strategy : Strategy) :
    ∃ s, Outcome cg strategy s ∧ ∀ e ∈ cg.edges,
      (e.kind = .field → e.offset.isZero → ¬ Dropped s e) →
      (e.kind = .field → strategy ≠ .baseline → Overflows s e →
        ∀ e' ∈ cg.edges, e'.Stutters → s.graph.rep e'.src ≠ s.graph.rep e.src) →
      ∀ o ∈ s.pointsTo e.src, Finds s e o := by
  obtain ⟨hcg, -⟩ := ContextGraph.build_wellBuilt hp hcheck hbuild
  obtain ⟨g, s, houtcome, hs⟩ := exists_outcome hcg strategy
  refine ⟨s, houtcome, fun e he hkept hsteady o ho => ?_⟩
  by_cases hkind : e.kind = .field
  · by_cases hzero : e.offset.isZero
    · exact hs.finds_field_of_zero he ho hkind hzero (hkept hkind hzero)
    · refine hs.finds_field_of_shifting he ho hkind hzero fun hst hstutters hover => ?_
      obtain ⟨e', he', hself, hrep⟩ := hs.exists_stutters hstutters
      exact hsteady hkind hst hover e' he' hself hrep
  · by_cases hany : e.kind = .anyField
    · exact hs.finds_anyField he ho hany
    · unfold Finds
      split
      · exact absurd ‹_› hkind
      · exact absurd ‹_› hany
      · trivial

/-- On the cycle that shifts all projections have found their fields, although they were dropped. -/
theorem finds_of_not_dropped_shifting :
    ∃ cg s, ContextGraph.build insensitive shifting true = .ok cg ∧ Outcome cg .wave s ∧
      ∀ e ∈ cg.edges, ∀ o ∈ s.pointsTo e.src, Finds s e o := by
  have hcheck : shifting.check = .ok () := by decide +kernel
  have hbuild : (outcome? insensitive shifting true .wave).any
      (fun r => decide (∀ e ∈ r.1.edges, e.kind = .field → ¬ e.offset.isZero)) = true := by
    decide +kernel
  obtain ⟨cg, _, hbuild, -, hnz⟩ := exists_outcome_of_any hbuild
  have hnz : ∀ e ∈ cg.edges, e.kind = .field → ¬ e.offset.isZero := of_decide_eq_true hnz
  obtain ⟨s, hs, hfinds⟩ := finds_of_not_dropped built_shifting hcheck hbuild .wave
  refine ⟨cg, s, hbuild, hs, fun e he => hfinds e he ?_ ?_⟩
  · exact fun hkind hzero => absurd hzero (hnz e he hkind)
  · exact fun _ _ _ e' he' hself => absurd hself.2.1 (hnz e' he' hself.1)

/-- Merging `p` and `q` drops the projection between them before it has made the first field of `a`.
-/
theorem not_finds_rejoining :
    ∃ cg, ContextGraph.build insensitive rejoining true = .ok cg ∧ ∀ strategy, ∃ s,
      Outcome cg strategy s ∧ ∃ e ∈ cg.edges, ∃ o ∈ s.pointsTo e.src, ¬ Finds s e o := by
  have h : ∀ strategy, (outcome? insensitive rejoining true strategy).any (fun r =>
      decide (∃ e ∈ r.1.edges, e.kind = .field ∧ 4 ∈ r.2.pointsTo e.src ∧
        (r.2.graph.contexts.field 4 e.offset).toOption.any fun found =>
          decide (found.1 ∉ r.2.pointsTo e.dst))) = true := by
    intro strategy
    cases strategy <;> decide +kernel
  obtain ⟨cg, -, hbuild, -⟩ := exists_outcome_of_any (h .baseline)
  refine ⟨cg, hbuild, fun strategy => ?_⟩
  obtain ⟨cg', s, hbuild', houtcome, hs⟩ := exists_outcome_of_any (h strategy)
  cases hbuild.symm.trans hbuild'
  obtain ⟨e, he, hkind, hsrc, hmissing⟩ := of_decide_eq_true hs
  refine ⟨s, houtcome, e, he, 4, hsrc, fun hfinds => ?_⟩
  rw [Finds, hkind] at hfinds
  obtain ⟨f, hf, hok⟩ := hfinds
  simp only [hok, Except.toOption, Option.any_some, decide_eq_true_eq] at hmissing
  exact hmissing hf

end results

end Solver

end PointerAnalysis
