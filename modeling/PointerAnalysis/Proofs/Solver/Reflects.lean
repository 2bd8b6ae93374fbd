import PointerAnalysis.Proofs.Solver.Drain

/-!
What becomes of the edges of a context graph. Each is still a constraint between the nodes that
stand for its ends, or these have become one node; a projection that was dropped in this way leaves
a mark if it shifts. Constraints from a node to itself have been there from the start.
-/

namespace PointerAnalysis

namespace Solver

variable {C : Type} [Context C] {active : NodeId → Prop} {s t : Solver C} {cg : ContextGraph C}

open ConstraintGraph (constraintOf redirect Survives)

/-- The constraint of an edge of the context graph is there, or it was dropped when its ends were
merged. -/
def Upheld (s : Solver C) (c : Constraint) : Prop :=
  s.graph.Has (c.rename s.graph.rep) ∨ c.kind.edgeClass = .direct ∧
    s.graph.rep c.src = s.graph.rep c.dst ∧
    (c.kind.isShifting → s.graph.isShifting (s.graph.rep c.src))

/-- A node with a projection onto itself that a context graph has had from the start. -/
def LoopAt (cg : ContextGraph C) (s : Solver C) (kind : ConstraintKind) (n : NodeId) : Prop :=
  ∃ e ∈ cg.edges, e.src = e.dst ∧ (constraintOf e).kind = kind ∧ s.graph.rep e.src = n

/-- A state of a run on the constraints of a context graph. -/
structure Reflects (cg : ContextGraph C) (s : Solver C) : Prop where
  contexts : cg.Extends s.graph.contexts
  edges : ∀ e ∈ cg.edges, (constraintOf e).kind ≠ .addr → Upheld s (constraintOf e)
  loops : ∀ c, s.graph.Has c → c.kind.edgeClass = .direct → c.src = c.dst →
    LoopAt cg s c.kind c.src ∧ (c.kind.isShifting → s.graph.isShifting c.src)

theorem Upheld.grows {c : Constraint} (h : Upheld s c) (hgrows : Grows s t) : Upheld t c := by
  have hrename : c.rename t.graph.rep = c.rename s.graph.rep := by
    simp only [Constraint.rename, hgrows.rep_eq]
  rw [Upheld, hrename, hgrows.rep_eq, hgrows.rep_eq, ConstraintGraph.isShifting, hgrows.shifting]
  exact h.imp_left hgrows.has

theorem Reflects.step (h : Reflects cg s) (hstep : Step active s t) (hs : s.WellFormed) :
    Reflects cg t := by
  have hgrows := hstep.grows hs
  have hframe := (Steps.frame (.single hstep)) hs
  have ht := hstep.wellFormed hs
  refine ⟨h.contexts.trans hframe.contexts, fun e he hkind => (h.edges e he hkind).grows hgrows, ?_⟩
  intro c hc hclass hloop
  rcases hframe.has c hc with ⟨c₀, hc₀, heq, -⟩ | ⟨hcopy, -⟩
  · rw [rename_of_has ht (hgrows.has hc₀)] at heq
    subst heq
    obtain ⟨⟨e, he, hself, hkind, hrep⟩, hshift⟩ := h.loops c hc₀ hclass hloop
    refine ⟨⟨e, he, hself, hkind, (hgrows.rep_eq _).trans hrep⟩, ?_⟩
    rw [ConstraintGraph.isShifting, hgrows.shifting]
    exact hshift
  · exact absurd hloop (ht.graph.no_loop c hc hcopy)

section fuse

variable {r : NodeId} {subs : List NodeId} {members : IdSet}

/-- Both ends of a direct constraint that is dropped are merged. -/
theorem Group.redirect_eq (hgroup : Group s r subs members) (hs : s.WellFormed) {c : Constraint}
    (hc : s.graph.Has c) (hsrc : c.src ∈ members) (hdst : c.dst ∈ members) :
    redirect subs r c.src = r ∧ redirect subs r c.dst = r := by
  have hin : ∀ n, s.graph.isLive n → n ∈ members → redirect subs r n = r := by
    intro n hlive hn
    rw [redirect]
    split
    · rfl
    · rename_i hout
      exact (List.mem_cons.mp ((hgroup.members_iff n hlive).mp hn)).resolve_right hout
  exact ⟨hin _ (hs.graph.isLive_src hc) hsrc, hin _ (hs.graph.isLive_dst hc) hdst⟩

theorem survives_of_indirect {c : Constraint} (hkind : c.kind ≠ .addr)
    (hclass : c.kind.edgeClass ≠ .direct) : Survives subs members c := by
  cases hk : c.kind with
  | addr => exact absurd hk hkind
  | copy => exact absurd (by rw [hk]; rfl) hclass
  | field offset => exact absurd (by rw [hk]; rfl) hclass
  | anyField => exact absurd (by rw [hk]; rfl) hclass
  | load => simp [Survives, hk, ConstraintKind.edgeClass]
  | store => simp [Survives, hk, ConstraintKind.edgeClass]

theorem isShifting_redirect (hfused : Fused s t r subs members) {n : NodeId}
    (h : s.graph.isShifting n) : t.graph.isShifting (redirect subs r n) := by
  rw [hfused.graph.isShifting_iff, redirect]
  split
  · rename_i hn
    exact .inr ⟨rfl, .inl ⟨n, hn, h⟩⟩
  · exact .inl h

theorem Upheld.fuse {c : Constraint} (h : Upheld s c) (hkind : c.kind ≠ .addr)
    (hgroup : Group s r subs members) (hfused : Fused s t r subs members) (hs : s.WellFormed) :
    Upheld t c := by
  have hrep := hfused.graph.rep_eq
  have hrename : c.rename t.graph.rep = (c.rename s.graph.rep).rename (redirect subs r) := by
    simp only [Constraint.rename, hrep]
  rcases h with hc | ⟨hclass, heq, hshift⟩
  · by_cases hsurvives : Survives subs members (c.rename s.graph.rep)
    · exact .inl ((hfused.graph.has_iff _).mpr ⟨_, hc, hsurvives, hrename⟩)
    · have hclass : c.kind.edgeClass = .direct := by
        by_contra hclass
        exact hsurvives (survives_of_indirect hkind hclass)
      have hin : s.graph.rep c.src ∈ members ∧ s.graph.rep c.dst ∈ members := by
        simp only [Survives, Constraint.rename, hclass, Classical.not_imp, not_not] at hsurvives
        exact hsurvives.2
      obtain ⟨hsrc, hdst⟩ := hgroup.redirect_eq hs hc hin.1 hin.2
      change redirect subs r (s.graph.rep c.src) = r at hsrc
      change redirect subs r (s.graph.rep c.dst) = r at hdst
      refine .inr ⟨hclass, by rw [hrep, hrep, hsrc, hdst], fun hk => ?_⟩
      rw [hrep, hsrc]
      exact (hfused.graph.isShifting_iff r).mpr (.inr ⟨rfl, .inr ⟨_, hc, hclass, hsurvives, hk⟩⟩)
  · refine .inr ⟨hclass, by rw [hrep, hrep, heq], fun hk => ?_⟩
    rw [hrep]
    exact isShifting_redirect hfused (hshift hk)

/-- A constraint from a node to itself was one before. -/
theorem loop_of_fused (hgroup : Group s r subs members) (hfused : Fused s t r subs members)
    (hs : s.WellFormed) {c : Constraint} (hc : t.graph.Has c) (hclass : c.kind.edgeClass = .direct)
    (hloop : c.src = c.dst) : s.graph.Has c := by
  obtain ⟨c₀, hc₀, hsurvives, rfl⟩ := (hfused.graph.has_iff c).mp hc
  have hclass₀ : c₀.kind.edgeClass = .direct := hclass
  simp only [Survives, hclass₀] at hsurvives
  have hmem : ∀ n, s.graph.isLive n → redirect subs r n = r → n ∈ members := by
    intro n hlive hn
    rw [hgroup.members_iff n hlive, List.mem_cons]
    rw [redirect] at hn
    split at hn
    · exact .inr (by assumption)
    · exact .inl hn
  have hloop' : redirect subs r c₀.src = redirect subs r c₀.dst := hloop
  have hsrc := hs.graph.isLive_src hc₀
  have hdst := hs.graph.isLive_dst hc₀
  have houtsrc : c₀.src ∉ subs := fun h => by
    have hr : redirect subs r c₀.src = r := if_pos h
    exact hsurvives (.inl h) ⟨hmem _ hsrc hr, hmem _ hdst (hloop' ▸ hr)⟩
  have houtdst : c₀.dst ∉ subs := fun h => by
    have hr : redirect subs r c₀.dst = r := if_pos h
    exact hsurvives (.inr h) ⟨hmem _ hsrc (hloop'.trans hr), hmem _ hdst hr⟩
  rwa [Constraint.rename, redirect, redirect, if_neg houtsrc, if_neg houtdst]

theorem Reflects.fuse (h : Reflects cg s) (hgroup : Group s r subs members)
    (hfused : Fused s t r subs members) (hs : s.WellFormed) : Reflects cg t := by
  refine ⟨hfused.graph.contexts ▸ h.contexts,
    fun e he hkind => (h.edges e he hkind).fuse hkind hgroup hfused hs, fun c hc hclass hloop => ?_⟩
  obtain ⟨⟨e, he, hself, hkind, hrep⟩, hshift⟩ :=
    h.loops c (loop_of_fused hgroup hfused hs hc hclass hloop) hclass hloop
  -- a node that is merged away has no constraints
  have hout : c.src ∉ subs := ((hfused.graph.isLive_iff _).mp (hfused.graph.intact.isLive_src hc)).2
  refine ⟨⟨e, he, hself, hkind, ?_⟩,
    fun hk => (hfused.graph.isShifting_iff _).mpr (.inl (hshift hk))⟩
  rw [hfused.graph.rep_eq, hrep, redirect, if_neg hout]

end fuse

theorem Reflects.congr (h : Reflects cg s) (hgraph : t.graph = s.graph) : Reflects cg t := by
  obtain ⟨hcontexts, hedges, hloops⟩ := h
  unfold Upheld at hedges
  unfold LoopAt at hloops
  rw [← hgraph] at hcontexts hedges hloops
  exact ⟨hcontexts, hedges, hloops⟩

theorem Reflects.turn (h : Reflects cg s) (hturn : Turn active s t) (hs : s.WellFormed) :
    Reflects cg t := by
  cases hturn with
  | queue w hlt hnodup => exact h.congr rfl
  | move hmove =>
      cases hmove with
      | step hstep => exact h.step hstep hs
      | clear => exact h.congr rfl
      | record facts _ => exact h.congr rfl
      | collapse hcollapse =>
          cases hcollapse with
          | tally stats => exact h.congr rfl
          | spill n f hf hwhole hnew => exact h.congr (graph_learned s n _)
          | fuse r subs members hgroup hdue hfused => exact h.fuse hgroup hfused hs

theorem Reflects.turns (h : Reflects cg s) (hturns : Turns active s t) (hs : s.WellFormed) :
    Reflects cg t := by
  induction hturns with
  | refl => exact h
  | tail hturns hturn ih => exact ih.turn hturn (Turns.wellFormed hturns hs)

/-- The constraints of a context graph reflect it before the run. -/
theorem reflects_new {g : ConstraintGraph C} (hg : g.Spans cg cg.edges.toList)
    (strategy : Strategy) : Reflects cg (new g strategy) where
  contexts := by
    change cg.Extends g.contexts
    rw [hg.contexts]
    exact .refl cg
  edges e he _ := by
    have hrename : (constraintOf e).rename g.rep = constraintOf e := by
      simp only [Constraint.rename, hg.rep_eq]
    by_cases hloop : (constraintOf e).kind = .copy ∧ e.src = e.dst
    · refine .inr ⟨by rw [hloop.1]; rfl, congrArg g.rep hloop.2, fun hk => ?_⟩
      rw [hloop.1] at hk
      cases hk
    · refine .inl ?_
      change g.Has ((constraintOf e).rename g.rep)
      rw [hrename]
      exact (hg.has_iff _).mpr ⟨e, by simpa using he, rfl, hloop⟩
  loops c hc hclass hloop := by
    obtain ⟨e, he, rfl, -⟩ := (hg.has_iff c).mp hc
    refine ⟨⟨e, by simpa using he, hloop, rfl, hg.rep_eq _⟩, fun hk => ?_⟩
    exact (hg.isShifting_iff _).mpr ⟨e, he, rfl, hloop.symm, hk⟩

end Solver

end PointerAnalysis
