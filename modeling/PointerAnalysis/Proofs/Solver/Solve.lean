import PointerAnalysis.Proofs.ContextGraph.Build
import PointerAnalysis.Proofs.Solver.Round

/-!
Whole runs. A run on the constraints of a well-built context graph ends: each round but the last one
raises the score. It ends in a state in which no node waits, and which still reflects the graph.
-/

namespace PointerAnalysis

namespace Solver

variable {C : Type} [Context C] {active : NodeId → Prop} {s t u : Solver C} {cg : ContextGraph C}

open ConstraintGraph (constraintOf)

/-! ## Acts -/

/-- A turn, or what is done between rounds. -/
inductive Act : Solver C → Solver C → Prop where
  | turn {s t : Solver C} (h : Turn (fun _ => True) s t) : Act s t
  | reset (s : Solver C) : Act s { s with copied := false, merged := false }
  | start (s : Solver C) (objs : IdSet) (h : ∀ mem ∈ objs, s.graph.contexts.IsWhole mem) :
      Act s { s with initialized := true, pending := s.pending ∪ objs }

/-- Any number of acts. -/
abbrev Acts : Solver C → Solver C → Prop := Relation.ReflTransGen Act

theorem Turns.acts (h : Turns active s t) : Acts s t :=
  (h.weaken).lift id fun _ _ => .turn

theorem Act.wellFormed (h : Act s t) (hs : s.WellFormed) : t.WellFormed := by
  cases h with
  | turn h => exact h.wellFormed hs
  | reset => exact ⟨hs.1, hs.2, hs.3, hs.4, hs.5, hs.6, hs.7, hs.8⟩
  | start objs h =>
      refine ⟨hs.1, hs.2, hs.3, hs.4, hs.5, hs.6, hs.7, fun mem hmem => ?_⟩
      rcases IdSet.mem_union.mp hmem with hmem | hmem
      · exact hs.pending_whole mem hmem
      · exact h mem hmem

/-! ## The start -/

@[simp] theorem not_mem_pointsTo_new (g : ConstraintGraph C) (strategy : Strategy) (n o : NodeId) :
    o ∉ (new g strategy).facts.pointsTo n := by
  simp [new, Facts.pointsTo]

theorem ofEdge_eq_addr {kind : EdgeKind} {offset : Offset}
    (h : ConstraintKind.ofEdge kind offset = .addr) : kind = .addr := by
  cases kind <;> simp [ConstraintKind.ofEdge] at h ⊢

theorem ofEdge_eq_field {kind : EdgeKind} {offset offset' : Offset}
    (h : ConstraintKind.ofEdge kind offset = .field offset') :
    kind = .field ∧ offset = offset' := by
  cases kind <;> simp [ConstraintKind.ofEdge] at h ⊢
  exact h

theorem ofEdge_eq_anyField {kind : EdgeKind} {offset : Offset}
    (h : ConstraintKind.ofEdge kind offset = .anyField) : kind = .anyField := by
  cases kind <;> simp [ConstraintKind.ofEdge] at h ⊢

/-- No run has begun: only the address edges say what can be pointed to. -/
theorem coherent_new {g : ConstraintGraph C} {allowed : NodeId → Prop}
    (hg : g.Spans cg cg.edges.toList) (haddr : ∀ e ∈ cg.edges, e.kind = .addr → allowed e.src)
    (strategy : Strategy) : (new g strategy).Coherent allowed where
  graph := hg.consistent
  live n o ho := absurd ho (not_mem_pointsTo_new g strategy n o)
  target n o ho := absurd ho (not_mem_pointsTo_new g strategy n o)
  addr_target c hc hkind := by
    obtain ⟨e, he, rfl, -⟩ := (hg.has_iff c).mp hc
    exact haddr e (by simpa using he) (ofEdge_eq_addr hkind)
  worklist_lt n hn := by simp [new] at hn
  worklist_nodup := List.nodup_nil

theorem wellFormed_new {g : ConstraintGraph C} (hcg : cg.WellBuilt)
    (hg : g.Spans cg cg.edges.toList) (strategy : Strategy) : (new g strategy).WellFormed := by
  have hcontexts : (new g strategy).graph.contexts = cg := hg.contexts
  apply Coherent.wellFormed
  · rw [hcontexts]
    exact coherent_new hg hcg.addr_target strategy
  · rw [hcontexts]
    exact hcg.toWellFormed
  · intro mem hmem
    simp [new] at hmem

theorem mem_edgesOfClass {g : ConstraintGraph C} (hg : g.Indexed) {cls : EdgeClass} {e : EdgeId} :
    e ∈ g.edgesOfClass cls ↔ ∃ c, g.edge? e = some c ∧ c.kind.edgeClass = cls :=
  IdSet.mem_def.symm.trans (hg.classed cls e)

/-- The objects that start out without telling their fields apart. -/
theorem mem_wholeIds (hs : s.graph.contexts.WellFormed) {mem : MemObjId} :
    mem ∈ IdSet.ofList
      ((s.graph.contexts.memObjs.toList.filter (·.fieldInsensitive)).map MemObject.id) ↔
      s.graph.contexts.IsWhole mem := by
  simp only [IdSet.mem_ofList, List.mem_map, List.mem_filter, Array.mem_toList_iff,
    Array.mem_iff_getElem?, ContextGraph.IsWhole]
  constructor
  · rintro ⟨obj, ⟨⟨i, hobj⟩, hwhole⟩, rfl⟩
    exact ⟨obj, hs.id_eq i obj hobj ▸ hobj, hwhole⟩
  · rintro ⟨obj, hobj, hwhole⟩
    exact ⟨obj, ⟨⟨mem, hobj⟩, hwhole⟩, hs.id_eq mem obj hobj⟩

/-- The state once the objects wait to be folded that start out without telling their fields apart.
-/
def started (s : Solver C) : Solver C :=
  { s with
    initialized := true
    pending := s.pending ∪ IdSet.ofList
      ((s.graph.contexts.memObjs.toList.filter (·.fieldInsensitive)).map MemObject.id) }

theorem act_started (hs : s.WellFormed) : Act s s.started :=
  .start s _ fun _ hmem => (mem_wholeIds hs.contexts).mp hmem

theorem mem_pending_started (hs : s.WellFormed) {mem : MemObjId}
    (hwhole : s.started.graph.contexts.IsWhole mem) : mem ∈ s.started.pending :=
  IdSet.mem_union.mpr (.inr ((mem_wholeIds hs.contexts).mpr hwhole))

theorem neat_started (hs : s.WellFormed) : Neat s.started := fun _ _ _ hwhole hout =>
  absurd (mem_pending_started hs hwhole) hout

/-- The address edges of a context graph have taken effect. -/
def Seeded (cg : ContextGraph C) (s : Solver C) : Prop :=
  ∀ e ∈ cg.edges, e.kind = .addr → e.src ∈ s.pointsTo e.dst

/-- Nothing was sent or dealt with before the run, so that the records are true as long as they are
empty. -/
theorem Steps.honest_of_fresh (h : Steps active s t) (hs : s.WellFormed)
    (hsent : ∀ n, s.facts.sentBy n = ∅) (hhandled : ∀ e, s.facts.handledBy e = ∅)
    (haddr : ∀ c, t.graph.Has c → c.kind = .addr → c.src ∈ t.facts.pointsTo c.dst) : Honest t where
  wellFormed := h.wellFormed hs
  addr := haddr
  sent _ := by
    have hnone : ∀ n o, o ∉ t.facts.sentBy n := by simp [h.sentBy, hsent]
    exact ⟨fun n o ho => absurd ho (hnone n o), fun c _ _ _ o ho => absurd ho (hnone c.src o)⟩
  handled _ := by
    have hnone : ∀ e o, o ∉ t.facts.handledBy e := by simp [h.handledBy, hhandled]
    exact ⟨fun e o ho => absurd ho (hnone e o), fun e _ _ _ o ho => absurd ho (hnone e o)⟩

/-- Taking up the address constraints, while all objects wait to be folded that should be. -/
theorem yields_forM_processAddr (hs : s.WellFormed)
    (hpending : ∀ mem, s.graph.contexts.IsWhole mem → mem ∈ s.pending) :
    Yields ((s.graph.edgesOfClass .addr).forM processAddr) s fun _ t =>
      Steps (fun _ => False) s t ∧
        ∀ c, t.graph.Has c → c.kind = .addr → c.src ∈ t.facts.pointsTo c.dst := by
  refine (yields_forM_steps (fun _ => False) (P := fun e t => ∀ c, s.graph.edge? e = some c →
    c.src ∈ t.facts.pointsTo c.dst) hs
    (fun _ _ _ ht hsteps hP c he => hsteps.pointsTo ht (hP c he)) _ ?_).mono ?_
  · intro e he t ht hsteps
    obtain ⟨c, hec, hclass⟩ := (mem_edgesOfClass hs.graph.toIndexed).mp he
    have hkind : c.kind = .addr := ConstraintKind.edgeClass_eq_addr_iff.mp hclass
    have hgrows := hsteps.grows hs
    have htidy : Tidy t c.dst {c.src} := fun f _ mem _ hwhole =>
      .inl ((hgrows.whole mem hwhole).elim (fun h => hgrows.pending mem (hpending mem h)) id)
    refine (yields_processAddr (fun _ => False) ht (hgrows.edge e c hec) hkind htidy).mono ?_
    rintro _ u ⟨hsteps', hin⟩
    refine ⟨hsteps', fun c' hec' => ?_⟩
    cases hec.symm.trans hec'
    exact hin
  · rintro _ t ⟨hsteps, hall⟩
    refine ⟨hsteps, fun c hc hkind => ?_⟩
    rcases (hsteps.frame hs).has c hc with ⟨c₀, ⟨e, he⟩, -, hsame⟩ | ⟨hcopy, -⟩
    · obtain rfl := hsame hkind
      have hmem := (mem_edgesOfClass hs.graph.toIndexed).mpr ⟨c, he, by rw [hkind]⟩
      exact hall e hmem c he
    · cases hkind.symm.trans hcopy

theorem yields_seed_new {g : ConstraintGraph C} (hcg : cg.WellBuilt)
    (hg : g.Spans cg cg.edges.toList) (strategy : Strategy) :
    Yields seed (new g strategy) fun _ t => Acts (new g strategy) t ∧ Rested t ∧
      t.initialized = true ∧ t.strategy = strategy ∧ Reflects cg t ∧ Seeded cg t := by
  let s := new g strategy
  have hs : s.WellFormed := wellFormed_new hcg hg strategy
  let s₁ := s.started
  have hstart : Act s s₁ := act_started hs
  have hs₁ : s₁.WellFormed := hstart.wellFormed hs
  have hattended : Attended (fun _ => False) s₁ := fun n _ _ _ =>
    ⟨fun _ _ _ _ o ho => absurd ho (not_mem_pointsTo_new g strategy n o),
      fun _ o ho => absurd ho (not_mem_pointsTo_new g strategy n o)⟩
  change Yields seed s _
  rw [seed, yields_bind, yields_get, if_neg (by simp [s, new])]
  change Yields (set s₁ >>= fun _ => (s.graph.edgesOfClass .addr).forM processAddr >>= fun _ =>
    Solver.foldPending) s _
  rw [yields_bind, yields_set, yields_bind]
  refine (yields_forM_processAddr hs₁ fun _ => mem_pending_started hs).mono ?_
  rintro _ u ⟨hsteps, haddr⟩
  have hu : Sane u :=
    ⟨hsteps.honest_of_fresh hs₁ (fun n => by simp [s₁, s, started, new, Facts.sentBy])
      (fun e => by simp [s₁, s, started, new, Facts.handledBy]) haddr,
      hsteps.neat hs₁ (neat_started hs)⟩
  refine (hu.foldPending (fun _ => False)).mono ?_
  rintro _ t ⟨hmoves, ht, hempty⟩
  have hall : Moves (fun _ => False) s₁ t := hsteps.moves.trans hmoves
  have hkeeps := hall.turns.keeps hs₁
  refine ⟨.head hstart hall.turns.acts, ⟨ht, hempty, ?_⟩, hkeeps.2.1, hkeeps.1, ?_, ?_⟩
  · exact hattended.frame (hall.frame hs₁) hs₁ ht.wellFormed
  · exact ((reflects_new hg strategy).congr (t := s₁) rfl).turns hall.turns hs₁
  · intro e he hkind
    refine hmoves.turns.pointsTo hu.wellFormed ?_
    have hc : g.Has (constraintOf e) := by
      refine (hg.has_iff _).mpr ⟨e, by simpa using he, rfl, fun h => ?_⟩
      simp [constraintOf, hkind, ConstraintKind.ofEdge] at h
    have hc' := (hsteps.grows hs₁).has hc
    have hrep : u.graph.rep e.dst = e.dst := (hsteps.wellFormed hs₁).rep_dst hc'
    rw [pointsTo, hrep]
    exact haddr _ hc' (by simp [constraintOf, hkind, ConstraintKind.ofEdge])

/-! ## The rounds -/

/-- Rounds end, since each that asks for another one raises the score. -/
theorem Rested.rounds {N : Nat} (fuel : Nat) (hs : Rested s) (hinit : s.initialized = true)
    (hreflects : Reflects cg s) (hN : s.graph.contexts.capacity ≤ N)
    (hfuel : scoreBound N - score N s < fuel) :
    Yields (Solver.rounds fuel) s fun _ t => Acts s t ∧ t.initialized = true ∧
      t.strategy = s.strategy ∧ Reflects cg t ∧ (∀ n o, o ∈ s.pointsTo n → o ∈ t.pointsTo n) ∧
      ∃ u, RoundEnds u false t := by
  induction fuel generalizing s with
  | zero => exact absurd hfuel (Nat.not_lt_zero _)
  | succ fuel ih =>
      let s₀ : Solver C := { s with copied := false, merged := false }
      have hreset : Act s s₀ := .reset s
      have hs₀ : s₀.WellFormed := hreset.wellFormed hs.wellFormed
      rw [Solver.rounds, yields_bind]
      refine (hs.round hinit hreflects).mono fun again t hends => ?_
      have hturns := hends.turns
      have hkeeps := hturns.keeps hs₀
      have hacts : Acts s t := .head hreset hturns.acts
      have hreflects' := (hreflects.congr (t := s₀) rfl).turns hturns hs₀
      have hpoints : ∀ n o, o ∈ s.pointsTo n → o ∈ t.pointsTo n := fun n o ho =>
        hturns.pointsTo hs₀ ho
      have hinit' : t.initialized = true := hkeeps.2.1.trans hinit
      cases again with
      | false =>
          rw [if_neg Bool.false_ne_true, yields_pure]
          exact ⟨hacts, hinit', hkeeps.1, hreflects', hpoints, s, hends⟩
      | true =>
          have hadvances := hturns.advances hs₀ hN
          have hlt : score N s < score N t := by
            rcases Bool.or_eq_true_iff.mp hends.again_eq.symm with h | h
            · exact (hadvances.copied h).resolve_left Bool.false_ne_true
            · exact (hadvances.merged h).resolve_left Bool.false_ne_true
          have hle := score_le_scoreBound N t
          rw [if_pos rfl]
          refine (ih hends.toRested hinit' hreflects' ?_ ?_).mono ?_
          · rw [hkeeps.2.2.capacity_eq]
            exact hN
          · omega
          · rintro _ v ⟨hacts', hv, hst, hreflects'', hpoints', hends'⟩
            exact ⟨hacts.trans hacts', hv, hst.trans hkeeps.1, hreflects'',
              fun n o ho => hpoints' n o (hpoints n o ho), hends'⟩

/-! ## The run -/

/-- The end of a run on the constraints of a context graph. -/
structure Solved (cg : ContextGraph C) (g : ConstraintGraph C) (strategy : Strategy)
    (t : Solver C) : Prop extends Rested t where
  spans : g.Spans cg cg.edges.toList
  initialized : t.initialized = true
  strategy_eq : t.strategy = strategy
  reflects : Reflects cg t
  seeded : Seeded cg t
  acts : Acts (new g strategy) t
  idle : t.worklist.toList = []
  acyclic : Acyclic t.graph
  sends : strategy ≠ .baseline → ∀ n, Sends t n

theorem yields_solve {g : ConstraintGraph C} (hcg : cg.WellBuilt) (hg : g.Spans cg cg.edges.toList)
    (strategy : Strategy) :
    Yields solve (new g strategy) fun _ t => Solved cg g strategy t := by
  rw [solve, yields_bind]
  refine (yields_seed_new hcg hg strategy).mono ?_
  rintro _ s ⟨hacts, hs, hinit, hst, hreflects, hseeded⟩
  rw [yields_bind, yields_get]
  have hfuel := scoreBound_lt_fuel s (capacity_le_nodeBound s)
  refine (hs.rounds s.fuel hinit hreflects (Nat.le_refl _) (by omega)).mono ?_
  rintro _ t ⟨hacts', hinit', hst', hreflects', hpoints, u, hends⟩
  have hst' : t.strategy = strategy := hst'.trans hst
  exact ⟨hends.toRested, hg, hinit', hst', hreflects',
    fun e he hkind => hpoints _ _ (hseeded e he hkind),
    hacts.trans hacts', hends.idle, hends.acyclic rfl, fun h => hends.sends rfl (hst' ▸ h)⟩

end Solver

end PointerAnalysis
