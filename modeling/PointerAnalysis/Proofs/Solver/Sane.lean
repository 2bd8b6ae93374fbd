import PointerAnalysis.Proofs.Solver.Visit

/-!
What holds of a state between visits: besides being well-formed and neat, address constraints have
taken effect, and the records of what was sent and dealt with tell the truth. Visits of all kinds
keep this up, and so do merging and folding.
-/

namespace PointerAnalysis

namespace Solver

variable {C : Type} [Context C] {active : NodeId → Prop} {s t u : Solver C}

/-! ## Records -/

/-- What a node has sent it points to, and its direct constraints have passed it on; those of the
nodes `out` are left aside. -/
structure SentBut (out : NodeId → Prop) (s : Solver C) : Prop where
  pointsTo : ∀ n, ∀ o ∈ s.facts.sentBy n, o ∈ s.facts.pointsTo n
  passes : ∀ c, s.graph.Has c → c.kind.edgeClass = .direct → ¬ out c.src →
    ∀ o ∈ s.facts.sentBy c.src, Passes s c o

/-- What a constraint counts as dealt with it has passed on; the constraints `out` are left aside.
-/
structure HandledBut (out : EdgeId → Prop) (s : Solver C) : Prop where
  lt : ∀ e, ∀ o ∈ s.facts.handledBy e, e < s.graph.edges.size ∧ o < s.graph.contexts.nodes.size
  passes : ∀ e c, s.graph.edge? e = some c → ¬ out e → ∀ o ∈ s.facts.handledBy e, Passes s c o

/-- Where only what is new is sent, a copy constraint that is added passes on all that its
source points to. -/
theorem Steps.has_cases (h : Steps active s t) (hst : s.strategy = .waveDiff) (hs : s.WellFormed)
    {c : Constraint} (hc : t.graph.Has c) :
    s.graph.Has c ∨ ∀ o ∈ s.facts.pointsTo c.src, Passes t c o := by
  have hgrows := h.grows hs
  rcases (h.frame hs).has c hc with ⟨c₀, hc₀, rfl, -⟩ | ⟨hkind, -, hnew⟩
  · rw [rename_of_has (h.wellFormed hs) (hgrows.has hc₀)]
    exact .inl hc₀
  · refine .inr fun o ho => ?_
    rw [Passes, hkind]
    refine hnew hst o fun m hm hself => ?_
    rw [hgrows.rep_eq, hself] at hm
    exact hm ▸ ⟨hs.live _ _ ho, ho⟩

theorem SentBut.steps {out : NodeId → Prop} (h : SentBut out s) (hst : s.strategy = .waveDiff)
    (hsteps : Steps active s t) (hs : s.WellFormed) : SentBut out t := by
  have hgrows := hsteps.grows hs
  refine ⟨fun n o ho => hsteps.pointsTo hs (h.pointsTo n o (hsteps.sentBy n ▸ ho)), ?_⟩
  intro c hc hclass hout o ho
  rw [hsteps.sentBy] at ho
  have hpts := h.pointsTo c.src o ho
  rcases hsteps.has_cases hst hs hc with hc₀ | hnew
  · exact (h.passes c hc₀ hclass hout o ho).grows (hsteps.frame hs) hgrows hs
      (hsteps.wellFormed hs) hc₀ (hs.target _ _ hpts).1
  · exact hnew o hpts

theorem HandledBut.frame {out : EdgeId → Prop} (h : HandledBut out s) (hframe : Frame s t)
    (heq : ∀ e, t.facts.handledBy e = s.facts.handledBy e) (hs : s.WellFormed) (ht : t.WellFormed) :
    HandledBut out t := by
  refine ⟨fun e o ho => ?_, fun e c hec hout o ho => ?_⟩
  · obtain ⟨he, ho⟩ := h.lt e o (heq e ▸ ho)
    exact ⟨Nat.lt_of_lt_of_le he hframe.fresh.size_le,
      Nat.lt_of_lt_of_le ho hframe.contexts.size_le⟩
  · rw [heq] at ho
    obtain ⟨he, hlt⟩ := h.lt e o ho
    rcases hframe.fresh.edge e c hec with hold | hnew
    · have := (h.passes e c hold hout o ho).frame hframe hs ht hlt
      rwa [rename_of_has ht ⟨e, hec⟩] at this
    · exact absurd he (Nat.not_lt_of_le hnew)

/-! ## States between visits -/

/-- Address constraints have taken effect, and the records tell the truth. -/
structure Honest (s : Solver C) : Prop where
  wellFormed : s.WellFormed
  addr : ∀ c, s.graph.Has c → c.kind = .addr → c.src ∈ s.facts.pointsTo c.dst
  sent : s.strategy = .waveDiff → SentBut (fun _ => False) s
  handled : s.strategy = .waveDiff → HandledBut (fun _ => False) s

/-- What holds between visits. -/
structure Sane (s : Solver C) : Prop extends Honest s where
  neat : Neat s

theorem addr_frame (hframe : Frame s t) (ht : t.WellFormed)
    (h : ∀ c, s.graph.Has c → c.kind = .addr → c.src ∈ s.facts.pointsTo c.dst) :
    ∀ c, t.graph.Has c → c.kind = .addr → c.src ∈ t.facts.pointsTo c.dst := by
  intro c hc hkind
  rcases hframe.has c hc with ⟨c₀, hc₀, -, hsame⟩ | ⟨hcopy, -⟩
  · obtain rfl := hsame hkind
    rw [← ht.rep_dst hc]
    exact hframe.pointsTo _ _ (h c hc₀ hkind)
  · cases hkind.symm.trans hcopy

theorem Steps.honest (h : Steps active s t) (hs : Honest s) : Honest t where
  wellFormed := h.wellFormed hs.wellFormed
  addr := addr_frame (h.frame hs.wellFormed) (h.wellFormed hs.wellFormed) hs.addr
  sent hst := by
    have hst : s.strategy = .waveDiff := (h.frame hs.wellFormed).strategy ▸ hst
    exact (hs.sent hst).steps hst h hs.wellFormed
  handled hst := by
    have hst : s.strategy = .waveDiff := (h.frame hs.wellFormed).strategy ▸ hst
    exact (hs.handled hst).frame (h.frame hs.wellFormed) h.handledBy hs.wellFormed
      (h.wellFormed hs.wellFormed)

theorem Steps.sane (h : Steps active s t) (hs : Sane s) : Sane t :=
  ⟨h.honest hs.toHonest, h.neat hs.wellFormed hs.neat⟩

theorem Collapses.frame (h : Collapses s t) (hs : s.WellFormed) : Frame s t :=
  (h.moves : Moves (fun _ => False) s t).frame hs

/-- A node that takes in others counts as sent only what all of them have sent. -/
theorem sentBy_collapse (hst : s.strategy = .waveDiff) (hstep : Collapse s t) (hs : s.WellFormed)
    {n o : NodeId} (ho : o ∈ t.facts.sentBy n) : (s.graph.isLive n → t.graph.rep n = n) ∧
      o ∈ s.facts.sentBy n ∧ ∀ m, s.graph.isLive m → t.graph.rep m = n → o ∈ s.facts.sentBy m := by
  cases hstep with
  | tally stats =>
      refine ⟨hs.graph.rep_of_isLive n, ho, fun m hm hrep => ?_⟩
      change s.graph.rep m = n at hrep
      rw [hs.graph.rep_of_isLive m hm] at hrep
      exact hrep ▸ ho
  | spill p f hf hwhole hnew =>
      have ho : o ∈ s.facts.sentBy n := sentBy_learned s p _ n ▸ ho
      have hrep : ∀ m, s.graph.isLive m →
          (s.learned p {s.graph.contexts.home f}).graph.rep m = m := by
        intro m hm
        rw [graph_learned, hs.graph.rep_of_isLive m hm]
      exact ⟨hrep n, ho, fun m hm hmn => (hrep m hm).symm.trans hmn ▸ ho⟩
  | fuse r subs members hgroup hdue hfused =>
      obtain ⟨hout, hold, hall⟩ := hfused.sentBy hst n o ho
      have hrep : ∀ m, s.graph.isLive m → t.graph.rep m = ConstraintGraph.redirect subs r m := by
        intro m hm
        rw [hfused.graph.rep_eq, hs.graph.rep_of_isLive m hm]
      refine ⟨fun hn => (hrep n hn).trans (if_neg hout), hold, fun m hm hmn => ?_⟩
      rw [hrep m hm, ConstraintGraph.redirect] at hmn
      split at hmn
      · rename_i hsub
        exact hall hmn.symm m hsub
      · exact hmn ▸ hold

theorem SentBut.collapse (h : SentBut (fun _ => False) s) (hst : s.strategy = .waveDiff)
    (hstep : Collapse s t) (hs : s.WellFormed) : SentBut (fun _ => False) t := by
  have hframe := Collapses.frame (.single hstep) hs
  have ht := hstep.wellFormed hs
  refine ⟨fun n o ho => ?_, fun c hc hclass _ o ho => ?_⟩
  · obtain ⟨hrep, hold, -⟩ := sentBy_collapse hst hstep hs ho
    have hpts := h.pointsTo n o hold
    have := hframe.pointsTo n o hpts
    rwa [hrep (hs.live n o hpts)] at this
  · obtain ⟨-, -, hall⟩ := sentBy_collapse hst hstep hs ho
    rcases hframe.has c hc with ⟨c₀, hc₀, rfl, -⟩ | ⟨hkind, -, hnew⟩
    · have ho₀ := hall c₀.src (hs.graph.isLive_src hc₀) rfl
      exact (h.passes c₀ hc₀ hclass id o ho₀).frame hframe hs ht
        (hs.target _ _ (h.pointsTo _ o ho₀)).1
    · rw [Passes, hkind]
      refine hnew hst o fun m hm hself => ?_
      have hsize : t.graph.slots.size = s.graph.slots.size := by
        rw [hs.graph.size_eq, ht.graph.size_eq, hstep.contexts]
      have hlt : m < s.graph.slots.size := by
        by_contra hge
        have hrep := ht.graph.rep_of_size_le m (hsize ▸ Nat.le_of_not_lt hge)
        have := ConstraintGraph.isLive_lt (ht.graph.isLive_src hc)
        rw [← hm, hrep, hsize] at this
        exact hge this
      have hlive := hs.graph.isLive_rep m hlt
      rw [hself] at hlive
      exact ⟨hlive, h.pointsTo m o (hall m hlive hm)⟩

theorem Collapses.honest (h : Collapses s t) (hs : Honest s) : Honest t := by
  induction h with
  | refl => exact hs
  | @tail u v _ hstep ih =>
      have hframe := Collapses.frame (.single hstep) ih.wellFormed
      have hv := hstep.wellFormed ih.wellFormed
      refine ⟨hv, addr_frame hframe hv ih.addr, fun hst => ?_, fun hst => ?_⟩
      · have hst : u.strategy = .waveDiff := hframe.strategy ▸ hst
        exact (ih.sent hst).collapse hst hstep ih.wellFormed
      · have hst : u.strategy = .waveDiff := hframe.strategy ▸ hst
        exact (ih.handled hst).frame hframe hstep.handledBy ih.wellFormed hv

theorem Collapses.sane (h : Collapses s t) (hs : Sane s) : Sane t :=
  ⟨h.honest hs.toHonest, h.neat hs.wellFormed hs.neat⟩

/-- Only the graph, the facts and the strategy matter. -/
theorem Honest.congr (hs : Honest s) (ht : t.WellFormed) (hgraph : t.graph = s.graph)
    (hstrategy : t.strategy = s.strategy) (hfacts : t.facts = s.facts) : Honest t := by
  refine ⟨ht, ?_, fun hst => ?_, fun hst => ?_⟩
  · rw [hgraph, hfacts]
    exact hs.addr
  · obtain ⟨hpts, hpass⟩ := hs.sent (hstrategy ▸ hst)
    refine ⟨hfacts ▸ hpts, ?_⟩
    unfold Passes at hpass ⊢
    rw [hgraph, hfacts]
    exact hpass
  · obtain ⟨hlt, hpass⟩ := hs.handled (hstrategy ▸ hst)
    unfold Passes at hpass
    refine ⟨by rwa [hgraph, hfacts], ?_⟩
    unfold Passes
    rw [hgraph, hfacts]
    exact hpass

theorem Sane.congr (hs : Sane s) (ht : t.WellFormed) (hgraph : t.graph = s.graph)
    (hstrategy : t.strategy = s.strategy) (hfacts : t.facts = s.facts)
    (hpending : t.pending = s.pending) : Sane t := by
  refine ⟨hs.toHonest.congr ht hgraph hstrategy hfacts, fun f mem hpart hwhole hout => ?_⟩
  rw [hgraph] at hpart hwhole
  rw [hpending] at hout
  obtain ⟨hrep, hpointers⟩ := hs.neat f mem hpart hwhole hout
  exact ⟨by rwa [hgraph], by rwa [hgraph, hfacts]⟩

/-! ## Folding -/

theorem Sane.foldPending (active : NodeId → Prop) (hs : Sane s) :
    Yields foldPending s fun _ t => Moves active s t ∧ Sane t ∧ t.pending = ∅ := by
  refine (yields_foldPending hs.wellFormed hs.neat).mono fun _ t ⟨hcollapses, hneat⟩ => ?_
  have hclear : Move active s { s with pending := ∅ } := .clear s
  have hs' := hs.toHonest.congr (hclear.wellFormed hs.wellFormed) rfl rfl rfl
  exact ⟨.head hclear hcollapses.moves, ⟨hcollapses.honest hs', hneat⟩, hcollapses.pending⟩

/-- What a node on a shifting cycle points to gives up telling fields apart. -/
theorem yields_widenAll (active : NodeId → Prop) (hs : s.WellFormed) {n : NodeId}
    (hn : s.graph.isLive n) (hshift : s.graph.isShifting n) :
    Yields ((s.pointsTo n).toList.forM markFieldInsensitive) s fun _ t => Steps active s t ∧
      ∀ o ∈ s.facts.pointsTo n, ∀ mem, s.graph.contexts.PartOf o mem →
      t.graph.contexts.IsWhole mem := by
  rw [pointsTo, hs.graph.rep_of_isLive n hn]
  refine yields_forM_steps active
    (P := fun o t => ∀ mem, s.graph.contexts.PartOf o mem → t.graph.contexts.IsWhole mem) hs
    (fun _ _ _ ht h hP mem hmem => (Steps.frame h ht).contexts.isWhole (hP mem hmem)) _ ?_
  intro o ho t ht hst
  have hpts : o ∈ t.facts.pointsTo n := hst.pointsTo hs ho
  have hshift' : t.graph.isShifting n := by
    rw [ConstraintGraph.isShifting, (hst.grows hs).shifting]
    exact hshift
  have hdue : WidenDue t o := .shifting n hshift' hpts
  refine (yields_markFieldInsensitive active ht (ht.target n o hpts).1 hdue).mono ?_
  rintro _ u ⟨hsteps, hwhole⟩
  exact ⟨hsteps, fun mem hmem => hwhole mem ((hst.frame hs).contexts.partOf hmem)⟩

/-- Before a node on a shifting cycle is visited, what it points to gives up telling fields apart.
-/
theorem Sane.settle (active : NodeId → Prop) (hs : Sane s) {n : NodeId} (hn : s.graph.isLive n) :
    Yields (settle n) s fun m t => Moves active s t ∧ Sane t ∧ m = t.graph.rep n ∧
      (¬ s.graph.isShifting n → t = s) ∧
      (s.graph.isShifting n → t.pending = ∅ ∧ ∀ o ∈ s.facts.pointsTo n, ∀ mem,
        s.graph.contexts.PartOf o mem → t.graph.contexts.IsWhole mem) := by
  have hwf := hs.wellFormed
  have hrep := hwf.graph.rep_of_isLive n hn
  rw [Solver.settle, yields_bind, yields_get]
  by_cases hshift : s.graph.isShifting n = true
  · rw [if_pos hshift, yields_bind]
    refine (yields_widenAll active hwf hn hshift).mono ?_
    rintro _ t ⟨hsteps, hwhole⟩
    rw [yields_bind]
    refine ((hsteps.sane hs).foldPending active).mono ?_
    rintro _ u ⟨hmoves, hu, hpending⟩
    have hext := (hmoves.frame (hsteps.wellFormed hwf)).contexts
    rw [yields_rep]
    exact ⟨hsteps.moves.trans hmoves, hu, rfl, fun h => absurd hshift h, fun _ => ⟨hpending,
      fun o ho mem hmem => hext.isWhole (hwhole o ho mem hmem)⟩⟩
  · rw [if_neg hshift, yields_pure]
    exact ⟨.refl, hs, hrep.symm, fun _ => rfl, fun h => absurd h hshift⟩

/-! ## Visits -/

theorem Neat.tidy (h : Neat s) (n m : NodeId) : Tidy s m (s.facts.pointsTo n) := by
  intro f hf mem hpart hwhole
  by_cases hmem : mem ∈ s.pending
  · exact .inl hmem
  · exact .inr (.inl ((h f mem hpart hwhole hmem).pointers n hf))

theorem Sane.tidy_addr (hs : Sane s) {c : Constraint} (hc : s.graph.Has c)
    (hkind : c.kind = .addr) : Tidy s c.dst {c.src} := by
  intro f hf mem hpart hwhole
  obtain rfl := IdSet.mem_singleton.mp hf
  by_cases hmem : mem ∈ s.pending
  · exact .inl hmem
  · exact .inr (.inr ((hs.neat _ mem hpart hwhole hmem).pointers c.dst (hs.addr c hc hkind)))

/-- A full visit deals with all constraints that are about what the node points to. -/
theorem Sane.visitFully (active : NodeId → Prop) (hs : Sane s) {n : NodeId} (hn : s.graph.isLive n)
    (hactive : active n) :
    Yields (visitFully n) s fun _ t => Steps active s t ∧
      ∀ c, s.graph.Has c → c.holder = n → ∀ o ∈ s.facts.pointsTo n, Passes t c o := by
  have htally : Step active s _ := .tally s { s.stats with visits := s.stats.visits + 1 }
  have hs₁ := Steps.sane (.single htally) hs
  rw [Solver.visitFully, yields_bind, countVisit, yields_count, yields_bind, yields_get,
    yields_bind]
  refine (yields_forM_steps active (P := fun _ _ => True) hs₁.wellFormed (fun _ _ _ _ _ h => h) _
    ?_).mono ?_
  · intro e he t ht hsteps
    obtain ⟨c, hec, hclass, -⟩ := (hs₁.wellFormed.graph.listed .incoming n .addr e).mp he
    have hec' := (hsteps.grows hs₁.wellFormed).edge e c hec
    have hkind : c.kind = .addr := ConstraintKind.edgeClass_eq_addr_iff.mp hclass
    refine (yields_processAddr active ht hec' hkind
      ((hsteps.sane hs₁).tidy_addr ⟨e, hec'⟩ hkind)).mono fun _ u h => ⟨h.1, trivial⟩
  · rintro _ t ⟨hst, -⟩
    have ht := hst.sane hs₁
    have hgrows := hst.grows hs₁.wellFormed
    have hlive : t.graph.isLive n := hgrows.isLive n hn
    rw [yields_bind]
    refine (yields_dereference active ht.wellFormed hlive).mono ?_
    rintro _ u ⟨htu, haccess⟩
    have hu := htu.sane ht
    have hgrows' := htu.grows ht.wellFormed
    have hlive' : u.graph.isLive n := hgrows'.isLive n hlive
    rw [yields_bind, yields_get, pointsTo, hu.wellFormed.graph.rep_of_isLive n hlive']
    refine (yields_send active hu.wellFormed hactive (fun o ho => ho)
      fun c _ _ _ => hu.neat.tidy n c.dst).mono ?_
    rintro _ v ⟨huv, hdirect⟩
    refine ⟨.head htally (hst.trans (htu.trans huv)), fun c hc hholder o ho => ?_⟩
    have hct := hgrows.has hc
    have hot := hst.pointsTo hs₁.wellFormed ho
    have hcu := hgrows'.has hct
    have hou := htu.pointsTo ht.wellFormed hot
    by_cases hindirect : c.kind = .load ∨ c.kind = .store
    · exact (Settled.steps ⟨hcu, (hu.wellFormed.target n o hou).1,
        haccess c hct ⟨hindirect, hholder⟩ o hot⟩ hu.wellFormed huv).passes
    · by_cases haddr : c.kind = .addr
      · rw [Passes, haddr]
        trivial
      · have hsrc : c.src = n := by
          rw [Constraint.holder, if_neg fun h => hindirect (.inr h)] at hholder
          exact hholder
        refine hdirect c hcu ?_ hsrc o hou
        cases hk : c.kind <;> simp [hk, ConstraintKind.edgeClass] at hindirect haddr ⊢

/-- What a visit with changes to the records amounts to. -/
structure Attends (active : NodeId → Prop) (s t : Solver C) : Prop where
  moves : Moves active s t
  grows : Grows s t
  pointsTo : ∀ n, ∀ o ∈ s.facts.pointsTo n, o ∈ t.facts.pointsTo n

namespace Attends

theorem refl (s : Solver C) : Attends active s s := ⟨.refl, .refl s, fun _ _ h => h⟩

theorem trans (h : Attends active s t) (h' : Attends active t u) : Attends active s u :=
  ⟨h.moves.trans h'.moves, h.grows.trans h'.grows,
    fun n o ho => h'.pointsTo n o (h.pointsTo n o ho)⟩

end Attends

theorem Steps.attends (h : Steps active s t) (hs : s.WellFormed) : Attends active s t :=
  ⟨h.moves, h.grows hs, fun _ _ => h.pointsTo hs⟩

/-- One load or store deals with the objects that are new to it. -/
theorem Sane.dereferenceNew (active : NodeId → Prop) (hs : Sane s) (hst : s.strategy = .waveDiff)
    {process : NodeId → EdgeId → SolverM C Unit} {e : EdgeId} {c : Constraint} {n : NodeId}
    (hec : s.graph.edge? e = some c)
    (hprocess : ∀ (t : Solver C) o, t.WellFormed → t.graph.edge? e = some c →
      o ∈ t.facts.pointsTo n → Yields (process o e) t fun _ u => Steps active t u ∧ Passes u c o) :
    Yields (dereferenceNew process n e) s fun _ t => Attends active s t ∧ Sane t ∧
      ∀ o ∈ s.facts.pointsTo n, Settled t c o := by
  have hwf := hs.wellFormed
  let s₁ : Solver C := { s with facts := (s.facts.handle e n).2 }
  have hrecord : Move active s s₁ := .record s _ fun m => Facts.pointsTo_handle s.facts e n m
  have hwf₁ := hrecord.wellFormed hwf
  -- only what this constraint counts as dealt with has changed
  have hneat₁ : Neat s₁ := fun f mem hpart hwhole hout =>
    ⟨(hs.neat f mem hpart hwhole hout).rep, (hs.neat f mem hpart hwhole hout).pointers⟩
  have hsent₁ : SentBut (fun _ => False) s₁ := ⟨(hs.sent hst).pointsTo, (hs.sent hst).passes⟩
  have hhandled₁ : HandledBut (· = e) s₁ := by
    refine ⟨fun e' o ho => ?_, fun e' c' hec' hne o ho => ?_⟩
    · rcases (Facts.mem_handledBy_handle s.facts e e' n o).mp ho with hold | ⟨rfl, hnew⟩
      · exact (hs.handled hst).lt e' o hold
      · exact ⟨ConstraintGraph.edge?_lt hec, (hwf.target n o hnew).1⟩
    · rcases (Facts.mem_handledBy_handle s.facts e e' n o).mp ho with ho | ⟨rfl, -⟩
      · exact (hs.handled hst).passes e' c' hec' id o ho
      · exact absurd rfl hne
  rw [Solver.dereferenceNew, yields_bind, yields_get, yields_bind, yields_modify]
  refine (yields_forM_steps active (P := fun o t => Settled t c o) hwf₁
    (fun _ _ _ ht hsteps hP => hP.steps ht hsteps) _ ?_).mono ?_
  · intro o ho t ht hsteps
    have hpts : o ∈ s₁.facts.pointsTo n := (IdSet.mem_sdiff.mp ho).1
    have hec' := (hsteps.grows hwf₁).edge e c hec
    refine (hprocess t o ht hec' (hsteps.pointsTo hwf₁ hpts)).mono fun _ u ⟨hsteps', hpass⟩ => ?_
    have hlt := (ht.target n o (hsteps.pointsTo hwf₁ hpts)).1
    exact ⟨hsteps', (hsteps'.grows ht).has ⟨e, hec'⟩,
      Nat.lt_of_lt_of_le hlt (hsteps'.frame ht).contexts.size_le, hpass⟩
  · rintro _ t ⟨hsteps, hall⟩
    have ht := hsteps.wellFormed hwf₁
    have hframe := hsteps.frame hwf₁
    have hgrows := hsteps.grows hwf₁
    have hsettled : ∀ o, o ∈ s.facts.handledBy e ∨ o ∈ s.facts.pointsTo n → Settled t c o := by
      intro o ho
      by_cases hold : o ∈ s.facts.handledBy e
      · have hpass : Settled s₁ c o := ⟨⟨e, hec⟩, ((hs.handled hst).lt e o hold).2,
          (hs.handled hst).passes e c hec id o hold⟩
        exact hpass.steps hwf₁ hsteps
      · exact hall o (IdSet.mem_sdiff.mpr ⟨ho.resolve_left hold, hold⟩)
    have hattends : Attends active s₁ t := hsteps.attends hwf₁
    refine ⟨⟨.head hrecord hattends.moves, ?_, hattends.pointsTo⟩, ⟨⟨ht, ?_, ?_, ?_⟩, ?_⟩,
      fun o ho => hsettled o (.inr ho)⟩
    · exact ⟨hgrows.1, hgrows.2, hgrows.3, hgrows.4, hgrows.5, hgrows.6⟩
    · exact addr_frame hframe ht hs.addr
    · exact fun _ => hsent₁.steps hst hsteps hwf₁
    · intro _
      have hhandled := hhandled₁.frame hframe hsteps.handledBy hwf₁ ht
      refine ⟨hhandled.lt, fun e' c' hec' _ o ho => ?_⟩
      by_cases he : e' = e
      · subst he
        cases (hgrows.edge e' c hec).symm.trans hec'
        rw [hsteps.handledBy] at ho
        refine (hsettled o ?_).passes
        rcases (Facts.mem_handledBy_handle s.facts e' e' n o).mp ho with ho | ⟨-, ho⟩
        · exact .inl ho
        · exact .inr ho
      · exact hhandled.passes e' c' hec' he o ho
    · exact hsteps.neat hwf₁ hneat₁

/-- All loads, or all stores, through a pointer deal with what is new to them. -/
theorem Sane.forM_dereferenceNew (active : NodeId → Prop) (hs : Sane s)
    (hst : s.strategy = .waveDiff)
    {process : NodeId → EdgeId → SolverM C Unit} {n : NodeId} {P : Constraint → Prop}
    {edges : List EdgeId} (hedges : ∀ e ∈ edges, ∃ c, s.graph.edge? e = some c ∧ P c)
    (hprocess : ∀ (t : Solver C) o e c, t.WellFormed → t.graph.edge? e = some c → P c →
      o ∈ t.facts.pointsTo n → Yields (process o e) t fun _ u => Steps active t u ∧ Passes u c o) :
    Yields (edges.forM (Solver.dereferenceNew process n)) s fun _ t => Attends active s t ∧ Sane t ∧
      ∀ e ∈ edges, ∀ c, s.graph.edge? e = some c → ∀ o ∈ s.facts.pointsTo n, Settled t c o := by
  refine (Yields.forM (I := Sane) (R := fun t u => Attends active t u ∧ (Sane t → Sane u))
    (fun t => ⟨.refl t, id⟩) (fun h h' => ⟨h.1.trans h'.1, fun ht => h'.2 (h.2 ht)⟩)
    (fun ht h => h.2 ht) (P := fun e t => ∀ c, s.graph.edge? e = some c →
      ∀ o ∈ s.facts.pointsTo n, Settled t c o) hs ?_ edges ?_).mono ?_
  · rintro e t u ht ⟨hattends, hu⟩ hP c hec o ho
    exact (hP c hec o ho).grows (hattends.moves.frame ht.wellFormed) hattends.grows ht.wellFormed
      (hu ht).wellFormed
  · rintro e he t ht ⟨hattends, -⟩
    obtain ⟨c, hec, hc⟩ := hedges e he
    have hst' : t.strategy = .waveDiff :=
      (hattends.moves.frame hs.wellFormed).strategy.trans hst
    refine (ht.dereferenceNew active hst' (hattends.grows.edge e c hec)
      fun u o hu hec' ho => hprocess u o e c hu hec' hc ho).mono ?_
    rintro _ u ⟨hattends', hu, hall⟩
    refine ⟨⟨hattends', fun _ => hu⟩, fun c' hec' o ho => ?_⟩
    cases hec.symm.trans hec'
    exact hall o (hattends.pointsTo n o ho)
  · rintro _ t ⟨⟨hattends, ht⟩, hall⟩
    exact ⟨hattends, ht hs, hall⟩

/-- A visit for loads and stores deals with all of them. -/
theorem Sane.visitIndirect (active : NodeId → Prop) (hs : Sane s) {n : NodeId}
    (hn : s.graph.isLive n) : Yields (visitIndirect n) s fun _ t => Attends active s t ∧ Sane t ∧
      ∀ c, s.graph.Has c → IsAccess c n → ∀ o ∈ s.facts.pointsTo n, Passes t c o := by
  have htally : Step active s _ := .tally s { s.stats with visits := s.stats.visits + 1 }
  have hs₁ := Steps.sane (.single htally) hs
  have hfirst := Steps.attends (.single htally) hs.wellFormed
  rw [Solver.visitIndirect, yields_bind, countVisit, yields_count, yields_bind, yields_get]
  by_cases hst : s.strategy = .waveDiff
  · rw [if_pos hst, yields_bind]
    refine (hs₁.forM_dereferenceNew active hst (P := fun c => c.kind = .load ∧ c.holder = n)
      (fun e he => (mem_loads hs₁.wellFormed).mp he) ?_).mono ?_
    · rintro t o e c ht hec ⟨hkind, hholder⟩ ho
      exact yields_processLoad active ht hec hkind (holder_of_load hkind ▸ hholder ▸ ho)
    · rintro _ t ⟨hst₁, ht, hloads⟩
      have hst' : t.strategy = .waveDiff :=
        (hst₁.moves.frame hs₁.wellFormed).strategy.trans hst
      have hstores : ∀ e c, s.graph.edge? e = some c → c.kind = .store → c.holder = n →
          e ∈ (s.graph.edgesAt .incoming n .store).toList := fun e c hec hkind hholder =>
        (mem_stores hs.wellFormed).mpr ⟨c, hec, hkind, hholder⟩
      refine (ht.forM_dereferenceNew active hst' (P := fun c => c.kind = .store ∧ c.holder = n)
        ?_ ?_).mono ?_
      · intro e he
        obtain ⟨c, hec, hc⟩ := (mem_stores hs₁.wellFormed).mp he
        exact ⟨c, hst₁.grows.edge e c hec, hc⟩
      · rintro u o e c hu hec ⟨hkind, hholder⟩ ho
        exact yields_processStore active hu hec hkind (holder_of_store hkind ▸ hholder ▸ ho)
      · rintro _ u ⟨htu, hu, hstored⟩
        refine ⟨hfirst.trans (hst₁.trans htu), hu, ?_⟩
        rintro c ⟨e, hec⟩ ⟨hkind | hkind, hholder⟩ o ho
        · have hsettled :=
            hloads e ((mem_loads hs₁.wellFormed).mpr ⟨c, hec, hkind, hholder⟩) c hec o ho
          exact (hsettled.grows (htu.moves.frame ht.wellFormed) htu.grows ht.wellFormed
            hu.wellFormed).passes
        · exact (hstored e (hstores e c hec hkind hholder) c (hst₁.grows.edge e c hec) o
            (hst₁.pointsTo n o ho)).passes
  · rw [if_neg hst]
    refine (yields_dereference active hs₁.wellFormed hn).mono fun _ t ⟨hsteps, haccess⟩ => ?_
    exact ⟨hfirst.trans (hsteps.attends hs₁.wellFormed), hsteps.sane hs₁, haccess⟩

section unsent

variable {n : NodeId} (hs : Sane s) (hst : s.strategy = .waveDiff)

include hs hst

/-- Once it is recorded that a node sends all it holds, only this node may owe something. -/
theorem Sane.sentBut_send (n : NodeId) :
    SentBut (· = n) { s with facts := (s.facts.send n).1 } := by
  refine ⟨fun m o ho => ?_, fun c hc hclass hne o ho => ?_⟩
  · rw [Facts.sentBy_send] at ho
    split at ho
    · rename_i hm
      exact hm ▸ ho
    · exact (hs.sent hst).pointsTo m o ho
  · rw [Facts.sentBy_send, if_neg hne] at ho
    exact (hs.sent hst).passes c hc hclass id o ho

/-- What a node has not sent yet keeps the target of a copy closed under homes: a home that is
missing there has not been sent either. -/
theorem Sane.tidy_unsent {c : Constraint} (hc : s.graph.Has c) (hkind : c.kind = .copy) :
    Tidy s c.dst (s.facts.pointsTo c.src \ s.facts.sentBy c.src) := by
  intro f hf mem hpart hwhole
  by_cases hmem : mem ∈ s.pending
  · exact .inl hmem
  · have hhome := (hs.neat f mem hpart hwhole hmem).pointers _ (IdSet.mem_sdiff.mp hf).1
    by_cases hold : s.graph.contexts.home f ∈ s.facts.sentBy c.src
    · have hpass := (hs.sent hst).passes c hc (by rw [hkind]; rfl) id _ hold
      rw [Passes, hkind] at hpass
      exact .inr (.inr hpass)
    · exact .inr (.inl (IdSet.mem_sdiff.mpr ⟨hhome, hold⟩))

theorem Sane.yields_sendUnsent (active : NodeId → Prop) (hactive : active n) :
    Yields (if (s.facts.send n).2 then send n ((s.facts.send n).1.gainedBy n) else pure ())
      { s with facts := (s.facts.send n).1 } fun _ t =>
        Steps active { s with facts := (s.facts.send n).1 } t ∧
        ∀ c, s.graph.Has c → c.kind.edgeClass = .direct → c.src = n →
          ∀ o ∈ s.facts.pointsTo n \ s.facts.sentBy n, Passes t c o := by
  have hrecord : Move active s _ := .record s _ fun m => Facts.pointsTo_send s.facts n m
  rw [Facts.snd_send, Facts.gainedBy_send]
  split
  · refine yields_send active (hrecord.wellFormed hs.wellFormed) hactive
      (fun o ho => (IdSet.mem_sdiff.mp ho).1) ?_
    rintro c hc hkind rfl
    exact hs.tidy_unsent hst hc hkind
  · rename_i hempty
    rw [Bool.not_eq_true', Bool.not_eq_false] at hempty
    exact (yields_pure _).mpr ⟨.refl, fun _ _ _ _ o ho => absurd ho (IdSet.isEmpty_iff.mp hempty o)⟩

/-- Sending what was not sent before, where only that is sent. -/
theorem Sane.sendNew (active : NodeId → Prop) (hactive : active n) :
    Yields (do
        let (facts, gained) := s.facts.send n
        set { s with facts }
        if gained then send n (facts.gainedBy n)) s fun _ t => Attends active s t ∧ Sane t ∧
      ∀ c, s.graph.Has c → c.kind.edgeClass = .direct → c.src = n →
        ∀ o ∈ s.facts.pointsTo n, Passes t c o := by
  have hwf := hs.wellFormed
  let s₁ : Solver C := { s with facts := (s.facts.send n).1 }
  have hrecord : Move active s s₁ := .record s _ fun m => Facts.pointsTo_send s.facts n m
  have hwf₁ := hrecord.wellFormed hwf
  have hneat₁ : Neat s₁ := fun f mem hpart hwhole hout =>
    ⟨(hs.neat f mem hpart hwhole hout).rep, (hs.neat f mem hpart hwhole hout).pointers⟩
  have hhandled₁ : HandledBut (fun _ => False) s₁ := ⟨(hs.handled hst).lt, (hs.handled hst).passes⟩
  change Yields (set s₁ >>= fun _ => if (s.facts.send n).2 then
    send n ((s.facts.send n).1.gainedBy n) else pure ()) s _
  rw [yields_bind, yields_set]
  refine (hs.yields_sendUnsent hst active hactive).mono ?_
  rintro _ t ⟨hsteps, hnew⟩
  have ht := hsteps.wellFormed hwf₁
  have hframe := hsteps.frame hwf₁
  have hgrows := hsteps.grows hwf₁
  have hattends : Attends active s₁ t := hsteps.attends hwf₁
  have hall : ∀ c, s.graph.Has c → c.kind.edgeClass = .direct → c.src = n →
      ∀ o ∈ s.facts.pointsTo n, Passes t c o := by
    intro c hc hclass hsrc o ho
    by_cases hold : o ∈ s.facts.sentBy n
    · have hpass : Settled s₁ c o := ⟨hc, (hwf.target n o ho).1,
        (hs.sent hst).passes c hc hclass id o (hsrc ▸ hold)⟩
      exact (hpass.steps hwf₁ hsteps).passes
    · exact hnew c hc hclass hsrc o (IdSet.mem_sdiff.mpr ⟨ho, hold⟩)
  refine ⟨⟨.head hrecord hattends.moves,
    ⟨hgrows.1, hgrows.2, hgrows.3, hgrows.4, hgrows.5, hgrows.6⟩,
    hattends.pointsTo⟩, ⟨⟨ht, addr_frame hframe ht hs.addr, fun _ => ?_, fun _ => ?_⟩, ?_⟩, hall⟩
  · have hsent := (hs.sentBut_send hst n).steps hst hsteps hwf₁
    refine ⟨hsent.pointsTo, fun c hc hclass _ o ho => ?_⟩
    by_cases hsrc : c.src = n
    · rw [hsteps.sentBy, Facts.sentBy_send, if_pos hsrc] at ho
      rcases hsteps.has_cases hst hwf₁ hc with hc₀ | hpass
      · exact hall c hc₀ hclass hsrc o ho
      · exact hpass o (hsrc ▸ ho)
    · exact hsent.passes c hc hclass hsrc o ho
  · exact hhandled₁.frame hframe hsteps.handledBy hwf₁ ht
  · exact hsteps.neat hwf₁ hneat₁

end unsent

/-- A visit for direct constraints settles the node, and then the direct constraints of the node
that stands for it pass on all that this one points to. -/
theorem Sane.visitDirect (hs : Sane s) {n : NodeId} (hn : s.graph.isLive n) :
    Yields (visitDirect n) s fun _ t => ∃ u, Moves (fun _ => False) s u ∧ Sane u ∧
      (s.graph.isShifting n → u.pending = ∅ ∧ ∀ o ∈ s.facts.pointsTo n, ∀ mem,
        s.graph.contexts.PartOf o mem → u.graph.contexts.IsWhole mem) ∧
      Attends (· = u.graph.rep n) u t ∧ Sane t ∧
      ∀ c, u.graph.Has c → c.kind.edgeClass = .direct → c.src = u.graph.rep n →
        ∀ o ∈ u.facts.pointsTo (u.graph.rep n), Passes t c o := by
  have htally : Step (fun _ => False) s _ := .tally s { s.stats with visits := s.stats.visits + 1 }
  have hs₁ := Steps.sane (.single htally) hs
  rw [Solver.visitDirect, yields_bind, countVisit, yields_count, yields_bind]
  refine (hs₁.settle (fun _ => False) hn).mono ?_
  rintro _ u ⟨hmoves, hu, rfl, -, hshift⟩
  have hmoves' : Moves (fun _ => False) s u := .head (.step htally) hmoves
  have hlive : u.graph.isLive (u.graph.rep n) := by
    have hsize := (hmoves'.frame hs.wellFormed).size_le hs.wellFormed hu.wellFormed
    exact hu.wellFormed.graph.isLive_rep n (Nat.lt_of_lt_of_le (ConstraintGraph.isLive_lt hn) hsize)
  rw [yields_bind, yields_get]
  by_cases hst : u.strategy = .waveDiff
  · rw [if_pos hst]
    refine (hu.sendNew hst (· = u.graph.rep n) rfl).mono ?_
    rintro _ t ⟨hattends, ht, hpass⟩
    exact ⟨u, hmoves', hu, hshift, hattends, ht, hpass⟩
  · rw [if_neg hst, pointsTo, rep_rep hu.wellFormed]
    refine (yields_send (· = u.graph.rep n) hu.wellFormed rfl (fun o ho => ho)
      fun c _ _ _ => hu.neat.tidy _ c.dst).mono ?_
    rintro _ t ⟨hsteps, hpass⟩
    exact ⟨u, hmoves', hu, hshift, hsteps.attends hu.wellFormed, hsteps.sane hu, hpass⟩

end Solver

end PointerAnalysis
