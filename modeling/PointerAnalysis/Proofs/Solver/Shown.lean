import PointerAnalysis.Proofs.Solver.Representatives

/-!
The states that runs show. On the constraints of a well-built context graph acts lead to every state
that a run shows on its way, but for merges: while a group is being merged, some of its members are
still apart. Whatever acts and merges keep is therefore so in every state that is shown.
-/

namespace PointerAnalysis

namespace Solver

variable {C : Type} [Context C] {α β : Type} {active : NodeId → Prop} {s s₀ t : Solver C}
  {cg : ContextGraph C}

/-! ## What a computation shows -/

/-- Whatever the computation shows satisfies `I`, whether or not it succeeds. -/
def Shows (I : Solver C → Prop) (x : Traced C α) (s : Solver C) : Prop := ∀ v ∈ x.shown s, I v.2

section shows

variable {I : Solver C → Prop} {x : Traced C α} {m : SolverM C α} {f : α → Traced C β}
  {Q : α → Solver C → Prop}

theorem shows_pure (a : α) : Shows I (pure a) s := fun _ hv => nomatch hv

theorem shows_quietly (m : SolverM C α) : Shows I (Traced.quietly m) s := fun _ hv => nomatch hv

theorem shows_observe {event : Event} (h : I s) : Shows I (Traced.observe event) s := by
  intro v hv
  rw [List.mem_singleton.mp hv]
  exact h

theorem shows_bind (hx : Shows I x s) (hf : ∀ a t, x.run s = .ok a t → Shows I (f a) t) :
    Shows I (x >>= f) s := by
  intro v hv
  cases hrun : x.run s with
  | ok a t =>
      rw [Traced.shown_bind hrun] at hv
      rcases List.mem_append.mp hv with hv | hv
      · exact hx v hv
      · exact hf a t hrun v hv
  | error e t =>
      rw [Traced.shown_bind_of_error hrun] at hv
      exact hx v hv

/-- If it is known how the first part ends, the second part may start from there. -/
theorem Shows.bind (hx : Exhibits I x s Q) (hf : ∀ a t, Q a t → Shows I (f a) t) :
    Shows I (x >>= f) s := by
  obtain ⟨hshown, a, t, hok, hq⟩ := hx
  apply shows_bind hshown
  intro a' t' hok'
  cases hok.symm.trans hok'
  exact hf a t hq

theorem Shows.quietly (h : Yields m s fun a t => Shows I (f a) t) :
    Shows I (Traced.quietly m >>= f) s :=
  .bind (exhibits_quietly.mpr h) fun _ _ h => h

theorem Shows.get {f : Solver C → Traced C β} (h : Shows I (f s) s) :
    Shows I (Traced.quietly get >>= f) s :=
  .quietly (yields_get.mpr h)

end shows

/-! ## States on the way -/

/-- Nodes are merged, though others may have to follow. -/
def Merge (s t : Solver C) : Prop :=
  ∃ r subs members, Mergeable s r subs ∧ Fused s t r subs members

/-- Acts lead from `s` to `t`, but for merges at the end. -/
def Seen (s t : Solver C) : Prop := ∃ u, Acts s u ∧ Relation.ReflTransGen Merge u t

theorem Seen.of_acts (h : Acts s t) : Seen s t := ⟨t, h, .refl⟩

theorem Moves.acts (h : Moves active s t) : Acts s t := h.turns.acts

theorem Collapses.acts (h : Collapses s t) : Acts s t :=
  (h.moves : Moves (fun _ => True) s t).acts

/-! ## Folding -/

theorem exhibits_foldField (hs : s.WellFormed) (hacts : Acts s₀ s) {f : NodeId}
    (hwhole : s.graph.contexts.WholeAt f) (hfield : s.graph.contexts.IsField f) :
    Exhibits (Seen s₀) (Traced.foldField (s.graph.contexts.home f) f) s fun _ t =>
      Collapses s t := by
  have hrun := yields_foldField hs hwhole hfield
  rw [← Traced.run_foldField] at hrun
  refine ⟨?_, hrun.mono fun _ t ht => ht.1⟩
  apply Shows.quietly
  rw [yields_bind, yields_get]
  refine (yields_spill hs hwhole hfield).mono ?_
  rintro _ t ⟨hspilt, hgraph, -⟩
  apply Shows.get
  dsimp only
  split
  · rename_i hne
    have ht := hspilt.wellFormed hs
    rw [← hgraph] at hwhole hne ⊢
    have hlt : f < t.graph.contexts.nodes.size := hwhole.elim fun _ h => h.1.lt
    have hhome := ht.contexts.home_lt hlt
    rw [← ht.graph.size_eq] at hlt hhome
    obtain ⟨hgroup, hmerge⟩ := yields_mergeReps ht.graph hhome hlt hne rfl
    refine shows_bind (.quietly (hmerge.mono fun _ u hfused => ?_)) fun _ _ _ => shows_quietly _
    have hfuse : Collapse t u := .fuse _ _ _ hgroup (.fold f hwhole rfl rfl) hfused
    have hsu : Collapses s u := hspilt.tail hfuse
    exact shows_observe (.of_acts (hacts.trans hsu.acts))
  · exact shows_pure _

theorem exhibits_foldObject (hs : s.WellFormed) (hacts : Acts s₀ s) {mem : MemObjId}
    (hwhole : s.graph.contexts.IsWhole mem) :
    Exhibits (Seen s₀) (Traced.foldObject mem) s fun _ t => Collapses s t := by
  have hmem : mem < s.graph.contexts.memObjs.size := by
    obtain ⟨obj, hobj, -⟩ := hwhole
    exact (Array.getElem?_eq_some_iff.mp hobj).1
  obtain ⟨bases, hok, hbases, -⟩ := hs.contexts.baseCopies_spec hmem
  rw [Traced.foldObject, exhibits_bind, exhibits_quietly, yields_bind, yields_get,
    yields_orHalt hok]
  apply Exhibits.forM_of_keeps .refl
  intro base hbase t hst
  rw [exhibits_bind, exhibits_quietly, yields_get, hst.contexts]
  apply Exhibits.forM_of_keeps hst
  intro f hf u hsu
  obtain ⟨hfield, hhome, hpart⟩ := hs.contexts.partOf_of_mem_fieldsAt (hbases base hbase).1 hf
  rw [← hsu.contexts] at hfield hhome hpart hwhole
  subst hhome
  exact (exhibits_foldField (hsu.wellFormed hs) (hacts.trans hsu.acts) ⟨mem, hpart, hwhole⟩
    hfield).mono fun _ v => hsu.trans

theorem shows_foldPending (hs : s.WellFormed) (hacts : Acts s₀ s) :
    Shows (Seen s₀) Traced.foldPending s := by
  let s₁ : Solver C := { s with pending := ∅ }
  have hclear : Moves (fun _ => True) s s₁ := .single (.clear s)
  have hs₁ := hclear.wellFormed hs
  apply Shows.get
  apply Shows.quietly
  rw [yields_modify]
  refine (Exhibits.forM_of_keeps (P := Collapses s₁) .refl _ fun mem hmem t hst => ?_).1
  have hwhole : t.graph.contexts.IsWhole mem := by
    rw [hst.contexts]
    exact hs.pending_whole mem hmem
  exact (exhibits_foldObject (hst.wellFormed hs₁) (hacts.trans (hclear.acts.trans hst.acts))
    hwhole).mono fun _ u => hst.trans

theorem Sane.exhibits_foldPending (hs : Sane s) (hacts : Acts s₀ s) :
    Exhibits (Seen s₀) Traced.foldPending s fun _ t =>
      Moves (fun _ => True) s t ∧ Sane t ∧ t.pending = ∅ := by
  have hrun := hs.foldPending (fun _ => True)
  rw [← Traced.run_foldPending] at hrun
  exact ⟨shows_foldPending hs.wellFormed hacts, hrun⟩

/-! ## Visits -/

theorem shows_settle (hs : s.WellFormed) (hacts : Acts s₀ s) {n : NodeId} (hn : s.graph.isLive n) :
    Shows (Seen s₀) (Traced.settle n) s := by
  apply Shows.get
  split
  · rename_i hshift
    refine .quietly ((yields_widenAll (fun _ => True) hs hn hshift).mono ?_)
    rintro _ t ⟨hsteps, -⟩
    exact shows_bind (shows_foldPending (hsteps.wellFormed hs) (hacts.trans hsteps.moves.acts))
      fun _ _ _ => shows_quietly _
  · exact shows_pure _

theorem Sane.exhibits_visitDirect (hs : Sane s) (hacts : Acts s₀ s) {n : NodeId}
    (hn : s.graph.isLive n) :
    Exhibits (Seen s₀) (Traced.visitDirect n) s fun _ t => Moves (fun _ => True) s t ∧ Sane t := by
  have htally : Move (fun _ => True) s _ :=
    .step (.tally s { s.stats with visits := s.stats.visits + 1 })
  have hrun := hs.visitDirect hn
  rw [← Traced.run_visitDirect] at hrun
  refine ⟨?_, hrun.mono ?_⟩
  · apply Shows.quietly
    rw [countVisit, yields_count]
    have hsettle := shows_settle (htally.wellFormed hs.wellFormed)
      (hacts.trans (Moves.acts (.single htally))) hn
    exact shows_bind hsettle fun _ _ _ => shows_quietly _
  · rintro _ t ⟨u, hsu, -, -, hattends, ht, -⟩
    exact ⟨hsu.weaken.trans hattends.moves.weaken, ht⟩

theorem Sane.exhibits_sweep (hs : Sane s) (hacts : Acts s₀ s) (n : NodeId) :
    Exhibits (Seen s₀) (Traced.sweep n) s fun _ t => Moves (fun _ => True) s t ∧ Sane t := by
  rw [Traced.sweep, exhibits_bind, exhibits_quietly, yields_get]
  dsimp only
  split
  · rename_i hn
    refine (hs.exhibits_visitDirect hacts hn.2).bind ?_
    rintro _ t ⟨hst, ht⟩
    exact (exhibits_observe _).mpr ⟨.of_acts (hacts.trans hst.acts), hst, ht⟩
  · exact (exhibits_observe _).mpr ⟨.of_acts hacts, .refl, hs⟩

theorem Sane.exhibits_sweeps (hs : Sane s) (hacts : Acts s₀ s) (order : List NodeId) :
    Exhibits (Seen s₀) (order.forM Traced.sweep) s fun _ t => Moves (fun _ => True) s t ∧
      Sane t := by
  apply Exhibits.forM_of_keeps ⟨.refl, hs⟩
  rintro n - t ⟨hst, ht⟩
  refine (ht.exhibits_sweep (hacts.trans hst.acts) n).mono ?_
  rintro _ u ⟨htu, hu⟩
  exact ⟨hst.trans htu, hu⟩

section drain

variable {visit : NodeId → SolverM C Unit} {strategy : Strategy}
  (hvisit : Deals active visit strategy)

include hvisit

theorem Sane.exhibits_serve (hs : Sane s) (hacts : Acts s₀ s) (hst : s.strategy = strategy)
    {n : NodeId} (hn : n < s.graph.slots.size) :
    Exhibits (Seen s₀) (Traced.serve visit n) s fun _ t => Moves active s t ∧ Sane t := by
  have hwf := hs.wellFormed
  have hlive := hwf.graph.isLive_rep n hn
  have hrun := hs.serve hvisit hst hn
  have hsettle := hs.settle active hlive
  rw [← Traced.run_serve] at hrun
  rw [← Traced.run_settle] at hsettle
  refine ⟨?_, hrun.mono fun _ t ht => ⟨ht.1, ht.2.1⟩⟩
  apply Shows.quietly
  rw [yields_rep]
  apply Shows.get
  rw [if_pos hlive]
  refine .bind ⟨shows_settle hwf hacts hlive, hsettle⟩ ?_
  rintro _ u ⟨hsu, hu, rfl, -, -⟩
  have hframe := hsu.frame hwf
  have hlive' : u.graph.isLive (u.graph.rep (s.graph.rep n)) := by
    apply hu.wellFormed.graph.isLive_rep
    exact Nat.lt_of_lt_of_le (ConstraintGraph.isLive_lt hlive) (hframe.size_le hwf hu.wellFormed)
  refine .quietly ((hvisit u _ hu (hframe.strategy.trans hst) hlive').mono ?_)
  rintro _ v ⟨huv, hv, -⟩
  have hacts := hacts.trans (hsu.acts.trans huv.acts)
  refine .bind (hv.exhibits_foldPending hacts) ?_
  rintro _ w ⟨hvw, -⟩
  exact shows_observe (.of_acts (hacts.trans hvw.acts))

theorem Sane.shows_drain (fuel : Nat) (hs : Sane s) (hacts : Acts s₀ s)
    (hst : s.strategy = strategy) : Shows (Seen s₀) (Traced.drain visit fuel) s := by
  induction fuel generalizing s with
  | zero => exact shows_quietly _
  | succ fuel ih =>
      apply Shows.get
      cases hpop : s.worklist.pop? with
      | none => exact shows_pure _
      | some p =>
          obtain ⟨n, w⟩ := p
          obtain ⟨hn, hlt, hnodup⟩ := hs.wellFormed.coherent.of_pop hpop
          have hqueue : Turn (fun _ => True) s { s with worklist := w } := .queue s w hlt hnodup
          have hs₁ : Sane { s with worklist := w } := hs.queue hlt hnodup
          have hacts₁ : Acts s₀ { s with worklist := w } := hacts.tail (.turn hqueue)
          apply Shows.quietly
          rw [yields_modify]
          refine .bind (hs₁.exhibits_serve hvisit hacts₁ hst hn) ?_
          rintro _ t ⟨hmoves, ht⟩
          apply ih ht (hacts₁.trans hmoves.acts)
          exact (hmoves.frame hs₁.wellFormed).strategy.trans hst

end drain

/-! ## Rounds -/

theorem exhibits_mergeCycles_seen (hs : s.WellFormed) (hacts : Acts s₀ s) :
    Exhibits (Seen s₀) Traced.mergeCycles s fun order t => CyclesMerged s t order := by
  have htally : Collapses s _ :=
    .single (.tally s { s.stats with cycleSearches := s.stats.cycleSearches + 1 })
  refine (exhibits_mergeCycles hs.graph (.of_acts (hacts.trans htally.acts)) ?_).mono
    fun _ _ h => h.2
  rintro t u r subs members ⟨v, hv, hmerges⟩ hmergeable hfused
  exact ⟨v, hv, hmerges.tail ⟨r, subs, members, hmergeable, hfused⟩⟩

/-- The end of a round. -/
theorem Rested.shows_finish {visit : NodeId → SolverM C Unit}
    (hvisit : Deals active visit s.strategy) (hs : Rested s) (hacts : Acts s₀ s) :
    Shows (Seen s₀) (do
        Traced.drain visit (← Traced.quietly get).fuel
        Traced.foldPending
        Traced.observe .rounded
        let s ← Traced.quietly get
        return s.copied || s.merged) s := by
  have hdrain := hs.drain hvisit
  rw [← Traced.run_drain] at hdrain
  apply Shows.get
  refine .bind ⟨hs.toSane.shows_drain hvisit s.fuel hacts rfl, hdrain⟩ ?_
  rintro _ t ⟨hturns, ht, -⟩
  have hacts := hacts.trans hturns.acts
  refine .bind (ht.toSane.exhibits_foldPending hacts) ?_
  rintro _ u ⟨hmoves, -⟩
  refine shows_bind (shows_observe (.of_acts (hacts.trans hmoves.acts))) fun _ _ _ => ?_
  exact .get (shows_pure _)

/-- A round after the cycles have been merged. -/
theorem CyclesMerged.shows_serve {order : List NodeId} (h : CyclesMerged s t order)
    (hs : s.WellFormed) (ht : Rested t) (hacts : Acts s₀ t) :
    Shows (Seen s₀) (do
        if (← Traced.quietly get).strategy.isWave then
          order.forM Traced.sweep
          Traced.foldPending
          Traced.drain visitIndirect (← Traced.quietly get).fuel
        else
          Traced.quietly (order.forM schedule)
          Traced.drain visitFully (← Traced.quietly get).fuel
        Traced.foldPending
        Traced.observe .rounded
        let s ← Traced.quietly get
        return s.copied || s.merged) t := by
  apply Shows.get
  split
  · rename_i hwave
    refine .bind (ht.toSane.exhibits_sweeps hacts order) ?_
    rintro _ u ⟨htu, hu⟩
    refine .bind (hu.exhibits_foldPending (hacts.trans htu.acts)) ?_
    rintro _ v ⟨huv, hv, hpending⟩
    have htv : Moves (fun _ => True) t v := htu.trans huv
    have hframe := htv.frame ht.wellFormed
    have hv : Rested v := ⟨hv, hpending, ht.attended.frame hframe ht.wellFormed hv.wellFormed⟩
    have hst : v.strategy ≠ .baseline := by
      intro hst
      rw [hframe.strategy] at hst
      rw [hst] at hwave
      cases hwave
    exact hv.shows_finish (deals_visitIndirect hst) (hacts.trans htv.acts)
  · obtain ⟨hqueue, hqueued⟩ := h.queue hs ht
    apply Shows.quietly
    rw [yields_forM_schedule]
    exact hqueued.shows_finish (deals_visitFully _) (hacts.tail (.turn hqueue))

theorem Ready.exhibits_seed (hs : Ready cg s) (hacts : Acts s₀ s) :
    Exhibits (Seen s₀) Traced.seed s fun _ t => Acts s₀ t ∧ Ready cg t := by
  rw [Traced.seed, exhibits_bind, exhibits_quietly, yields_get, if_pos hs.initialized,
    exhibits_pure]
  exact ⟨hacts, hs⟩

section seeded

variable (hseed : Exhibits (Seen s₀) Traced.seed s fun _ t => Acts s₀ t ∧ Ready cg t)

include hseed

theorem shows_round : Shows (Seen s₀) Traced.round s := by
  refine .bind hseed ?_
  rintro _ t ⟨hacts, ht⟩
  let t₁ : Solver C :=
    { t with
      copied := false, merged := false, stats := { t.stats with rounds := t.stats.rounds + 1 } }
  have hwf := ht.wellFormed
  have ht₁ : Rested t₁ :=
    ht.toRested.congr ⟨hwf.1, hwf.2, hwf.3, hwf.4, hwf.5, hwf.6, hwf.7, hwf.8⟩ rfl rfl rfl rfl
      fun _ h => h
  have hacts₁ : Acts s₀ t₁ := (hacts.tail (.reset t)).tail (.turn (.move (.step (.tally _ _))))
  apply Shows.quietly
  rw [yields_modify]
  apply Shows.quietly
  rw [yields_count]
  refine .bind (exhibits_mergeCycles_seen ht₁.wellFormed hacts₁) fun order u hmerged => ?_
  exact hmerged.shows_serve ht₁.wellFormed (ht₁.collapses hmerged.collapses)
    (hacts₁.trans hmerged.collapses.acts)

end seeded

theorem Ready.shows_rounds (fuel : Nat) (hs : Ready cg s) (hacts : Acts s₀ s) :
    Shows (Seen s₀) (Traced.rounds fuel) s := by
  induction fuel generalizing s with
  | zero => exact shows_quietly _
  | succ fuel ih =>
      have hround := hs.round
      rw [← Traced.run_round] at hround
      refine .bind ⟨shows_round (hs.exhibits_seed hacts), hround⟩ ?_
      rintro again t ⟨hst, ht, -⟩
      cases again with
      | false => exact shows_pure _
      | true => exact ih ht (hacts.trans hst)

/-! ## Requests -/

theorem shows_perform (hseed : Exhibits (Seen s₀) Traced.seed s fun _ t => Acts s₀ t ∧ Ready cg t)
    (request : Request) : Shows (Seen s₀) (Traced.perform request) s := by
  cases request with
  | seed => exact hseed.1
  | round => exact shows_bind (shows_round hseed) fun _ _ _ => shows_pure _
  | solve =>
      refine .bind hseed ?_
      rintro _ t ⟨hacts, ht⟩
      exact .get (ht.shows_rounds t.fuel hacts)

section new

variable {g : ConstraintGraph C} (hcg : cg.WellBuilt) (hg : g.Spans cg cg.edges.toList)
  (strategy : Strategy)

include hcg hg

theorem exhibits_seed_new :
    Exhibits (Seen (new g strategy)) Traced.seed (new g strategy) fun _ t =>
      Acts (new g strategy) t ∧ Ready cg t := by
  let s := new g strategy
  have hs : s.WellFormed := wellFormed_new hcg hg strategy
  have hstart : Act s s.started := act_started hs
  have hs₁ : s.started.WellFormed := hstart.wellFormed hs
  have hrun := yields_seed_new hcg hg strategy
  rw [← Traced.run_seed] at hrun
  refine ⟨?_, hrun.mono fun _ t ht => ⟨ht.1, ht.2.1, ht.2.2.1, ht.2.2.2.2.1⟩⟩
  apply Shows.get
  rw [if_neg (by simp [new])]
  apply Shows.quietly
  rw [yields_bind, yields_set]
  refine (yields_forM_processAddr hs₁ fun _ => mem_pending_started hs).mono ?_
  rintro _ u ⟨hsteps, -⟩
  have hu : u.WellFormed := hsteps.wellFormed hs₁
  have hacts : Acts s u := .head hstart hsteps.moves.acts
  have hfold := yields_foldPending hu (hsteps.neat hs₁ (neat_started hs))
  rw [← Traced.run_foldPending] at hfold
  refine .bind ⟨shows_foldPending hu hacts, hfold⟩ ?_
  rintro _ t ⟨hcollapses, -⟩
  have hclear : Moves (fun _ => True) u { u with pending := ∅ } := .single (.clear u)
  exact shows_observe (.of_acts (hacts.trans (hclear.acts.trans hcollapses.acts)))

/-- Acts lead to every state that requests show, but for merges. -/
theorem exhibits_performAll_new (requests : List Request) :
    Exhibits (Seen (new g strategy)) (requests.forM Traced.perform) (new g strategy) fun _ t =>
      Acts (new g strategy) t ∧ (t = new g strategy ∨ Ready cg t) := by
  apply Exhibits.forM_of_keeps ⟨.refl, .inl rfl⟩
  rintro request - t ⟨hacts, rfl | ht⟩
  · refine ⟨shows_perform (exhibits_seed_new hcg hg strategy) request, ?_⟩
    rw [Traced.run_perform]
    exact (yields_perform_new hcg hg strategy request).mono fun _ u hu => ⟨hu.1, .inr hu.2.1⟩
  · refine ⟨shows_perform (ht.exhibits_seed hacts) request, ?_⟩
    rw [Traced.run_perform]
    exact (ht.perform request).mono fun _ u hu => ⟨hacts.trans hu.1, .inr hu.2.1⟩

end new

end Solver

end PointerAnalysis
