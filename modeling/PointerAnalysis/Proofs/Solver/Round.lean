import PointerAnalysis.Proofs.Solver.Quiet

/-!
Rounds. Between rounds every node waits or has been attended to, and after a round none waits. A
round that asks for no other one has left no cycle of direct constraints, and if it swept the nodes
in order then the direct constraints have passed on all there is, but for what the nodes that
project onto themselves at offset zero gained from that.
-/

namespace PointerAnalysis

namespace WorkList

theorem mem_foldl_push {w : WorkList} {ns : List NodeId} {m : NodeId} :
    m ∈ (ns.foldl push w).toList ↔ m ∈ w.toList ∨ m ∈ ns := by
  induction ns generalizing w with
  | nil => simp
  | cons n ns ih => rw [List.foldl_cons, ih, mem_push, List.mem_cons, or_assoc]

theorem nodup_foldl_push {w : WorkList} (h : w.toList.Nodup) (ns : List NodeId) :
    (ns.foldl push w).toList.Nodup := by
  induction ns generalizing w with
  | nil => exact h
  | cons n ns ih => exact ih (nodup_push h n)

end WorkList

namespace Solver

variable {C : Type} [Context C] {active : NodeId → Prop} {s t u : Solver C} {cg : ContextGraph C}

/-! ## Runs in which any node may send -/

theorem Due.weaken {n o : NodeId} (h : Due active s n o) : Due (fun _ => True) s n o := by
  cases h with
  | addr c hc hkind hdst hsrc => exact .addr c hc hkind hdst hsrc
  | copy c hc hkind hdst hactive ho => exact .copy c hc hkind hdst trivial ho
  | field c offset p hc hkind hdst hactive hp hproj hhome =>
      exact .field c offset p hc hkind hdst trivial hp hproj hhome
  | anyField c p hc hkind hdst hactive hp ho => exact .anyField c p hc hkind hdst trivial hp ho

theorem Step.weaken (h : Step active s t) : Step (fun _ => True) s t := by
  cases h with
  | tally stats => exact .tally s stats
  | gain n objs hdue htidy => exact .gain s n objs (fun o ho => (hdue o ho).weaken) htidy
  | link src dst e g hdue hok => exact .link s src dst e g hdue hok
  | grow c offset o key g hc hkind ho hkey hwhole hnew hcontexts hgrown =>
      exact .grow s c offset o key g hc hkind ho hkey hwhole hnew hcontexts hgrown
  | widen o mem contexts hdue hpart hnew hok => exact .widen s o mem contexts hdue hpart hnew hok

theorem Move.weaken (h : Move active s t) : Move (fun _ => True) s t := by
  cases h with
  | step h => exact .step h.weaken
  | collapse h => exact .collapse h
  | clear => exact .clear s
  | record facts h => exact .record s facts h

theorem Moves.weaken (h : Moves active s t) : Moves (fun _ => True) s t :=
  h.lift id fun _ _ => Move.weaken

theorem Turns.weaken (h : Turns active s t) : Turns (fun _ => True) s t := by
  refine h.lift id fun _ _ h => ?_
  cases h with
  | move h => exact .move h.weaken
  | queue w hlt hnodup => exact .queue _ w hlt hnodup

theorem Quiet.mono {active' : NodeId → Prop} (h : Quiet active s t)
    (hle : ∀ n, active n → active' n) : Quiet active' s t where
  rep_eq := h.rep_eq
  has_iff := h.has_iff
  shifting := h.shifting
  pointsTo n o ho := by
    rcases h.pointsTo n o ho with ho | ⟨c, hc, hdst, haddr | ⟨hclass, hactive⟩⟩
    · exact .inl ho
    · exact .inr ⟨c, hc, hdst, .inl haddr⟩
    · exact .inr ⟨c, hc, hdst, .inr ⟨hclass, hle _ hactive⟩⟩

/-- Where address constraints have taken effect, a node that no active node leads to stays as it is.
-/
theorem Quiet.pointsTo_of_apart (h : Quiet active s t) (hs : Honest s) {n : NodeId}
    (hapart : ∀ c, s.graph.Has c → c.kind.edgeClass = .direct → c.dst = n → ¬ active c.src) :
    ∀ o ∈ t.facts.pointsTo n, o ∈ s.facts.pointsTo n := by
  intro o ho
  rcases h.pointsTo n o ho with ho | ⟨c, hc, hdst, ⟨hkind, hsrc⟩ | ⟨hclass, hactive⟩⟩
  · exact ho
  · exact hdst ▸ hsrc ▸ hs.addr c hc hkind
  · exact absurd hactive (hapart c hc hclass hdst)

/-! ## Sweeping -/

/-- The direct constraints of a node have passed on all that it points to, but for its echoes. -/
def Sends (s : Solver C) (n : NodeId) : Prop :=
  ∀ o ∈ s.facts.pointsTo n, ∃ p ∈ s.facts.pointsTo n, Echo s n p o ∧
    ∀ c, s.graph.Has c → c.kind.edgeClass = .direct → c.src = n → Passes s c p

/-- A node goes on to have sent all in a quiet stretch in which it gains nothing. -/
theorem Sends.quiet {n : NodeId} (h : Sends s n) (hturns : Turns active s t) (hs : s.WellFormed)
    (hquiet : Quiet active s t) (hsame : ∀ o ∈ t.facts.pointsTo n, o ∈ s.facts.pointsTo n) :
    Sends t n := by
  intro o ho
  obtain ⟨p, hp, hecho, hpass⟩ := h o (hsame o ho)
  have ht := hturns.wellFormed hs
  have hlt := (hs.target n p hp).1
  refine ⟨p, hquiet.mem_pointsTo hturns hs hp, hecho.mono ?_ (hturns.keeps hs).2.2 hs ht hlt,
    fun c hc hclass hsrc => ?_⟩
  · rintro ⟨c, offset, hc, hrest⟩
    exact ⟨c, offset, (hquiet.has_iff c).mpr hc, hrest⟩
  · have hc₀ := (hquiet.has_iff c).mp hc
    have hpass := (hpass c hc₀ hclass hsrc).turns hc₀ hturns hs hlt
    rwa [rename_of_has ht hc] at hpass

theorem Sane.homely (hs : Sane s) {n : NodeId} (hpending : s.pending = ∅)
    (hwhole : ∀ o ∈ s.facts.pointsTo n, ∀ mem, s.graph.contexts.PartOf o mem →
      s.graph.contexts.IsWhole mem) : Homely s n := by
  refine fun _ o ho => ⟨hwhole o ho, ?_⟩
  by_cases hpart : ∃ mem, s.graph.contexts.PartOf o mem
  · obtain ⟨mem, hpart⟩ := hpart
    exact (hs.neat o mem hpart (hwhole o ho mem hpart) (by simp [hpending])).pointers n ho
  · rw [ContextGraph.WellFormed.home_of_not_partOf
      fun mem hmem => hpart ⟨mem, hmem⟩]
    exact ho

theorem Sane.sweep (hs : Sane s) (hreflects : Reflects cg s) (n : NodeId) :
    Yields (sweep n) s fun _ t => Moves (fun _ => True) s t ∧ Sane t ∧
      (t.copied = false → t.merged = false → Quiet (· = n) s t ∧
        (s.graph.isLive n → Sends t n)) := by
  have hwf := hs.wellFormed
  rw [Solver.sweep, yields_bind, yields_get]
  by_cases hn : s.graph.rep n = n ∧ s.graph.isLive n = true
  · obtain ⟨hself, hlive⟩ := hn
    simp only [hself, hlive, and_self, if_true]
    refine (hs.visitDirect hlive).mono ?_
    rintro _ t ⟨u, hsu, hu, hshift, hattends, ht, hpass⟩
    refine ⟨hsu.weaken.trans hattends.moves.weaken, ht, fun hcopied hmerged => ?_⟩
    obtain ⟨hquiet, hcopied', hmerged'⟩ := hattends.moves.turns.quiet hu.wellFormed hcopied hmerged
    obtain ⟨hquiet', -, -⟩ := hsu.turns.quiet hwf hcopied' hmerged'
    have hrep : u.graph.rep n = n := (hquiet'.rep_eq n).trans hself
    simp only [hrep] at hattends hpass hquiet
    refine ⟨(hquiet'.mono (by simp)).trans hquiet, fun _ o ho => ?_⟩
    -- settling has changed nothing
    have hsame := hquiet'.pointsTo_of_apart hs.toHonest (n := n) fun _ _ _ _ => id
    have hhomely : Homely u n := by
      intro hsh
      have hsh' : s.graph.isShifting n := by
        rw [ConstraintGraph.isShifting, ← hquiet'.shifting]
        exact hsh
      obtain ⟨hpending, hwhole⟩ := hshift hsh'
      refine hu.homely hpending (fun p hp mem hmem => ?_) hsh
      have hlt := (hwf.target n p (hsame p hp)).1
      exact hwhole p (hsame p hp) mem (((hsu.frame hwf).contexts.partOf_iff hlt).mp hmem)
    obtain ⟨p, hp, hecho⟩ := hattends.moves.pointsTo_self hu.wellFormed
      (hreflects.turns hsu.turns hwf) hhomely hu.addr hcopied hmerged o ho
    have hin := hquiet.mem_pointsTo hattends.moves.turns hu.wellFormed hp
    exact ⟨p, hin, hecho,
      fun c hc hclass hsrc => hpass c ((hquiet.has_iff c).mp hc) hclass hsrc p hp⟩
  · simp only [hn, if_false, yields_pure]
    exact ⟨.refl, hs, fun _ _ => ⟨.refl s, fun hlive =>
      absurd ⟨hwf.graph.rep_of_isLive n hlive, hlive⟩ hn⟩⟩

theorem Quiet.isLive {active' : NodeId → Prop} (h : Quiet active' s t) (hturns : Turns active s t)
    (hs : s.WellFormed) {n : NodeId} (hn : s.graph.isLive n) : t.graph.isLive n := by
  have ht := hturns.wellFormed hs
  have hlt : n < t.graph.slots.size := by
    have := (hturns.keeps hs).2.2.size_le
    rw [← hs.graph.size_eq, ← ht.graph.size_eq] at this
    exact Nat.lt_of_lt_of_le (ConstraintGraph.isLive_lt hn) this
  have := ht.graph.isLive_rep n hlt
  rwa [h.rep_eq, hs.graph.rep_of_isLive n hn] at this

/-- A sweep in an order in which no direct constraint leads to an earlier node. -/
theorem Sane.sweeps (order : List NodeId) {E : NodeId → NodeId → Prop} (hs : Sane s)
    (hreflects : Reflects cg s) (hordered : order.Pairwise fun x y => ¬ E y x) :
    Yields (order.forM Solver.sweep) s fun _ t => Moves (fun _ => True) s t ∧ Sane t ∧
      (t.copied = false → t.merged = false →
        (∀ c, s.graph.Has c → c.kind.edgeClass = .direct → E c.src c.dst) →
        Quiet (· ∈ order) s t ∧ ∀ n ∈ order, s.graph.isLive n → Sends t n) := by
  have hwf := hs.wellFormed
  induction order generalizing s with
  | nil => exact ⟨⟨⟩, s, rfl, .refl, hs, fun _ _ _ => ⟨.refl s, by simp⟩⟩
  | cons x order ih =>
      obtain ⟨hx, hordered⟩ := List.pairwise_cons.mp hordered
      change Yields (Solver.sweep x >>= fun _ => order.forM Solver.sweep) s _
      refine (hs.sweep hreflects x).bind fun _ u ⟨hsu, hu, hfirst⟩ => ?_
      refine (ih hu (hreflects.turns hsu.turns hwf) hordered hu.wellFormed).mono ?_
      rintro _ t ⟨hut, ht, hrest⟩
      refine ⟨hsu.trans hut, ht, fun hcopied hmerged hE => ?_⟩
      obtain ⟨hquiet₀, hcopied', hmerged'⟩ := hut.turns.quiet hu.wellFormed hcopied hmerged
      obtain ⟨hquiet, hsent⟩ := hfirst hcopied' hmerged'
      have hEu : ∀ c, u.graph.Has c → c.kind.edgeClass = .direct → E c.src c.dst := fun c hc =>
        hE c ((hquiet.has_iff c).mp hc)
      obtain ⟨hquiet', hsent'⟩ := hrest hcopied hmerged hEu
      refine ⟨(hquiet.mono (by simp)).trans
        (hquiet'.mono fun n hn => List.mem_cons_of_mem x hn), ?_⟩
      intro n hn hlive
      rcases List.mem_cons.mp hn with rfl | hn
      · -- nothing that is visited later leads back to the node
        have hsame := hquiet'.pointsTo_of_apart hu.toHonest (n := n) fun c hc hclass hdst hin =>
          hx c.src hin (hdst ▸ hEu c hc hclass)
        exact (hsent hlive).quiet hut.turns hu.wellFormed hquiet₀ hsame
      · exact hsent' n hn (hquiet.isLive hsu.turns hwf hlive)

/-! ## Between rounds -/

/-- What holds between rounds. -/
structure Rested (s : Solver C) : Prop extends Sane s where
  pending : s.pending = ∅
  attended : Attended (fun _ => False) s

/-- No two nodes lead to each other along direct constraints. -/
def Acyclic (g : ConstraintGraph C) : Prop :=
  ∀ x y, Components.Mutual g.directEnds x y → x = y

theorem Attended.congr {out : NodeId → Prop} (h : Attended out s) (hgraph : t.graph = s.graph)
    (hstrategy : t.strategy = s.strategy) (hfacts : t.facts = s.facts)
    (hwork : ∀ n ∈ s.worklist.toList, n ∈ t.worklist.toList) : Attended out t := by
  intro n hn hwait hout
  rw [hgraph] at hn
  obtain ⟨hpass, hwhole⟩ := h n hn (fun hin => hwait (hwork n hin)) hout
  unfold Passes at hpass
  refine ⟨?_, by rwa [hgraph, hfacts]⟩
  unfold Passes
  rwa [hgraph, hstrategy, hfacts]

/-- Only the graph, the facts, the strategy, and what waits matter; and more nodes may wait. -/
theorem Rested.congr (hs : Rested s) (ht : t.WellFormed) (hgraph : t.graph = s.graph)
    (hstrategy : t.strategy = s.strategy) (hfacts : t.facts = s.facts)
    (hpending : t.pending = s.pending) (hwork : ∀ n ∈ s.worklist.toList, n ∈ t.worklist.toList) :
    Rested t where
  toSane := hs.toSane.congr ht hgraph hstrategy hfacts hpending
  pending := hpending.trans hs.pending
  attended := hs.attended.congr hgraph hstrategy hfacts hwork

theorem Rested.collapses (hs : Rested s) (h : Collapses s t) : Rested t where
  toSane := h.sane hs.toSane
  pending := h.pending.trans hs.pending
  attended := hs.attended.frame (h.frame hs.wellFormed) hs.wellFormed (h.wellFormed hs.wellFormed)

theorem Coherent.length_worklist_le {allowed : NodeId → Prop} (hs : s.Coherent allowed) :
    s.worklist.toList.length ≤ s.graph.contexts.nodes.size := by
  have hsub : s.worklist.toList.toFinset ⊆ Finset.range s.graph.contexts.nodes.size := by
    intro n hn
    rw [Finset.mem_range, ← hs.graph.size_eq]
    exact hs.worklist_lt n (List.mem_toFinset.mp hn)
  have hcard := Finset.card_le_card hsub
  rwa [List.toFinset_card_of_nodup hs.worklist_nodup, Finset.card_range] at hcard

/-- The fuel suffices to drain the worklist. -/
theorem Rested.drain {visit : NodeId → SolverM C Unit} (hvisit : Deals active visit s.strategy)
    (hs : Rested s) : Yields (Solver.drain visit s.fuel) s fun _ t =>
      Turns active s t ∧ Rested t ∧ t.worklist.toList = [] := by
  have hfuel := scoreBound_lt_fuel s (capacity_le_nodeBound s)
  have hlength := hs.wellFormed.coherent.length_worklist_le
  have hcapacity := hs.wellFormed.contexts.size_le_capacity
  refine (hs.toSane.drain hvisit s.fuel rfl hs.pending hs.attended (Nat.le_refl _) ?_).mono ?_
  · omega
  · rintro _ t ⟨hturns, ht, hpending, hempty, hattended⟩
    exact ⟨hturns, ⟨ht, hpending, hattended⟩, hempty⟩

theorem yields_foldPending_of_empty (h : s.pending = ∅) {Q : PUnit → Solver C → Prop} :
    Yields Solver.foldPending s Q ↔ Q ⟨⟩ s := by
  have hsame : { s with pending := ∅ } = s := by rw [← h]
  rw [Solver.foldPending, yields_bind, yields_get, yields_bind, yields_modify, h, hsame]
  exact yields_pure _

theorem yields_forM_schedule (ns : List NodeId) {Q : PUnit → Solver C → Prop} :
    Yields (ns.forM schedule) s Q ↔
      Q ⟨⟩ { s with worklist := ns.foldl WorkList.push s.worklist } := by
  induction ns generalizing s with
  | nil => exact yields_pure _
  | cons n ns ih =>
      change Yields (schedule n >>= fun _ => ns.forM schedule) s Q ↔ _
      rw [yields_bind, schedule, yields_modify, ih]
      rfl

/-! ## One round -/

/-- The order of a sweep lists nodes that are alive. -/
theorem CyclesMerged.isLive_of_mem_order {order : List NodeId} (h : CyclesMerged s t order)
    (hs : s.graph.Consistent) {n : NodeId} (hn : n ∈ order) : s.graph.isLive n := by
  obtain ⟨cs, hcs, rfl, -, -⟩ := h.exists_components
  obtain ⟨members, hmem, rfl⟩ := List.mem_map.mp hn
  obtain ⟨x, hx⟩ := hcs.nonempty members hmem
  exact (cyclic_of_mem_members hs hcs hmem).live _ (Components.representative_mem hx)

theorem acyclic_of_no_cycle (hs : s.WellFormed) {cs : Components}
    (hcs : cs.Decomposes s.graph.liveNodes s.graph.directEnds) (h : cs.cycles = []) :
    Acyclic s.graph := by
  intro x y hxy
  by_cases heq : x = y
  · exact heq
  · obtain hsame | ⟨z, hstep, -⟩ := Relation.ReflTransGen.cases_head hxy.1
    · exact hsame
    · obtain ⟨c, hc, -, rfl, -⟩ := hs.graph.toIndexed.mem_directEnds.mp hstep
      have hlive := hs.graph.isLive_src hc
      refine hcs.eq_of_mutual_of_no_cycle h ?_ hxy
      exact List.mem_filter.mpr ⟨List.mem_range.mpr (ConstraintGraph.isLive_lt hlive), hlive⟩

theorem Acyclic.quiet (h : Acyclic s.graph) (hs : s.graph.Indexed) (ht : t.graph.Indexed)
    (hquiet : Quiet active s t) : Acyclic t.graph := by
  have hpath : ∀ x y, Components.Path t.graph.directEnds x y →
      Components.Path s.graph.directEnds x y := fun x y hp => by
    refine hp.lift id fun a b hab => ?_
    obtain ⟨c, hc, hrest⟩ := ht.mem_directEnds.mp hab
    exact hs.mem_directEnds.mpr ⟨c, (hquiet.has_iff c).mp hc, hrest⟩
  exact fun x y hxy => h x y ⟨hpath x y hxy.1, hpath y x hxy.2⟩

/-- What a round does, where it leads, and what it means that no other one is asked for. -/
structure RoundEnds (s : Solver C) (again : Bool) (t : Solver C) : Prop extends Rested t where
  turns : Turns (fun _ => True) { s with copied := false, merged := false } t
  idle : t.worklist.toList = []
  again_eq : again = (t.copied || t.merged)
  acyclic : again = false → Acyclic t.graph
  sends : again = false → t.strategy ≠ .baseline → ∀ n, Sends t n

theorem yields_seed_of_initialized (h : s.initialized = true) {Q : PUnit → Solver C → Prop} :
    Yields seed s Q ↔ Q ⟨⟩ s := by
  rw [seed, yields_bind, yields_get, if_pos h]
  exact yields_pure _

/-- The end of a round. -/
theorem Rested.finish {visit : NodeId → SolverM C Unit} (hvisit : Deals active visit s.strategy)
    (hs : Rested s) :
    Yields (do
        Solver.drain visit (← get).fuel
        Solver.foldPending
        let s ← get
        return s.copied || s.merged) s fun again t =>
      Turns active s t ∧ Rested t ∧ t.worklist.toList = [] ∧ again = (t.copied || t.merged) := by
  rw [yields_bind, yields_get, yields_bind]
  refine (hs.drain hvisit).mono fun _ t ⟨hturns, ht, hidle⟩ => ?_
  rw [yields_bind, yields_foldPending_of_empty ht.pending, yields_bind, yields_get, yields_pure]
  exact ⟨hturns, ht, hidle, rfl⟩

section served

variable {order : List NodeId}

/-- A round after which nothing is reported has found no cycles, and has been quiet since. -/
theorem CyclesMerged.quiet (h : CyclesMerged s t order) (ht : t.WellFormed)
    (hturns : Turns (fun _ => True) t u) (hagain : (u.copied || u.merged) = false) :
    t.graph = s.graph ∧ Acyclic t.graph ∧ (∀ n, t.graph.isLive n → n ∈ order) ∧
      Quiet (fun _ => True) t u := by
  obtain ⟨hcopied, hmerged⟩ := Bool.or_eq_false_iff.mp hagain
  obtain ⟨hquiet, -, hmerged'⟩ := hturns.quiet ht hcopied hmerged
  obtain ⟨cs, hcs, rfl, hnone, hsame⟩ := h.exists_components
  have hcycles := hnone hmerged'
  obtain ⟨stats, rfl⟩ := hsame hcycles
  refine ⟨rfl, acyclic_of_no_cycle ht hcs hcycles, fun n hn => ?_, hquiet⟩
  refine hcs.mem_order_of_no_cycle hcycles ?_
  exact List.mem_filter.mpr ⟨List.mem_range.mpr (ConstraintGraph.isLive_lt hn), hn⟩

theorem CyclesMerged.acyclic (h : CyclesMerged s t order) (ht : t.WellFormed)
    (hturns : Turns (fun _ => True) t u) (hagain : (u.copied || u.merged) = false) :
    Acyclic u.graph := by
  obtain ⟨-, hacyclic, -, hquiet⟩ := h.quiet ht hturns hagain
  exact hacyclic.quiet ht.graph.toIndexed (hturns.wellFormed ht).graph.toIndexed hquiet

/-- The end of a round, seen from the state in which the cycles had been merged. -/
structure Served (t : Solver C) (again : Bool) (u : Solver C) : Prop extends Rested u where
  turns : Turns (fun _ => True) t u
  idle : u.worklist.toList = []
  again_eq : again = (u.copied || u.merged)
  sends : again = false → t.strategy ≠ .baseline → ∀ n, Sends u n

/-- Serving by a sweep, after which loads and stores are left to the worklist. -/
theorem CyclesMerged.serveWave (h : CyclesMerged s t order) (ht : Rested t)
    (hreflects : Reflects cg t) (hst : t.strategy ≠ .baseline) :
    Yields (do
        order.forM Solver.sweep
        Solver.foldPending
        Solver.drain Solver.visitIndirect (← get).fuel
        Solver.foldPending
        let s ← get
        return s.copied || s.merged) t (Served t) := by
  have hordered : order.Pairwise fun x y => ¬ (y, x) ∈ s.graph.directEnds := by
    obtain ⟨cs, hcs, rfl, -, -⟩ := h.exists_components
    exact hcs.order_ordered.imp fun h hyx => h (.single hyx)
  rw [yields_bind]
  refine (ht.toSane.sweeps order (E := fun x y => (x, y) ∈ s.graph.directEnds) hreflects
    hordered).mono ?_
  rintro _ v ⟨hmoves, hv, hsweep⟩
  rw [yields_bind]
  refine (hv.foldPending (fun _ => False)).mono ?_
  rintro _ w ⟨hmoves', hw, hpending⟩
  have htw : Moves (fun _ => True) t w := hmoves.trans hmoves'.weaken
  have hframe := htw.frame ht.wellFormed
  have hw : Rested w := ⟨hw, hpending, ht.attended.frame hframe ht.wellFormed hw.wellFormed⟩
  refine (hw.finish (deals_visitIndirect (hframe.strategy ▸ hst))).mono ?_
  rintro again u ⟨hdrain, hu, hidle, hagain⟩
  have hvu : Turns (fun _ => False) v u := hmoves'.turns.trans hdrain
  have hturns : Turns (fun _ => True) t u := hmoves.turns.trans hvu.weaken
  refine ⟨hu, hturns, hidle, hagain, fun hno _ n o ho => ?_⟩
  rw [hagain] at hno
  obtain ⟨hgraph, -, hall, hq⟩ := h.quiet ht.wellFormed hturns hno
  by_cases hlive : t.graph.isLive n
  · -- the sweep has sent all, and nothing was gained since
    obtain ⟨hcopied, hmerged⟩ := Bool.or_eq_false_iff.mp hno
    obtain ⟨hq', hcopied', hmerged'⟩ := hvu.quiet hv.wellFormed hcopied hmerged
    obtain ⟨-, hsent⟩ := hsweep hcopied' hmerged' fun c hc hclass => by
      rw [hgraph] at hc
      have hindexed : s.graph.Indexed := hgraph ▸ ht.wellFormed.graph.toIndexed
      exact hindexed.mem_directEnds.mpr ⟨c, hc, hclass, rfl, rfl⟩
    exact (hsent n (hall n hlive) hlive).quiet hvu hv.wellFormed hq'
      (hq'.pointsTo_of_apart hv.toHonest fun _ _ _ _ => id) o ho
  · -- a node that was made since has no constraints
    exact ⟨o, ho, .inl rfl, fun c hc _ hsrc =>
      absurd (hsrc ▸ ht.wellFormed.graph.isLive_src ((hq.has_iff c).mp hc)) hlive⟩

/-- The nodes of the order can be made to wait. -/
theorem CyclesMerged.queue (h : CyclesMerged s t order) (hs : s.WellFormed) (ht : Rested t) :
    Turn (fun _ => True) t { t with worklist := order.foldl WorkList.push t.worklist } ∧
      Rested { t with worklist := order.foldl WorkList.push t.worklist } := by
  have hsize := (h.collapses.frame hs).size_le hs ht.wellFormed
  have hlt : ∀ n ∈ (order.foldl WorkList.push t.worklist).toList, n < t.graph.slots.size := by
    intro n hn
    rcases WorkList.mem_foldl_push.mp hn with hn | hn
    · exact ht.wellFormed.worklist_lt n hn
    · have hlive := h.isLive_of_mem_order hs.graph hn
      exact Nat.lt_of_lt_of_le (ConstraintGraph.isLive_lt hlive) hsize
  have hnodup := WorkList.nodup_foldl_push ht.wellFormed.worklist_nodup order
  have hqueue : Turn (fun _ => True) t _ := .queue t _ hlt hnodup
  exact ⟨hqueue, ht.congr (hqueue.wellFormed ht.wellFormed) rfl rfl rfl rfl
    fun n hn => WorkList.mem_foldl_push.mpr (.inl hn)⟩

/-- Serving by the worklist alone. -/
theorem CyclesMerged.serveBaseline (h : CyclesMerged s t order) (hs : s.WellFormed) (ht : Rested t)
    (hst : t.strategy = .baseline) :
    Yields (do
        order.forM Solver.schedule
        Solver.drain Solver.visitFully (← get).fuel
        Solver.foldPending
        let s ← get
        return s.copied || s.merged) t (Served t) := by
  rw [yields_bind, yields_forM_schedule]
  obtain ⟨hqueue, hqueued⟩ := h.queue hs ht
  refine (hqueued.finish (deals_visitFully _)).mono ?_
  rintro again u ⟨hdrain, hu, hidle, hagain⟩
  exact ⟨hu, .head hqueue hdrain, hidle, hagain, fun _ hst' => absurd hst hst'⟩

end served

theorem Rested.round (hs : Rested s) (hinit : s.initialized = true) (hreflects : Reflects cg s) :
    Yields Solver.round s (RoundEnds s) := by
  let s₀ : Solver C := { s with copied := false, merged := false }
  let s₁ : Solver C := { s₀ with stats := { s.stats with rounds := s.stats.rounds + 1 } }
  have hwf := hs.wellFormed
  have hs₁ : Rested s₁ :=
    hs.congr ⟨hwf.1, hwf.2, hwf.3, hwf.4, hwf.5, hwf.6, hwf.7, hwf.8⟩ rfl rfl rfl rfl fun _ h => h
  have htally : Move (fun _ => True) s₀ s₁ := .step (.tally s₀ _)
  rw [Solver.round, yields_bind, yields_seed_of_initialized hinit, yields_bind, yields_modify,
    yields_bind, yields_count, yields_bind]
  refine (yields_mergeCycles hs₁.wellFormed.graph).mono ?_
  intro order t hmerged
  have ht := hs₁.collapses hmerged.collapses
  have hmerge : Moves (fun _ => True) s₁ t := hmerged.collapses.moves
  have hreflects : Reflects cg t :=
    (hreflects.congr (t := s₁) rfl).turns hmerge.turns hs₁.wellFormed
  suffices hserve : Yields _ t (Served t) by
    refine hserve.mono fun again u hu =>
      ⟨hu.toRested, ?_, hu.idle, hu.again_eq, fun h => ?_, fun h => ?_⟩
    · exact (Moves.turns (.head htally hmerge)).trans hu.turns
    · exact hmerged.acyclic ht.wellFormed hu.turns (hu.again_eq ▸ h)
    · rw [(hu.turns.keeps ht.wellFormed).1]
      exact hu.sends h
  rw [yields_bind, yields_get]
  cases hst : t.strategy with
  | baseline => exact hmerged.serveBaseline hs₁.wellFormed ht hst
  | wave => exact hmerged.serveWave ht hreflects (by simp [hst])
  | waveDiff => exact hmerged.serveWave ht hreflects (by simp [hst])

end Solver

end PointerAnalysis
