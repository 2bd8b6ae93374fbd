import PointerAnalysis.Proofs.ContextGraph.Grounded
import PointerAnalysis.Proofs.Solver.Partition
import PointerAnalysis.Proofs.Solver.Solve

/-!
Runs that cannot fail. A state is grounded if its context graph is and whatever it points to is
anchored. No lookup that a visit or a merge makes in such a state can fail, the state that results
is grounded again, and so is every state on the way. The score bounds how long a run goes on. So
every run from a grounded state ends with a result, whether or not the graph is well-formed.
-/

namespace PointerAnalysis

namespace Solver

variable {C : Type} [Context C] {s t u : Solver C} {n o : NodeId} {e : EdgeId} {c : Constraint}

/-! ## Grounded states -/

/-- Whatever a state points to can be looked up, and so can the objects it has to fold. -/
structure Grounded (s : Solver C) : Prop where
  contexts : s.graph.contexts.Grounded
  coherent : s.Coherent s.graph.contexts.Anchored
  pending_lt : ∀ mem ∈ s.pending, mem < s.graph.contexts.memObjs.size
  ledger : s.Ledger

/-- A later state of a run. -/
structure Onward (s t : Solver C) : Prop where
  grounded : t.Grounded
  contexts : s.graph.contexts.Extends t.graph.contexts
  progress : ∀ N, s.graph.contexts.capacity ≤ N → Progress N s t

/-- A later state of a run that has removed no constraint so far. -/
structure Adds (s t : Solver C) : Prop extends Onward s t where
  edges : ∀ e c, s.graph.edge? e = some c → t.graph.edge? e = some c

theorem Onward.refl (hs : s.Grounded) : Onward s s := ⟨hs, .refl _, fun _ _ => .refl s⟩

theorem Onward.trans (h : Onward s t) (h' : Onward t u) : Onward s u where
  grounded := h'.grounded
  contexts := h.contexts.trans h'.contexts
  progress N hN := by
    apply (h.progress N hN).trans
    apply h'.progress
    rwa [h.contexts.capacity_eq]

theorem Adds.refl (hs : s.Grounded) : Adds s s := ⟨.refl hs, fun _ _ he => he⟩

theorem Adds.trans (h : Adds s t) (h' : Adds t u) : Adds s u :=
  ⟨h.toOnward.trans h'.toOnward, fun e c he => h'.edges e c (h.edges e c he)⟩

namespace Grounded

theorem lt_of_anchored (hs : s.Grounded) (ho : s.graph.contexts.Anchored o) :
    o < s.graph.slots.size := by
  rw [hs.coherent.graph.size_eq]
  exact ho.lt

theorem size_le (hs : s.Grounded) {N : Nat} (hN : s.graph.contexts.capacity ≤ N) :
    s.graph.slots.size ≤ N := by
  rw [hs.coherent.graph.size_eq]
  exact Nat.le_trans hs.contexts.keyed.size_le_capacity hN

theorem anchored (hs : s.Grounded) (ho : o ∈ s.pointsTo n) : s.graph.contexts.Anchored o :=
  hs.coherent.target _ o ho

theorem src_lt (hs : s.Grounded) (he : s.graph.edge? e = some c) : c.src < s.graph.slots.size :=
  ConstraintGraph.isLive_lt (hs.coherent.graph.isLive_src ⟨e, he⟩)

theorem dst_lt (hs : s.Grounded) (he : s.graph.edge? e = some c) : c.dst < s.graph.slots.size :=
  ConstraintGraph.isLive_lt (hs.coherent.graph.isLive_dst ⟨e, he⟩)

/-! ## Elementary steps -/

/-- A change to the records that no lookup depends on. -/
theorem adds_of_eq (hs : s.Grounded) (hgraph : t.graph = s.graph) (hpts : t.facts.pts = s.facts.pts)
    (hcount : t.stats.mergedNodes = s.stats.mergedNodes) (hwork : t.worklist = s.worklist)
    (hcopied : t.copied = s.copied) (hmerged : t.merged = s.merged)
    (hpending : ∀ mem ∈ t.pending, mem < s.graph.contexts.memObjs.size) : Adds s t where
  grounded := by
    have hfacts := Facts.pointsTo_congr hpts
    have hledger : t.Ledger := hs.ledger.congr hpts hcount fun n => by rw [hgraph]
    refine ⟨hgraph ▸ hs.contexts, ?_, hgraph ▸ hpending, hledger⟩
    obtain ⟨hgraph', hlive, htarget, haddr, hlt, hnodup⟩ := hs.coherent
    constructor
    · exact hgraph ▸ hgraph'
    · simpa only [hgraph, hfacts] using hlive
    · simpa only [hgraph, hfacts] using htarget
    · simpa only [hgraph] using haddr
    · simpa only [hgraph, hwork] using hlt
    · simpa only [hwork] using hnodup
  contexts := by
    rw [hgraph]
    exact .refl _
  progress N _ := by
    apply Progress.of_eq _ _ _ hwork hcopied hmerged
    · intro n o
      rw [Facts.pointsTo_congr hpts]
    · intro c
      rw [hgraph]
    · intro n
      rw [hgraph]
  edges e c he := by
    rw [hgraph]
    exact he

theorem tally (hs : s.Grounded) (stats : SolverStats)
    (h : stats.mergedNodes = s.stats.mergedNodes) : Adds s { s with stats } :=
  hs.adds_of_eq rfl rfl h rfl rfl rfl hs.pending_lt

theorem record (hs : s.Grounded) {facts : Facts} (h : facts.pts = s.facts.pts) :
    Adds s { s with facts } :=
  hs.adds_of_eq rfl h rfl rfl rfl rfl hs.pending_lt

theorem adds_learned (hs : s.Grounded) {objs : IdSet}
    (h : ∀ o ∈ objs, s.graph.contexts.Anchored o ∧ s.graph.isLive n) :
    Adds s (s.learned n objs) where
  grounded := by
    refine ⟨?_, ?_, ?_, hs.ledger.learned n objs⟩
    · simpa using hs.contexts
    · rw [graph_learned]
      exact hs.coherent.learned h
    · simpa using hs.pending_lt
  contexts := by
    rw [graph_learned]
    exact .refl _
  progress N hN := by
    apply progress_learned
    intro o ho
    have hsize := hs.size_le hN
    have hn := ConstraintGraph.isLive_lt (h o ho).2
    have ho := hs.lt_of_anchored (h o ho).1
    exact ⟨Nat.lt_of_lt_of_le hn hsize, Nat.lt_of_lt_of_le ho hsize⟩
  edges e c he := by simpa using he

theorem adds_linked (hs : s.Grounded) {src dst : NodeId} {g : ConstraintGraph C}
    (hsrc : src < s.graph.slots.size) (hdst : dst < s.graph.slots.size)
    (hok : s.graph.addEdge src dst .copy = .ok (some e, g)) : Adds s (s.linked g src dst) := by
  obtain ⟨r, g', hok', hnodes, -, -, hedges, -⟩ :=
    s.graph.addEdge_spec hs.coherent.graph.toIntact hsrc hdst .copy
  cases hok.symm.trans hok'
  refine ⟨⟨⟨?_, ?_, ?_, hs.ledger.linked hnodes src dst⟩, ?_, fun N hN => ?_⟩, fun e c he => ?_⟩
  · rw [graph_linked, hnodes.contexts]
    exact hs.contexts
  · rw [graph_linked, hnodes.contexts]
    exact hs.coherent.linked hsrc hdst hok
  · rw [graph_linked, pending_linked, hnodes.contexts]
    exact hs.pending_lt
  · rw [graph_linked, hnodes.contexts]
    exact .refl _
  · exact progress_linked hs.coherent.graph hsrc hdst hok (hs.size_le hN)
  · rw [graph_linked]
    exact hedges e c he

theorem adds_grown (hs : s.Grounded) {offset : Offset} {key : FieldKey C} {base : NodeId}
    {g : ConstraintGraph C} (ho : s.graph.contexts.Anchored o)
    (hkey : s.graph.contexts.KeyOf o offset key) (hnew : s.graph.contexts.fieldNodes[key]? = none)
    (hcontexts : g.contexts = (s.graph.contexts.makeField key base).2) (hgrown : s.graph.Grown g) :
    Adds s { s with graph := g } := by
  have hext : s.graph.contexts.Extends g.contexts := by
    rw [hcontexts]
    exact ContextGraph.extends_makeField base hnew
  refine ⟨⟨⟨?_, ?_, ?_, hs.ledger.congr rfl rfl fun n => ?_⟩, hext,
    fun N _ => progress_grown hgrown⟩, fun e c he => ?_⟩
  · change g.contexts.Grounded
    rw [hcontexts]
    exact hs.contexts.makeField ho hkey hnew base
  · exact hs.coherent.grown hgrown fun _ => hext.anchored
  · intro mem hmem
    change mem < g.contexts.memObjs.size
    rw [hext.mem_size]
    exact hs.pending_lt mem hmem
  · exact hgrown.dead_iff n
  · change g.edge? e = some c
    rw [ConstraintGraph.edge?, hgrown.edges]
    exact he

theorem onward_fused (hs : s.Grounded) {r : NodeId} {subs : List NodeId} {members : IdSet}
    (hmergeable : Mergeable s r subs) (hfused : Fused s t r subs members) : Onward s t := by
  have hcontexts := hfused.graph.contexts
  refine ⟨⟨?_, ?_, ?_, hs.ledger.fused hmergeable hfused⟩, ?_, fun N hN => ?_⟩
  · rw [hcontexts]
    exact hs.contexts
  · rw [hcontexts]
    exact hs.coherent.fused hmergeable.live hfused
  · rw [hcontexts, hfused.pending]
    exact hs.pending_lt
  · rw [hcontexts]
    exact .refl _
  · exact progress_fused hmergeable hfused (hs.size_le hN)

/-- No lookup depends on whether another round is asked for. -/
theorem reflag (hs : s.Grounded) (copied merged : Bool) : Grounded { s with copied, merged } where
  contexts := hs.contexts
  coherent := by
    obtain ⟨hgraph, hlive, htarget, haddr, hlt, hnodup⟩ := hs.coherent
    exact ⟨hgraph, hlive, htarget, haddr, hlt, hnodup⟩
  pending_lt := hs.pending_lt
  ledger := hs.ledger.congr rfl rfl fun _ => .rfl

/-- A pointer gains an object, and another round is asked for. -/
theorem onward_spilt (hs : s.Grounded) (ho : s.graph.contexts.Anchored o) (hn : s.graph.isLive n)
    (hnew : o ∉ s.facts.pointsTo n) : Onward s { s.learned n {o} with merged := true } := by
  have hlearned : Adds s (s.learned n {o}) := by
    apply hs.adds_learned
    intro p hp
    rw [IdSet.mem_singleton.mp hp]
    exact ⟨ho, hn⟩
  refine ⟨hlearned.grounded.reflag _ _, hlearned.contexts, fun N hN => ?_⟩
  have hsize := hs.size_le hN
  apply progress_spilt hnew
  · exact Nat.lt_of_lt_of_le (ConstraintGraph.isLive_lt hn) hsize
  · exact Nat.lt_of_lt_of_le (hs.lt_of_anchored ho) hsize

/-! ## Constraints -/

theorem learn (hs : s.Grounded) (hn : s.graph.isLive n) {objs : IdSet}
    (hobjs : ∀ o ∈ objs, s.graph.contexts.Anchored o) :
    Yields (learn n objs) s fun _ t => Adds s t := by
  rw [yields_learn]
  exact hs.adds_learned fun o ho => ⟨hobjs o ho, hn⟩

/-- The target of a constraint can learn what is anchored. -/
theorem learnAt (hs : s.Grounded) (he : s.graph.edge? e = some c) {objs : IdSet}
    (hobjs : ∀ o ∈ objs, s.graph.contexts.Anchored o) :
    Yields (do discard <| Solver.learn (← rep c.dst) objs) s fun _ t => Adds s t := by
  rw [yields_bind, yields_rep, yields_discard]
  exact hs.learn (hs.coherent.graph.isLive_rep _ (hs.dst_lt he)) hobjs

theorem processAddr (hs : s.Grounded) (he : s.graph.edge? e = some c) (hkind : c.kind = .addr) :
    Yields (processAddr e) s fun _ t => Adds s t := by
  have htally := hs.tally { s.stats with addrs := s.stats.addrs + 1 } rfl
  rw [Solver.processAddr, yields_bind, yields_count, yields_bind,
    yields_edge (c := c) (by exact he)]
  refine (htally.grounded.learnAt he ?_).mono fun _ t => htally.trans
  intro o ho
  rw [IdSet.mem_singleton.mp ho]
  exact hs.coherent.addr_target c ⟨e, he⟩ hkind

theorem processCopy (hs : s.Grounded) (he : s.graph.edge? e = some c) {objs : IdSet}
    (hobjs : ∀ o ∈ objs, s.graph.contexts.Anchored o) :
    Yields (processCopy c objs) s fun _ t => Adds s t := by
  have htally := hs.tally { s.stats with copies := s.stats.copies + 1 } rfl
  rw [Solver.processCopy, yields_bind, yields_count]
  exact (htally.grounded.learnAt he hobjs).mono fun _ t => htally.trans

theorem addCopy (hs : s.Grounded) {src dst : NodeId} (hsrc : src < s.graph.slots.size)
    (hdst : dst < s.graph.slots.size) : Yields (addCopy src dst) s fun _ t => Adds s t := by
  apply yields_addCopy hs.coherent.graph hsrc hdst
  · intro _
    exact .refl hs
  · intro e g hok
    exact hs.adds_linked hsrc hdst hok

theorem markFieldInsensitive (hs : s.Grounded) (ho : s.graph.contexts.Anchored o) :
    Yields (markFieldInsensitive o) s fun _ t => Adds s t := by
  unfold Solver.markFieldInsensitive
  by_cases hspecial : ContextGraph.isSpecial o
  · simp only [hspecial, if_true, yields_pure]
    exact .refl hs
  · obtain ⟨node, hnode, -⟩ := id ho
    simp only [hspecial, Bool.false_eq_true, if_false, yields_bind, yields_get]
    rw [yields_orHalt (entryAt_eq_ok hnode)]
    cases hmem : node.memObj with
    | none => exact (yields_pure _).mpr (.refl hs)
    | some mem =>
        have hlt := ho.mem_lt ⟨node, hnode, hmem⟩
        obtain ⟨changed, g, hok, hext, hnodes, hfieldNodes, hfieldsOf, -⟩ :=
          ContextGraph.setFieldInsensitive_extends hlt
        simp only [yields_bind]
        rw [yields_orHalt hok, yields_set]
        refine ⟨⟨⟨?_, ?_, ?_, hs.ledger.congr rfl rfl fun _ => .rfl⟩, hext, fun N _ => ?_⟩,
          fun _ _ he => he⟩
        · exact hs.contexts.of_extends hext hnodes hfieldNodes hfieldsOf
        · exact hs.coherent.recontexted (by rw [hnodes]) fun _ => hext.anchored
        · intro m hm
          change m < g.memObjs.size
          rw [hext.mem_size]
          split at hm
          · rcases IdSet.mem_insert.mp hm with rfl | hm
            · exact hlt
            · exact hs.pending_lt m hm
          · exact hs.pending_lt m hm
        · exact .of_eq (fun _ _ => .rfl) (fun _ => .rfl) (fun _ => .rfl) rfl rfl rfl

theorem widen (hs : s.Grounded) (ho : s.graph.contexts.Anchored o) :
    Yields (widen o) s fun base t => Adds s t ∧ t.graph.contexts.Anchored base := by
  rw [Solver.widen, yields_bind]
  refine (hs.markFieldInsensitive ho).mono fun _ t hst => ?_
  obtain ⟨base, hbase, hanchored⟩ := hst.grounded.contexts.exists_baseOf (hst.contexts.anchored ho)
  rw [yields_bind, yields_get, yields_orHalt hbase]
  exact ⟨hst, hanchored⟩

/-- The field at an offset is found or made. -/
theorem field (hs : s.Grounded) (ho : s.graph.contexts.Anchored o) (offset : Offset) :
    Yields (onGraph (·.field o offset)) s fun f t => Adds s t ∧ t.graph.contexts.Anchored f := by
  have hgraph := hs.coherent.graph
  rcases hs.contexts.field_cases ho offset with ⟨f, hok, hf⟩ | ⟨key, base, hkey, hnew, hok⟩
  · rw [yields_onGraph (ConstraintGraph.field_of_found hgraph hok hf.lt)]
    exact ⟨.refl hs, hf⟩
  · obtain ⟨g, hok, hcontexts, hgrown⟩ := ConstraintGraph.field_of_made hgraph hok
    rw [yields_onGraph hok]
    refine ⟨hs.adds_grown ho hkey hnew hcontexts hgrown, ?_⟩
    change g.contexts.Anchored s.graph.slots.size
    rw [hcontexts, hgraph.size_eq]
    exact ContextGraph.anchored_makeField ho hkey hnew base

theorem project (hs : s.Grounded) (ho : s.graph.contexts.Anchored o) (offset : Offset) :
    Yields (project offset o) s fun f t => Adds s t ∧ t.graph.contexts.Anchored f := by
  rw [Solver.project, yields_bind]
  refine (hs.field ho offset).mono ?_
  rintro f t ⟨hst, hf⟩
  obtain ⟨base, hbase, hanchored⟩ := hst.grounded.contexts.exists_baseOf (hst.contexts.anchored ho)
  rw [yields_bind, yields_get, yields_bind, yields_orHalt hbase]
  split
  · rw [yields_bind]
    refine (hst.grounded.addCopy (hst.grounded.lt_of_anchored hanchored)
      (hst.grounded.lt_of_anchored hf)).mono fun _ u htu => ?_
    exact (yields_pure _).mpr ⟨hst.trans htu, htu.contexts.anchored hf⟩
  · exact (yields_pure _).mpr ⟨hst, hf⟩

theorem processProjection (hs : s.Grounded) (he : s.graph.edge? e = some c)
    {projection : NodeId → SolverM C NodeId}
    (hprojection : ∀ (t : Solver C) o, t.Grounded → t.graph.contexts.Anchored o →
      Yields (projection o) t fun f u => Adds t u ∧ u.graph.contexts.Anchored f)
    {objs : IdSet} (hobjs : ∀ o ∈ objs, s.graph.contexts.Anchored o) :
    Yields (processProjection c projection objs) s fun _ t => Adds s t := by
  have htally := hs.tally { s.stats with projections := s.stats.projections + 1 } rfl
  rw [Solver.processProjection, yields_bind, yields_count, yields_bind]
  refine (Yields.mapM (I := Grounded) (R := fun s t : Solver C => s.Grounded → Adds s t)
    (fun _ => .refl) (fun h h' hs => (h hs).trans (h' (h hs).grounded))
    (fun hs h => (h hs).grounded) (P := fun _ f t => t.graph.contexts.Anchored f) htally.grounded
    (fun _ _ _ _ hs h hf => (h hs).contexts.anchored hf) objs.toList ?_).mono ?_
  · intro o ho t ht hst
    have ho : t.graph.contexts.Anchored o := (hst htally.grounded).contexts.anchored (hobjs o ho)
    split
    · exact (yields_pure _).mpr ⟨.refl, ho⟩
    · exact (hprojection t o ht ho).mono fun f u h => ⟨fun _ => h.1, h.2⟩
  · rintro fields t ⟨hst, -, hfields⟩
    have hst := htally.trans (hst htally.grounded)
    refine (hst.grounded.learnAt (hst.edges e c he) ?_).mono fun _ u => hst.trans
    intro f hf
    obtain ⟨-, -, hanchored⟩ := hfields f (IdSet.mem_ofList.mp hf)
    exact hanchored

theorem processLoad (hs : s.Grounded) (ho : s.graph.contexts.Anchored o)
    (he : s.graph.edge? e = some c) : Yields (processLoad o e) s fun _ t => Adds s t := by
  apply yields_unless_inert fun _ => ho.mem_lt
  · intro _
    exact .refl hs
  · intro _
    have htally := hs.tally { s.stats with loads := s.stats.loads + 1 } rfl
    rw [yields_bind, yields_count, yields_bind, yields_edge (c := c) (by exact he)]
    exact (htally.grounded.addCopy (hs.lt_of_anchored ho) (hs.dst_lt he)).mono fun _ t =>
      htally.trans

theorem processStore (hs : s.Grounded) (ho : s.graph.contexts.Anchored o)
    (he : s.graph.edge? e = some c) : Yields (processStore o e) s fun _ t => Adds s t := by
  apply yields_unless_inert fun _ => ho.mem_lt
  · intro _
    exact .refl hs
  · intro _
    have htally := hs.tally { s.stats with stores := s.stats.stores + 1 } rfl
    rw [yields_bind, yields_count, yields_bind, yields_edge (c := c) (by exact he)]
    exact (htally.grounded.addCopy (hs.src_lt he) (hs.lt_of_anchored ho)).mono fun _ t =>
      htally.trans

/-! ## Visits -/

/-- A loop over constraints that were there at its start. -/
theorem forM_edges (hs : s.Grounded) {process : EdgeId → SolverM C Unit} (edges : List EdgeId)
    (hedges : ∀ e ∈ edges, ∃ c, s.graph.edge? e = some c)
    (h : ∀ (t : Solver C) e c, Adds s t → e ∈ edges → s.graph.edge? e = some c →
      Yields (process e) t fun _ u => Adds t u) :
    Yields (edges.forM process) s fun _ t => Adds s t := by
  apply Yields.forM_of_keeps (.refl hs)
  intro e he t hst
  obtain ⟨c, hec⟩ := hedges e he
  exact (h t e c hst he hec).mono fun _ u => hst.trans

theorem sendAlong (hs : s.Grounded) (he : s.graph.edge? e = some c)
    (hclass : c.kind.edgeClass = .direct) {objs : IdSet}
    (hobjs : ∀ o ∈ objs, s.graph.contexts.Anchored o) :
    Yields (sendAlong objs e) s fun _ t => Adds s t := by
  rw [Solver.sendAlong, yields_bind, yields_edge (c := c) he]
  cases hkind : c.kind with
  | copy => exact hs.processCopy he hobjs
  | field offset => exact hs.processProjection he (fun _ _ ht ho => ht.project ho offset) hobjs
  | anyField => exact hs.processProjection he (fun _ _ ht ho => ht.widen ho) hobjs
  | addr => simp [hkind, ConstraintKind.edgeClass] at hclass
  | load => simp [hkind, ConstraintKind.edgeClass] at hclass
  | store => simp [hkind, ConstraintKind.edgeClass] at hclass

theorem send (hs : s.Grounded) (n : NodeId) {objs : IdSet}
    (hobjs : ∀ o ∈ objs, s.graph.contexts.Anchored o) :
    Yields (send n objs) s fun _ t => Adds s t := by
  have hlisted := hs.coherent.graph.listed .outgoing n .direct
  rw [Solver.send]
  split
  · exact (yields_pure _).mpr (.refl hs)
  · rw [yields_bind, yields_get]
    apply hs.forM_edges
    · intro e he
      obtain ⟨c, hec, -⟩ := (hlisted e).mp he
      exact ⟨c, hec⟩
    · intro t e c hst he hec
      obtain ⟨c', hec', hclass, -⟩ := (hlisted e).mp he
      cases hec.symm.trans hec'
      exact hst.grounded.sendAlong (hst.edges e c hec) hclass fun o ho =>
        hst.contexts.anchored (hobjs o ho)

/-- The constraints listed at a node can be looked at. -/
theorem edge_of_edgesAt (hs : s.Grounded) (side : Side) (n : NodeId) (cls : EdgeClass) :
    ∀ e ∈ (s.graph.edgesAt side n cls).toList, ∃ c, s.graph.edge? e = some c := by
  intro e he
  obtain ⟨c, hec, -⟩ := (hs.coherent.graph.listed side n cls e).mp he
  exact ⟨c, hec⟩

theorem dereference (hs : s.Grounded) (n : NodeId) :
    Yields (dereference n) s fun _ t => Adds s t := by
  rw [Solver.dereference, yields_bind, yields_get]
  apply Yields.forM_of_keeps (.refl hs)
  intro o ho t hst
  have ho := hst.contexts.anchored (hs.anchored ho)
  have hkeep : ∀ {u : Solver C} {side : Side} {cls : EdgeClass}, Adds s u →
      ∀ e ∈ (s.graph.edgesAt side n cls).toList, ∃ c, u.graph.edge? e = some c := by
    intro u side cls hsu e he
    obtain ⟨c, hec⟩ := hs.edge_of_edgesAt side n cls e he
    exact ⟨c, hsu.edges e c hec⟩
  rw [yields_bind]
  refine (hst.grounded.forM_edges _ (hkeep hst) ?_).mono fun _ u htu => ?_
  · intro u e c htu _ hec
    exact htu.grounded.processLoad (htu.contexts.anchored ho) (htu.edges e c hec)
  · have hsu := hst.trans htu
    refine (hsu.grounded.forM_edges _ (hkeep hsu) ?_).mono fun _ v => hsu.trans
    intro v e c huv _ hec
    exact huv.grounded.processStore ((htu.trans huv).contexts.anchored ho) (huv.edges e c hec)

theorem dereferenceNew (hs : s.Grounded) {process : NodeId → EdgeId → SolverM C Unit}
    (hprocess : ∀ (t : Solver C) o, t.Grounded → t.graph.contexts.Anchored o →
      t.graph.edge? e = some c → Yields (process o e) t fun _ u => Adds t u)
    (he : s.graph.edge? e = some c) (n : NodeId) :
    Yields (dereferenceNew process n e) s fun _ t => Adds s t := by
  have hrecord := hs.record (Facts.pts_handle s.facts e n)
  rw [Solver.dereferenceNew, yields_bind, yields_get]
  simp only [yields_bind, yields_modify, Facts.fst_handle]
  apply Yields.forM_of_keeps hrecord
  intro o ho t hst
  have ho : o ∈ s.facts.pointsTo n := (IdSet.mem_sdiff.mp ho).1
  have hanchored := hst.contexts.anchored (hs.coherent.target n o ho)
  exact (hprocess t o hst.grounded hanchored (hst.edges e c he)).mono fun _ u => hst.trans

theorem visitIndirect (hs : s.Grounded) (n : NodeId) :
    Yields (visitIndirect n) s fun _ t => Adds s t := by
  have htally := hs.tally { s.stats with visits := s.stats.visits + 1 } rfl
  rw [Solver.visitIndirect, yields_bind, countVisit, yields_count, yields_bind, yields_get]
  split
  · rw [yields_bind]
    refine (htally.grounded.forM_edges _ (htally.grounded.edge_of_edgesAt .outgoing n .load)
      fun t e c hst _ hec => ?_).mono fun _ t hst => ?_
    · exact hst.grounded.dereferenceNew (fun _ _ hu => hu.processLoad) (hst.edges e c hec) n
    · refine (hst.grounded.forM_edges _ (fun e he => ?_) fun u e c htu _ hec => ?_).mono
        fun _ u htu => (htally.trans hst).trans htu
      · obtain ⟨c, hec⟩ := htally.grounded.edge_of_edgesAt .incoming n .store e he
        exact ⟨c, hst.edges e c hec⟩
      · exact htu.grounded.dereferenceNew (fun _ _ hv => hv.processStore) (htu.edges e c hec) n
  · exact (htally.grounded.dereference n).mono fun _ t => htally.trans

theorem visitFully (hs : s.Grounded) (n : NodeId) :
    Yields (visitFully n) s fun _ t => Adds s t := by
  have htally := hs.tally { s.stats with visits := s.stats.visits + 1 } rfl
  rw [Solver.visitFully, yields_bind, countVisit, yields_count, yields_bind, yields_get,
    yields_bind]
  refine (htally.grounded.forM_edges _ (htally.grounded.edge_of_edgesAt .incoming n .addr) ?_).mono
    fun _ t hst => ?_
  · intro t e c hst he hec
    obtain ⟨c', hec', hclass, -⟩ := (hs.coherent.graph.listed .incoming n .addr e).mp he
    cases hec.symm.trans hec'
    exact hst.grounded.processAddr (hst.edges e c hec)
      (ConstraintKind.edgeClass_eq_addr_iff.mp hclass)
  · have hst := htally.trans hst
    rw [yields_bind]
    refine (hst.grounded.dereference n).mono fun _ u htu => ?_
    have hsu := hst.trans htu
    rw [yields_bind, yields_get]
    exact (hsu.grounded.send n fun o => hsu.grounded.anchored).mono fun _ v => hsu.trans

/-! ## Folding -/

/-- Whoever points to a field can learn that it points to the base. -/
theorem spill (hs : s.Grounded) {base : NodeId} (hbase : s.graph.contexts.Anchored base)
    (f : NodeId) : Yields ((s.facts.pointersTo f).forM fun ptr => do
        if ← Solver.learn ptr {base} then modify fun s => { s with merged := true }) s
      fun _ t => Onward s t ∧ t.graph = s.graph := by
  apply Yields.forM_of_keeps ⟨.refl hs, rfl⟩
  intro ptr hptr t ⟨hst, hgraph⟩
  have hlive := hs.coherent.live ptr f ((Facts.mem_pointersTo _).mp hptr)
  rw [← hgraph] at hlive hbase
  rw [yields_bind, yields_learn]
  by_cases hold : base ∈ t.facts.pointsTo ptr
  · have hsub : ({base} : IdSet) ⊆ t.facts.pointsTo ptr :=
      IdSet.subset_def.mpr fun o ho => IdSet.mem_singleton.mp ho ▸ hold
    simp only [hsub, decide_true, Bool.not_true, Bool.false_eq_true, if_false, yields_pure, learned,
      if_true]
    exact ⟨hst, hgraph⟩
  · have hsub : ¬ ({base} : IdSet) ⊆ t.facts.pointsTo ptr := fun h =>
      hold (IdSet.subset_def.mp h _ (IdSet.mem_singleton.mpr rfl))
    simp only [hsub, decide_false, Bool.not_false, if_true, yields_modify]
    exact ⟨hst.trans (hst.grounded.onward_spilt hbase hlive hold),
      (graph_learned t _ _).trans hgraph⟩

theorem foldField (hs : s.Grounded) {base f : NodeId} (hbase : s.graph.contexts.Anchored base)
    (hf : f < s.graph.contexts.nodes.size) :
    Exhibits Grounded (Traced.foldField base f) s fun _ t => Onward s t := by
  rw [Traced.foldField, exhibits_bind, exhibits_quietly, yields_bind, yields_get]
  refine (hs.spill hbase f).mono ?_
  rintro - t ⟨hst, hgraph⟩
  simp only [exhibits_bind, exhibits_quietly, yields_get]
  split
  · rename_i hne
    have hbase := hst.grounded.lt_of_anchored (hst.contexts.anchored hbase)
    have hf : f < t.graph.slots.size := by
      rw [hgraph, hs.coherent.graph.size_eq]
      exact hf
    obtain ⟨hgroup, hmerge⟩ := yields_mergeReps hst.grounded.coherent.graph hbase hf hne rfl
    rw [exhibits_bind, Traced.mergeNode, exhibits_bind, exhibits_quietly]
    refine hmerge.mono fun _ u hfused => ?_
    have htu := hst.grounded.onward_fused hgroup.toMergeable hfused
    have htally := htu.grounded.tally { u.stats with foldedFields := u.stats.foldedFields + 1 } rfl
    rw [exhibits_observe, exhibits_quietly, yields_count]
    exact ⟨htu.grounded, (hst.trans htu).trans htally.toOnward⟩
  · exact (exhibits_pure _).mpr hst

theorem foldObject (hs : s.Grounded) {mem : MemObjId} (hmem : mem < s.graph.contexts.memObjs.size) :
    Exhibits Grounded (Traced.foldObject mem) s fun _ t => Onward s t := by
  have hobj := Array.getElem?_eq_getElem hmem
  have hbases : s.graph.contexts.baseCopies mem =
      .ok (s.graph.contexts.copiesOf s.graph.contexts.memObjs[mem].baseNode) := by
    simp [ContextGraph.baseCopies, entryAt_eq_ok hobj, bind, Except.bind, pure, Except.pure]
  rw [Traced.foldObject, exhibits_bind, exhibits_quietly, yields_bind, yields_get,
    yields_orHalt hbases]
  apply Exhibits.forM_of_keeps (.refl hs)
  intro base hbase t hst
  have hbase := hst.contexts.anchored (hs.contexts.base mem _ base hobj hbase)
  rw [exhibits_bind, exhibits_quietly, yields_get]
  have hfields : Exhibits Grounded ((t.graph.contexts.fieldsAt base).forM (Traced.foldField base)) t
      fun _ u => Onward t u := by
    apply Exhibits.forM_of_keeps (.refl hst.grounded)
    intro f hf u htu
    have hf := Nat.lt_of_lt_of_le (hst.grounded.contexts.fieldsAt_lt base f hf) htu.contexts.size_le
    exact (htu.grounded.foldField (htu.contexts.anchored hbase) hf).mono fun _ v => htu.trans
  exact hfields.mono fun _ u => hst.trans

theorem foldPending (hs : s.Grounded) :
    Exhibits Grounded Traced.foldPending s fun _ t => Onward s t := by
  have hclear : Adds s { s with pending := ∅ } :=
    hs.adds_of_eq rfl rfl rfl rfl rfl rfl (by simp)
  simp only [Traced.foldPending, exhibits_bind, exhibits_quietly, yields_get, yields_modify]
  apply Exhibits.forM_of_keeps hclear.toOnward
  intro mem hmem t hst
  have hmem : mem < t.graph.contexts.memObjs.size := by
    rw [hst.contexts.mem_size]
    exact hs.pending_lt mem hmem
  exact (hst.grounded.foldObject hmem).mono fun _ u => hst.trans

theorem settle (hs : s.Grounded) (n : NodeId) :
    Exhibits Grounded (Traced.settle n) s fun _ t => Onward s t := by
  rw [Traced.settle, exhibits_bind, exhibits_quietly, yields_get]
  split
  · have hmark : Yields ((s.pointsTo n).toList.forM Solver.markFieldInsensitive) s
        fun _ t => Adds s t := by
      apply Yields.forM_of_keeps (.refl hs)
      intro o ho t hst
      have ho := hst.contexts.anchored (hs.anchored ho)
      exact (hst.grounded.markFieldInsensitive ho).mono fun _ u => hst.trans
    rw [exhibits_bind, exhibits_quietly]
    refine hmark.mono fun _ t hst => ?_
    refine hst.grounded.foldPending.bind fun _ u htu => ?_
    rw [exhibits_quietly, yields_rep]
    exact hst.toOnward.trans htu
  · exact (exhibits_pure _).mpr (.refl hs)

theorem visitDirect (hs : s.Grounded) (n : NodeId) :
    Exhibits Grounded (Traced.visitDirect n) s fun _ t => Onward s t := by
  have htally := hs.tally { s.stats with visits := s.stats.visits + 1 } rfl
  rw [Traced.visitDirect, exhibits_bind, exhibits_quietly, countVisit, yields_count]
  refine (htally.grounded.settle n).bind fun m t hst => ?_
  have hst := htally.toOnward.trans hst
  rw [exhibits_quietly, yields_bind, yields_get]
  split
  · have hrecord := hst.grounded.record (Facts.pts_send t.facts m)
    simp only [yields_bind, yields_set, Facts.gainedBy_send]
    split
    · refine (hrecord.grounded.send m fun o ho => ?_).mono fun _ u htu => ?_
      · exact hst.grounded.coherent.target m o (IdSet.mem_sdiff.mp ho).1
      · exact (hst.trans hrecord.toOnward).trans htu.toOnward
    · exact (yields_pure _).mpr (hst.trans hrecord.toOnward)
  · exact (hst.grounded.send m fun o => hst.grounded.anchored).mono fun _ u htu =>
      hst.trans htu.toOnward

theorem sweep (hs : s.Grounded) (n : NodeId) :
    Exhibits Grounded (Traced.sweep n) s fun _ t => Onward s t := by
  rw [Traced.sweep, exhibits_bind, exhibits_quietly, yields_get]
  dsimp only
  split
  · exact (hs.visitDirect n).bind fun _ t hst => (exhibits_observe _).mpr ⟨hst.grounded, hst⟩
  · exact (exhibits_observe _).mpr ⟨hs, .refl hs⟩

theorem serve (hs : s.Grounded) {visit : NodeId → SolverM C Unit}
    (hvisit : ∀ (t : Solver C) m, t.Grounded → Yields (visit m) t fun _ u => Onward t u)
    (n : NodeId) : Exhibits Grounded (Traced.serve visit n) s fun _ t => Onward s t := by
  rw [Traced.serve, exhibits_bind, exhibits_quietly, yields_rep, exhibits_bind, exhibits_quietly,
    yields_get]
  split
  · refine (hs.settle _).bind fun m t hst => ?_
    rw [exhibits_bind, exhibits_quietly]
    refine (hvisit t m hst.grounded).mono fun _ u htu => ?_
    refine htu.grounded.foldPending.bind fun _ v huv => ?_
    exact (exhibits_observe _).mpr ⟨huv.grounded, hst.trans (htu.trans huv)⟩
  · exact (exhibits_observe _).mpr ⟨hs, .refl hs⟩

theorem seed (hs : s.Grounded) : Exhibits Grounded Traced.seed s fun _ t => Onward s t := by
  rw [Traced.seed, exhibits_bind, exhibits_quietly, yields_get]
  split
  · exact (exhibits_pure _).mpr (.refl hs)
  · let whole := IdSet.ofList
      ((s.graph.contexts.memObjs.toList.filter (·.fieldInsensitive)).map MemObject.id)
    have hwhole : ∀ mem ∈ s.pending ∪ whole, mem < s.graph.contexts.memObjs.size := by
      intro mem hmem
      rcases IdSet.mem_union.mp hmem with hmem | hmem
      · exact hs.pending_lt mem hmem
      · obtain ⟨obj, hobj, rfl⟩ := List.mem_map.mp (IdSet.mem_ofList.mp hmem)
        have hobj : obj ∈ s.graph.contexts.memObjs := by simpa using (List.mem_filter.mp hobj).1
        obtain ⟨i, hi⟩ := Array.mem_iff_getElem?.mp hobj
        exact hs.contexts.id_lt i obj hi
    have hstart : Adds s { s with initialized := true, pending := s.pending ∪ whole } :=
      hs.adds_of_eq rfl rfl rfl rfl rfl rfl hwhole
    simp only [exhibits_bind, exhibits_quietly, yields_bind, yields_set]
    refine (hstart.grounded.forM_edges _ (fun e he => ?_) fun t e c hst he hec => ?_).mono
      fun _ t hst => ?_
    · obtain ⟨c, hec, -⟩ := (mem_edgesOfClass hs.coherent.graph.toIndexed).mp he
      exact ⟨c, hec⟩
    · obtain ⟨c', hec', hclass⟩ := (mem_edgesOfClass hs.coherent.graph.toIndexed).mp he
      cases hec.symm.trans hec'
      exact hst.grounded.processAddr (hst.edges e c hec)
        (ConstraintKind.edgeClass_eq_addr_iff.mp hclass)
    · have hst := (hstart.trans hst).toOnward
      refine hst.grounded.foldPending.mono fun _ u htu => ?_
      exact (exhibits_observe _).mpr ⟨htu.grounded, hst.trans htu⟩

end Grounded

/-! ## Rounds -/

/-- A later state of a run in which other nodes may wait than progress accounts for. -/
structure Reaches (s t : Solver C) : Prop where
  grounded : t.Grounded
  contexts : s.graph.contexts.Extends t.graph.contexts
  advances : ∀ N, s.graph.contexts.capacity ≤ N → Advances N s t

theorem Onward.reaches (h : Onward s t) : Reaches s t :=
  ⟨h.grounded, h.contexts, fun N hN => (h.progress N hN).toAdvances⟩

theorem Reaches.trans (h : Reaches s t) (h' : Reaches t u) : Reaches s u where
  grounded := h'.grounded
  contexts := h.contexts.trans h'.contexts
  advances N hN := by
    apply (h.advances N hN).trans
    apply h'.advances
    rwa [h.contexts.capacity_eq]

namespace Grounded

theorem queue (hs : s.Grounded) {w : WorkList} (hlt : ∀ n ∈ w.toList, n < s.graph.slots.size)
    (hnodup : w.toList.Nodup) : Reaches s { s with worklist := w } where
  grounded := by
    obtain ⟨hgraph, hlive, htarget, haddr, -, -⟩ := hs.coherent
    exact ⟨hs.contexts, ⟨hgraph, hlive, htarget, haddr, hlt, hnodup⟩, hs.pending_lt,
      hs.ledger.congr rfl rfl fun _ => .rfl⟩
  contexts := .refl _
  advances _ _ := ⟨Nat.le_refl _, .inl, .inl⟩

theorem queueAll (hs : s.Grounded) {order : List NodeId}
    (hlt : ∀ n ∈ order, n < s.graph.slots.size) :
    Reaches s { s with worklist := order.foldl WorkList.push s.worklist } := by
  apply hs.queue
  · intro n hn
    rcases WorkList.mem_foldl_push.mp hn with hn | hn
    · exact hs.coherent.worklist_lt n hn
    · exact hlt n hn
  · exact WorkList.nodup_foldl_push hs.coherent.worklist_nodup order

theorem sweepAll (hs : s.Grounded) (order : List NodeId) :
    Exhibits Grounded (order.forM Traced.sweep) s fun _ t => Onward s t := by
  apply Exhibits.forM_of_keeps (.refl hs)
  intro n _ t hst
  exact (hst.grounded.sweep n).mono fun _ u => hst.trans

/-- Draining the worklist ends, since a visit raises the score for each node that it makes wait. -/
theorem drain {visit : NodeId → SolverM C Unit}
    (hvisit : ∀ (t : Solver C) m, t.Grounded → Yields (visit m) t fun _ u => Onward t u) {N : Nat}
    (fuel : Nat) (hs : s.Grounded) (hN : s.graph.contexts.capacity ≤ N)
    (hfuel : s.worklist.toList.length + (scoreBound N - score N s) < fuel) :
    Exhibits Grounded (Traced.drain visit fuel) s fun _ t => Reaches s t := by
  induction fuel generalizing s with
  | zero => exact absurd hfuel (Nat.not_lt_zero _)
  | succ fuel ih =>
      rw [Traced.drain, exhibits_bind, exhibits_quietly, yields_get]
      cases hpop : s.worklist.pop? with
      | none => exact (exhibits_pure _).mpr (Onward.refl hs).reaches
      | some p =>
          obtain ⟨n, w⟩ := p
          have hlist := WorkList.toList_of_pop? hpop
          obtain ⟨-, hlt, hnodup⟩ := hs.coherent.of_pop hpop
          have hqueue : Reaches s { s with worklist := w } := hs.queue hlt hnodup
          simp only [exhibits_bind, exhibits_quietly, yields_modify]
          refine (hqueue.grounded.serve hvisit n).mono fun _ t hst => ?_
          have hprogress := (hst.progress N hN).worklist
          have hscore := score_le_scoreBound N t
          have hlength : s.worklist.toList.length = w.toList.length + 1 := by
            rw [hlist]
            rfl
          refine (ih hst.grounded ?_ ?_).mono fun _ u htu => hqueue.trans (hst.reaches.trans htu)
          · rw [hst.contexts.capacity_eq]
            exact hN
          · change t.worklist.toList.length + score N s ≤ w.toList.length + score N t at hprogress
            omega

/-- The end of a round. -/
theorem finish (hs : s.Grounded) {visit : NodeId → SolverM C Unit}
    (hvisit : ∀ (t : Solver C) m, t.Grounded → Yields (visit m) t fun _ u => Onward t u) :
    Exhibits Grounded (do
        Traced.drain visit (← Traced.quietly get).fuel
        Traced.foldPending
        Traced.observe .rounded
        let s ← Traced.quietly get
        return s.copied || s.merged) s
      fun again t => Reaches s t ∧ again = (t.copied || t.merged) := by
  have hfuel := scoreBound_lt_fuel s (capacity_le_nodeBound s)
  have hlength := hs.coherent.length_worklist_le
  have hcapacity := hs.contexts.keyed.size_le_capacity
  rw [exhibits_bind, exhibits_quietly, yields_get]
  refine (hs.drain hvisit s.fuel (Nat.le_refl _) (by omega)).bind fun _ t hst => ?_
  refine hst.grounded.foldPending.bind fun _ u htu => ?_
  simp only [exhibits_bind, exhibits_observe, exhibits_quietly, yields_get, exhibits_pure, and_true]
  exact ⟨htu.grounded, hst.trans htu.reaches⟩

/-- Merging cycles leaves an order of nodes that were alive. -/
theorem mergeCycles (hs : s.Grounded) :
    Exhibits Grounded Traced.mergeCycles s fun order t =>
      Onward s t ∧ ∀ n ∈ order, s.graph.isLive n := by
  have htally := hs.tally { s.stats with cycleSearches := s.stats.cycleSearches + 1 } rfl
  have hmerge := exhibits_mergeCycles (P := Onward s) hs.coherent.graph htally.toOnward
    fun _ _ _ _ _ hst hmergeable hfused => hst.trans (hst.grounded.onward_fused hmergeable hfused)
  refine (hmerge.weaken fun _ => Onward.grounded).mono ?_
  rintro order t ⟨hst, hmerged⟩
  exact ⟨hst, fun n hn => hmerged.isLive_of_mem_order hs.coherent.graph hn⟩

/-- A round ends, and has raised the score if it asks for another one. -/
theorem round (hs : s.Grounded) :
    Exhibits Grounded Traced.round s fun again t => t.Grounded ∧
      s.graph.contexts.Extends t.graph.contexts ∧ ∀ N, s.graph.contexts.capacity ≤ N →
        score N s ≤ score N t ∧ (again = true → score N s < score N t) := by
  refine hs.seed.bind fun _ t hst => ?_
  let t₀ : Solver C := { t with copied := false, merged := false }
  have ht₀ : t₀.Grounded := hst.grounded.reflag _ _
  -- the flags are down now, so that a flag that is up at the end stands for a higher score
  suffices hserve : Exhibits Grounded _ t₀ fun again u => Reaches t₀ u ∧
      again = (u.copied || u.merged) by
    rw [exhibits_bind, exhibits_quietly, yields_modify]
    refine hserve.mono ?_
    rintro again u ⟨hu, hagain⟩
    refine ⟨hu.grounded, hst.contexts.trans hu.contexts, fun N hN => ?_⟩
    have hle : score N s ≤ score N t₀ := (hst.progress N hN).score
    have hadvances := hu.advances N (hst.contexts.capacity_eq ▸ hN)
    refine ⟨Nat.le_trans hle hadvances.score, fun h => Nat.lt_of_le_of_lt hle ?_⟩
    rcases Bool.or_eq_true_iff.mp (hagain.symm.trans h) with h | h
    · exact (hadvances.copied h).resolve_left Bool.false_ne_true
    · exact (hadvances.merged h).resolve_left Bool.false_ne_true
  have htally := ht₀.tally { t.stats with rounds := t.stats.rounds + 1 } rfl
  rw [exhibits_bind, exhibits_quietly, yields_count]
  refine (htally.grounded.mergeCycles).bind ?_
  rintro order u ⟨htu, horder⟩
  have htu := htally.toOnward.trans htu
  rw [exhibits_bind, exhibits_quietly, yields_get]
  split
  · refine (htu.grounded.sweepAll order).bind fun _ v huv => ?_
    refine huv.grounded.foldPending.bind fun _ w hvw => ?_
    have htw := (htu.trans huv).trans hvw
    refine (hvw.grounded.finish fun _ m hx => (hx.visitIndirect m).mono fun _ _ =>
      Adds.toOnward).mono ?_
    exact fun again x h => ⟨htw.reaches.trans h.1, h.2⟩
  · rw [exhibits_bind, exhibits_quietly, yields_forM_schedule]
    have hlt : ∀ n ∈ order, n < u.graph.slots.size := by
      intro n hn
      have hn := ConstraintGraph.isLive_lt (horder n hn)
      rw [ht₀.coherent.graph.size_eq] at hn
      rw [htu.grounded.coherent.graph.size_eq]
      exact Nat.lt_of_lt_of_le hn htu.contexts.size_le
    have hqueue := htu.grounded.queueAll hlt
    refine (hqueue.grounded.finish fun _ m hx => (hx.visitFully m).mono fun _ _ =>
      Adds.toOnward).mono ?_
    exact fun again x h => ⟨htu.reaches.trans (hqueue.trans h.1), h.2⟩

/-- Rounds end, since each that asks for another one raises the score. -/
theorem rounds {N : Nat} (fuel : Nat) (hs : s.Grounded) (hN : s.graph.contexts.capacity ≤ N)
    (hfuel : scoreBound N - score N s < fuel) :
    Exhibits Grounded (Traced.rounds fuel) s fun _ t => t.Grounded := by
  induction fuel generalizing s with
  | zero => exact absurd hfuel (Nat.not_lt_zero _)
  | succ fuel ih =>
      refine hs.round.bind ?_
      rintro again t ⟨ht, hext, hscore⟩
      cases again with
      | false => exact (exhibits_pure _).mpr ht
      | true =>
          have hlt := (hscore N hN).2 rfl
          have hle := score_le_scoreBound N t
          apply ih ht
          · rw [hext.capacity_eq]
            exact hN
          · omega

/-- Every run from a grounded state ends with a result. -/
theorem exhibits_solve (hs : s.Grounded) :
    Exhibits Grounded Traced.solve s fun _ t => t.Grounded := by
  refine hs.seed.bind fun _ t hst => ?_
  have hfuel := scoreBound_lt_fuel t (capacity_le_nodeBound t)
  rw [exhibits_bind, exhibits_quietly, yields_get]
  exact hst.grounded.rounds t.fuel (Nat.le_refl _) (by omega)

theorem solve (hs : s.Grounded) : Yields solve s fun _ t => t.Grounded := by
  rw [← Traced.run_solve]
  exact hs.exhibits_solve.2

end Grounded

theorem grounded_new {cg : ContextGraph C} {g : ConstraintGraph C} (hg : g.Spans cg cg.edges.toList)
    (hcg : cg.Grounded) (haddr : ∀ e ∈ cg.edges, e.kind = .addr → cg.Anchored e.src)
    (strategy : Strategy) : (new g strategy).Grounded := by
  have hcontexts : (new g strategy).graph.contexts = cg := hg.contexts
  refine ⟨hcontexts ▸ hcg, ?_, fun mem hmem => by simp [new] at hmem, ledger_new hg strategy⟩
  rw [hcontexts]
  exact coherent_new hg haddr strategy

end Solver

end PointerAnalysis
