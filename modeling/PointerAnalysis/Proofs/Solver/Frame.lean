import PointerAnalysis.Proofs.Solver.Step

/-!
What a run leaves alone. Points-to sets only grow, up to representatives; nodes once linked stay
linked; constraints are renamed, and new ones are copies. Above all, a node whose set or constraints
change is made to wait: a node that does not wait is as it was.
-/

namespace PointerAnalysis

namespace Solver

variable {C : Type} [Context C]

/-- How a later state relates to an earlier one. -/
structure Frame (s s' : Solver C) : Prop where
  strategy : s'.strategy = s.strategy
  contexts : s.graph.contexts.Extends s'.graph.contexts
  rep_rep : ∀ n, s'.graph.rep (s.graph.rep n) = s'.graph.rep n
  live : ∀ n, n < s.graph.slots.size → s'.graph.isLive n → s.graph.isLive n
  pointsTo : ∀ n o, o ∈ s.facts.pointsTo n → o ∈ s'.facts.pointsTo (s'.graph.rep n)
  linked : ∀ a b, s.graph.Linked a b → s'.graph.Linked a b
  worklist : ∀ n ∈ s.worklist.toList, n ∈ s'.worklist.toList
  joined : ∀ n, s.graph.isLive n → s'.graph.rep n ≠ n → s'.graph.rep n ∈ s'.worklist.toList
  calm : ∀ n, n ∉ s'.worklist.toList →
    (∀ o ∈ s'.facts.pointsTo n, o ∈ s.facts.pointsTo n) ∧
    (s'.graph.isShifting n → s.graph.isShifting n)
  has : ∀ c, s'.graph.Has c →
    (∃ c₀, s.graph.Has c₀ ∧ c = c₀.rename s'.graph.rep ∧ (c.kind = .addr → c = c₀)) ∨
    c.kind = .copy ∧ (s.strategy ≠ .waveDiff → c.src ∈ s'.worklist.toList) ∧
      (s.strategy = .waveDiff → ∀ o, (∀ m, s'.graph.rep m = c.src → s.graph.rep m = m →
        s.graph.isLive m ∧ o ∈ s.facts.pointsTo m) → o ∈ s'.facts.pointsTo c.dst)
  fresh : s.graph.Fresh s'.graph
  copied : s.copied = true → s'.copied = true
  merged : s.merged = true → s'.merged = true

namespace Frame

variable {s s' s'' : Solver C}

theorem size_le (h : Frame s s') (hs : s.WellFormed) (hs' : s'.WellFormed) :
    s.graph.slots.size ≤ s'.graph.slots.size := by
  rw [hs.graph.size_eq, hs'.graph.size_eq]
  exact h.contexts.size_le

theorem trans (h : Frame s s') (h' : Frame s' s'') (hs : s.WellFormed) (hs' : s'.WellFormed) :
    Frame s s'' where
  strategy := h'.strategy.trans h.strategy
  contexts := h.contexts.trans h'.contexts
  rep_rep n := by rw [← h'.rep_rep (s.graph.rep n), h.rep_rep, h'.rep_rep]
  live n hn hlive := h.live n hn (h'.live n (Nat.lt_of_lt_of_le hn (h.size_le hs hs')) hlive)
  pointsTo n o ho := by
    rw [← h'.rep_rep n]
    exact h'.pointsTo _ o (h.pointsTo n o ho)
  linked a b hab := h'.linked a b (h.linked a b hab)
  worklist n hn := h'.worklist n (h.worklist n hn)
  joined n hn hne := by
    have hlt := Nat.lt_of_lt_of_le (ConstraintGraph.isLive_lt hn) (h.size_le hs hs')
    have hlive := hs'.graph.isLive_rep n hlt
    by_cases hrep : s''.graph.rep (s'.graph.rep n) = s'.graph.rep n
    · rw [← h'.rep_rep n, hrep] at hne ⊢
      exact h'.worklist _ (h.joined n hn hne)
    · rw [← h'.rep_rep n]
      exact h'.joined _ hlive hrep
  calm n hout := by
    obtain ⟨hpts', hshift'⟩ := h'.calm n hout
    obtain ⟨hpts, hshift⟩ := h.calm n fun hin => hout (h'.worklist n hin)
    exact ⟨fun o ho => hpts o (hpts' o ho), fun hsh => hshift (hshift' hsh)⟩
  has c hc := by
    rcases h'.has c hc with ⟨c', hc', rfl, haddr'⟩ | ⟨hkind, hwork, hdiff⟩
    · rcases h.has c' hc' with ⟨c₀, hc₀, rfl, haddr⟩ | ⟨hkind, hwork, hdiff⟩
      · refine .inl ⟨c₀, hc₀, by simp [Constraint.rename, h'.rep_rep], fun hkind => ?_⟩
        exact (haddr' hkind).trans (haddr hkind)
      · refine .inr ⟨hkind, fun hst => ?_, fun hst o ho => ?_⟩
        · have hin := hwork hst
          by_cases hrep : s''.graph.rep c'.src = c'.src
          · simp only [Constraint.rename, hrep]
            exact h'.worklist _ hin
          · exact h'.joined _ (hs'.graph.isLive_src hc') hrep
        · refine h'.pointsTo _ o (hdiff hst o fun m hm hself => ho m ?_ hself)
          rw [← h'.rep_rep m, hm]
          rfl
    · refine .inr ⟨hkind, fun hst => hwork (h.strategy ▸ hst), fun hst o ho => ?_⟩
      refine hdiff (h.strategy ▸ hst) o fun m hm hself => ?_
      by_cases hlt : m < s.graph.slots.size
      · have hlive' : s'.graph.isLive m := by
          have := hs'.graph.isLive_rep m (Nat.lt_of_lt_of_le hlt (h.size_le hs hs'))
          rwa [hself] at this
        have hlive := h.live m hlt hlive'
        obtain ⟨-, hpts⟩ := ho m hm (hs.graph.rep_of_isLive m hlive)
        have := h.pointsTo m o hpts
        rw [hself] at this
        exact ⟨hlive', this⟩
      · obtain ⟨hlive, -⟩ := ho m hm (hs.graph.rep_of_size_le m (Nat.le_of_not_lt hlt))
        exact absurd (ConstraintGraph.isLive_lt hlive) hlt
  fresh := h.fresh.trans h'.fresh
  copied hc := h'.copied (h.copied hc)
  merged hm := h'.merged (h.merged hm)

/-- A state with the same graph, larger points-to sets, and their nodes waiting. -/
theorem of_graph_eq (hs : s.WellFormed) (hgraph : s'.graph = s.graph)
    (hstrategy : s'.strategy = s.strategy)
    (hpts : ∀ n o, o ∈ s.facts.pointsTo n → o ∈ s'.facts.pointsTo n)
    (hwork : ∀ n ∈ s.worklist.toList, n ∈ s'.worklist.toList)
    (hcalm : ∀ n, n ∉ s'.worklist.toList → ∀ o ∈ s'.facts.pointsTo n, o ∈ s.facts.pointsTo n)
    (hcopied : s.copied = true → s'.copied = true) (hmerged : s.merged = true → s'.merged = true) :
    Frame s s' := by
  have hrep : ∀ n, s.graph.rep (s.graph.rep n) = s.graph.rep n := by
    intro n
    by_cases hn : n < s.graph.slots.size
    · exact hs.graph.rep_of_isLive _ (hs.graph.isLive_rep n hn)
    · have h := hs.graph.rep_of_size_le n (Nat.le_of_not_lt hn)
      rw [h, h]
  refine ⟨hstrategy, hgraph ▸ .refl _, fun n => by rw [hgraph, hrep], ?_, ?_, ?_, hwork, ?_, ?_, ?_,
    hgraph ▸ .refl _, hcopied, hmerged⟩
  · intro n _ hn
    rwa [hgraph] at hn
  · intro n o ho
    rw [hgraph, hs.graph.rep_of_isLive n (hs.live n o ho)]
    exact hpts n o ho
  · intro a b hab
    rwa [hgraph]
  · intro n hn hne
    rw [hgraph] at hne
    exact absurd (hs.graph.rep_of_isLive n hn) hne
  · intro n hout
    rw [hgraph]
    exact ⟨hcalm n hout, id⟩
  · intro c hc
    rw [hgraph] at hc ⊢
    exact .inl ⟨c, hc, by simp [Constraint.rename, hs.rep_src hc, hs.rep_dst hc], fun _ => rfl⟩

theorem refl (hs : s.WellFormed) : Frame s s :=
  of_graph_eq hs rfl rfl (fun _ _ h => h) (fun _ h => h) (fun _ _ _ h => h) id id

end Frame

variable {active : NodeId → Prop} {s s' : Solver C}

/-! ## Single steps -/

theorem frame_learned (hs : s.WellFormed) (n : NodeId) (objs : IdSet) :
    Frame s (s.learned n objs) := by
  refine .of_graph_eq hs (by simp) (by simp) ?_ ?_ ?_ (by simp) (by simp)
  · exact fun m o ho => (mem_pointsTo_learned s n objs).mpr (.inl ho)
  · exact fun m hm => (mem_worklist_learned s n objs).mpr (.inl hm)
  · exact fun m hm o ho => (pointsTo_learned_of_not_mem s n objs hm).mp ho

theorem frame_linked (hs : s.WellFormed) {src dst : NodeId} {e : EdgeId} {g : ConstraintGraph C}
    (hdue : LinkDue s src dst) (hok : s.graph.addEdge src dst .copy = .ok (some e, g)) :
    Frame s (s.linked g src dst) := by
  obtain ⟨hsrc, hdst⟩ := hdue.lt hs
  obtain ⟨r, g', hok', hnodes, hindexed, hfresh, hkept, hhas, -, -⟩ :=
    s.graph.addEdge_spec hs.graph.toIntact hsrc hdst .copy
  cases hok.symm.trans hok'
  have hrefl := Frame.refl hs
  have hkeep : ∀ c, s.graph.Has c → g.Has c := fun c hc => (hhas c).mpr (.inl hc)
  have hself : ∀ m, s.graph.isLive m → g.rep m = m := fun m hm =>
    (hnodes.rep m).trans (hs.graph.rep_of_isLive m hm)
  refine ⟨by simp, ?_, ?_, ?_, ?_, ?_, ?_, ?_, ?_, ?_, ?_, by simp, by simp⟩
  · rw [graph_linked, hnodes.contexts]
    exact .refl _
  · intro n
    rw [graph_linked, hnodes.rep, hnodes.rep]
    exact hrefl.rep_rep n
  · intro n _ hn
    rwa [graph_linked, hnodes.isLive] at hn
  · intro n o ho
    rw [graph_linked, hself n (hs.live n o ho)]
    exact (mem_pointsTo_linked s g src dst).mpr (.inl ho)
  · rintro a b (hab | hab)
    · refine .inl ?_
      rw [graph_linked, hnodes.rep, hnodes.rep, hab]
    · refine .inr ?_
      rw [graph_linked, hnodes.rep, hnodes.rep]
      exact hkeep _ hab
  · exact fun n hn => (mem_worklist_linked s g src dst).mpr (.inl hn)
  · intro n hn hne
    rw [graph_linked] at hne
    exact absurd (hself n hn) hne
  · intro n hout
    refine ⟨fun o ho => ?_, fun hsh => ?_⟩
    · rcases (mem_pointsTo_linked s g src dst).mp ho with hold | ⟨hst, rfl, hflow⟩
      · exact hold
      · by_contra hnot
        refine hout ((mem_worklist_linked s g src dst).mpr (.inr (.inr ⟨hst, rfl, fun hsub => ?_⟩)))
        exact hnot (IdSet.subset_def.mp hsub o hflow)
    · rw [graph_linked, ConstraintGraph.isShifting, hnodes.shifting] at hsh
      exact hsh
  · intro c hc
    rw [graph_linked] at hc ⊢
    rcases (hhas c).mp hc with hc | ⟨rfl, -⟩
    · refine .inl ⟨c, hc, ?_, fun _ => rfl⟩
      simp [Constraint.rename, hnodes.rep, hs.rep_src hc, hs.rep_dst hc]
    · refine .inr ⟨rfl, fun hst => ?_, fun hst o ho => ?_⟩
      · refine (mem_worklist_linked s g src dst).mpr (.inr (.inl ⟨hst, ?_⟩))
        exact (hnodes.rep src).symm
      · refine (mem_pointsTo_linked s g src dst).mpr (.inr ⟨hst, (hnodes.rep dst).symm, ?_⟩)
        have hlive := hs.graph.isLive_rep src hsrc
        obtain ⟨-, hpts⟩ := ho (s.graph.rep src) (hself _ hlive) (hs.graph.rep_of_isLive _ hlive)
        rwa [hnodes.rep]
  · rw [graph_linked]
    exact hfresh

theorem frame_grow (hs : s.WellFormed) {g : ConstraintGraph C} {key : FieldKey C} {base : NodeId}
    (hnew : s.graph.contexts.fieldNodes[key]? = none)
    (hcontexts : g.contexts = (s.graph.contexts.makeField key base).2) (hgrown : s.graph.Grown g) :
    Frame s { s with graph := g } := by
  have hrefl := Frame.refl hs
  have hrep : ∀ n, g.rep n = s.graph.rep n := fun n => by
    rw [ConstraintGraph.rep, hgrown.reps, ConstraintGraph.rep]
  have hhas : ∀ c, g.Has c ↔ s.graph.Has c := fun c => by
    simp only [ConstraintGraph.Has, ConstraintGraph.edge?, hgrown.edges]
  refine ⟨rfl, ?_, ?_, ?_, ?_, ?_, fun _ h => h, ?_, ?_, ?_, ?_, id, id⟩
  · change s.graph.contexts.Extends g.contexts
    rw [hcontexts]
    exact ContextGraph.extends_makeField base hnew
  · intro n
    change g.rep (s.graph.rep n) = g.rep n
    rw [hrep, hrep]
    exact hrefl.rep_rep n
  · intro n hn hlive
    rcases (hgrown.isLive_iff n).mp hlive with h | rfl
    · exact h
    · exact absurd hn (Nat.lt_irrefl _)
  · intro n o ho
    change o ∈ s.facts.pointsTo (g.rep n)
    rw [hrep]
    exact hrefl.pointsTo n o ho
  · intro a b hab
    change g.Linked a b
    unfold ConstraintGraph.Linked at hab ⊢
    rwa [hrep, hrep, hhas]
  · intro n hn hne
    change g.rep n ≠ n at hne
    rw [hrep] at hne
    exact absurd (hs.graph.rep_of_isLive n hn) hne
  · intro n _
    refine ⟨fun o ho => ho, fun hsh => ?_⟩
    have hsh : g.isShifting n := hsh
    rwa [ConstraintGraph.isShifting, hgrown.shifting] at hsh
  · intro c hc
    have hc := (hhas c).mp hc
    refine .inl ⟨c, hc, ?_, fun _ => rfl⟩
    change c = c.rename g.rep
    simp [Constraint.rename, hrep, hs.rep_src hc, hs.rep_dst hc]
  · refine ⟨?_, fun e c he => .inl ?_⟩
    · change s.graph.edges.size ≤ g.edges.size
      rw [hgrown.edges]
    · have he : g.edge? e = some c := he
      rwa [ConstraintGraph.edge?, hgrown.edges] at he

theorem frame_widen (hs : s.WellFormed) {contexts : ContextGraph C} {mem : MemObjId}
    (hext : s.graph.contexts.Extends contexts) :
    Frame s { s with graph := { s.graph with contexts }, pending := s.pending.insert mem } := by
  have hrefl := Frame.refl hs
  exact ⟨rfl, hext, hrefl.rep_rep, fun _ _ h => h, hrefl.pointsTo, fun _ _ h => h, fun _ h => h,
    hrefl.joined, fun _ _ => ⟨fun _ h => h, id⟩, hrefl.has, ⟨Nat.le_refl _, fun _ _ h => .inl h⟩,
    id, id⟩

theorem frame_fused (hs : s.WellFormed) {r : NodeId} {subs : List NodeId} {members : IdSet}
    (hgroup : Group s r subs members) (hfused : Fused s s' r subs members) : Frame s s' := by
  have hg := hfused.graph
  have hrout : r ∉ subs := (List.nodup_cons.mp hgroup.nodup).1
  have hrl := hs.graph.rep_of_isLive r hgroup.live
  have hred : ∀ n, s'.graph.rep (ConstraintGraph.redirect subs r n) =
      ConstraintGraph.redirect subs r (s.graph.rep n) := by
    intro n
    by_cases hn : n ∈ subs
    · have hrep := hs.graph.rep_of_isLive n (hgroup.live_subs n hn)
      simp [hg.rep_eq, ConstraintGraph.redirect, hn, hrep, hrl, hrout]
    · have hsame : ConstraintGraph.redirect subs r n = n := if_neg hn
      rw [hsame, hg.rep_eq]
  have hself : ∀ n, s.graph.isLive n → s'.graph.rep n = ConstraintGraph.redirect subs r n := by
    intro n hn
    rw [hg.rep_eq, hs.graph.rep_of_isLive n hn]
  have hin : r ∈ s'.worklist.toList := by
    rw [hfused.worklist]
    exact WorkList.mem_push.mpr (.inr rfl)
  refine ⟨hfused.strategy, hg.contexts ▸ .refl _, ?_, ?_, ?_, ?_, ?_, ?_, ?_, ?_, hg.fresh, ?_,
    fun _ => hfused.merged⟩
  · intro n
    rw [hg.rep_eq, hg.rep_eq, (Frame.refl hs).rep_rep]
  · exact fun n _ hn => ((hg.isLive_iff n).mp hn).1
  · intro n o ho
    rw [hself n (hs.live n o ho), hfused.pointsTo]
    by_cases hn : n ∈ subs
    · simp only [ConstraintGraph.redirect, hn, if_true]
      exact ⟨hrout, .inr ⟨trivial, n, hn, ho⟩⟩
    · rw [show ConstraintGraph.redirect subs r n = n from if_neg hn]
      exact ⟨hn, .inl ho⟩
  · rintro a b (hab | hab)
    · exact .inl (by rw [hg.rep_eq, hg.rep_eq, hab])
    · by_cases hsame : s'.graph.rep a = s'.graph.rep b
      · exact .inl hsame
      · refine .inr ((hg.has_iff _).mpr ⟨_, hab, ?_, by simp [Constraint.rename, hg.rep_eq]⟩)
        -- a constraint inside the group would join two nodes with one representative
        simp only [ConstraintGraph.Survives, ConstraintKind.edgeClass]
        rintro - ⟨ha, hb⟩
        refine hsame ?_
        rw [hg.rep_eq, hg.rep_eq]
        have hred' : ∀ n ∈ r :: subs, ConstraintGraph.redirect subs r n = r := by
          intro n hn
          rcases List.mem_cons.mp hn with rfl | hn
          · simp [ConstraintGraph.redirect]
          · simp [ConstraintGraph.redirect, hn]
        rw [hred' _ ((hgroup.members_iff _ (hs.graph.isLive_src hab)).mp ha),
          hred' _ ((hgroup.members_iff _ (hs.graph.isLive_dst hab)).mp hb)]
  · intro n hn
    rw [hfused.worklist]
    exact WorkList.mem_push.mpr (.inl hn)
  · intro n hn hne
    rw [hself n hn] at hne ⊢
    by_cases hsub : n ∈ subs
    · simpa [ConstraintGraph.redirect, hsub] using hin
    · exact absurd (if_neg hsub) hne
  · intro n hout
    have hne : n ≠ r := fun h => hout (h ▸ hin)
    refine ⟨fun o ho => ?_, fun hsh => ?_⟩
    · rcases ((hfused.pointsTo n o).mp ho).2 with ho | ⟨rfl, -⟩
      · exact ho
      · exact absurd rfl hne
    · rcases (hg.isShifting_iff n).mp hsh with hsh | ⟨rfl, -⟩
      · exact hsh
      · exact absurd rfl hne
  · intro c hc
    obtain ⟨c₀, hc₀, hsurvives, rfl⟩ := (hg.has_iff c).mp hc
    refine .inl ⟨c₀, hc₀, ?_, fun hkind => ?_⟩
    · simp [Constraint.rename, hself _ (hs.graph.isLive_src hc₀), hself _ (hs.graph.isLive_dst hc₀)]
    · have hkind : c₀.kind = .addr := hkind
      simp only [ConstraintGraph.Survives, hkind, ConstraintKind.edgeClass] at hsurvives
      simp [Constraint.rename, ConstraintGraph.redirect, hsurvives]
  · exact fun h => hfused.copied.trans h

/-! ## Runs -/

theorem Move.frame (h : Move active s s') (hs : s.WellFormed) : Frame s s' := by
  have hsame : ∀ {t : Solver C}, t.graph = s.graph → t.strategy = s.strategy →
      (∀ n, t.facts.pointsTo n = s.facts.pointsTo n) → t.worklist = s.worklist →
      t.copied = s.copied → t.merged = s.merged → Frame s t := by
    intro t hgraph hstrategy hpts hwork hcopied hmerged
    refine .of_graph_eq hs hgraph hstrategy ?_ ?_ ?_ ?_ ?_
    · exact fun n o ho => (hpts n).symm ▸ ho
    · exact fun n hn => hwork.symm ▸ hn
    · exact fun n _ o ho => hpts n ▸ ho
    · exact fun hc => hcopied.trans hc
    · exact fun hm => hmerged.trans hm
  cases h with
  | step h =>
      cases h with
      | tally stats => exact hsame rfl rfl (fun _ => rfl) rfl rfl rfl
      | gain n objs hdue htidy => exact frame_learned hs n objs
      | link src dst e g hdue hok => exact frame_linked hs hdue hok
      | grow c offset o key g hc hkind ho hkey hwhole hnew hcontexts hgrown =>
          exact frame_grow hs hnew hcontexts hgrown
      | widen o mem contexts hdue hpart hnew hok =>
          obtain ⟨changed, g', hok', -, hext, -⟩ :=
            ContextGraph.setFieldInsensitive_spec hs.contexts (hs.contexts.mem_lt o mem hpart)
          cases hok.symm.trans hok'
          exact frame_widen hs hext
  | collapse h =>
      cases h with
      | tally stats => exact hsame rfl rfl (fun _ => rfl) rfl rfl rfl
      | spill n f hf hwhole hnew =>
          have h := frame_learned hs n {s.graph.contexts.home f}
          exact ⟨h.1, h.2, h.3, h.4, h.5, h.6, h.7, h.8, h.9, h.10, h.11, h.12, fun _ => rfl⟩
      | fuse r subs members hgroup hdue hfused => exact frame_fused hs hgroup hfused
  | clear => exact hsame rfl rfl (fun _ => rfl) rfl rfl rfl
  | record facts h => exact hsame rfl rfl h rfl rfl rfl

theorem Moves.frame (h : Moves active s s') (hs : s.WellFormed) : Frame s s' := by
  induction h with
  | refl => exact .refl hs
  | tail hmoves hmove ih =>
      have hmid := Moves.wellFormed hmoves hs
      exact ih.trans (hmove.frame hmid) hs hmid

/-! ## Visits -/

/-- While nodes are visited, nothing is merged or removed; an object that gives up telling its
fields apart waits to be folded. -/
structure Grows (s s' : Solver C) : Prop where
  rep_eq : ∀ n, s'.graph.rep n = s.graph.rep n
  isLive : ∀ n, s.graph.isLive n → s'.graph.isLive n
  edge : ∀ e c, s.graph.edge? e = some c → s'.graph.edge? e = some c
  pending : ∀ mem ∈ s.pending, mem ∈ s'.pending
  whole : ∀ mem, s'.graph.contexts.IsWhole mem → s.graph.contexts.IsWhole mem ∨ mem ∈ s'.pending
  shifting : s'.graph.shifting = s.graph.shifting

namespace Grows

variable {s s' s'' : Solver C}

theorem refl (s : Solver C) : Grows s s :=
  ⟨fun _ => rfl, fun _ h => h, fun _ _ h => h, fun _ h => h, fun _ h => .inl h, rfl⟩

theorem trans (h : Grows s s') (h' : Grows s' s'') : Grows s s'' where
  rep_eq n := (h'.rep_eq n).trans (h.rep_eq n)
  isLive n hn := h'.isLive n (h.isLive n hn)
  edge e c he := h'.edge e c (h.edge e c he)
  pending mem hm := h'.pending mem (h.pending mem hm)
  whole mem hm := by
    rcases h'.whole mem hm with hm | hm
    · exact (h.whole mem hm).imp_right (h'.pending mem)
    · exact .inr hm
  shifting := h'.shifting.trans h.shifting

theorem has (h : Grows s s') {c : Constraint} (hc : s.graph.Has c) : s'.graph.Has c := by
  obtain ⟨e, he⟩ := hc
  exact ⟨e, h.edge e c he⟩

end Grows

theorem Step.grows (h : Step active s s') (hs : s.WellFormed) : Grows s s' := by
  cases h with
  | tally stats =>
      exact ⟨fun _ => rfl, fun _ h => h, fun _ _ h => h, fun _ h => h, fun _ h => .inl h, rfl⟩
  | gain n objs hdue htidy =>
      refine ⟨?_, ?_, ?_, ?_, ?_, ?_⟩
      all_goals simp
      exact fun mem hm => .inl hm
  | link src dst e g hdue hok =>
      obtain ⟨hsrc, hdst⟩ := hdue.lt hs
      obtain ⟨r, g', hok', hnodes, -, -, hkept, -, -, -⟩ :=
        s.graph.addEdge_spec hs.graph.toIntact hsrc hdst .copy
      cases hok.symm.trans hok'
      refine ⟨?_, ?_, ?_, ?_, ?_, ?_⟩
      · intro n
        rw [graph_linked, hnodes.rep]
      · intro n hn
        rw [graph_linked, hnodes.isLive]
        exact hn
      · intro e c he
        rw [graph_linked]
        exact hkept e c he
      · simp
      · intro mem hm
        rw [graph_linked, hnodes.contexts] at hm
        exact .inl hm
      · rw [graph_linked, hnodes.shifting]
  | grow c offset o key g hc hkind ho hkey hwhole hnew hcontexts hgrown =>
      refine ⟨?_, ?_, ?_, fun _ h => h, ?_, hgrown.shifting⟩
      · intro n
        change g.reps.getD n n = _
        rw [hgrown.reps, ConstraintGraph.rep]
      · exact fun n hn => (hgrown.isLive_iff n).mpr (.inl hn)
      · intro e c he
        change g.edges[e]?.join = some c
        rw [hgrown.edges]
        exact he
      · intro mem hm
        change g.contexts.IsWhole mem at hm
        rw [hcontexts] at hm
        exact .inl hm
  | widen o mem contexts hdue hpart hnew hok =>
      obtain ⟨changed, g', hok', -, -, -, -, hwhole, -, -⟩ :=
        ContextGraph.setFieldInsensitive_spec hs.contexts (hs.contexts.mem_lt o mem hpart)
      cases hok.symm.trans hok'
      refine ⟨fun _ => rfl, fun _ h => h, fun _ _ h => h, ?_, ?_, rfl⟩
      · exact fun m hm => IdSet.mem_insert.mpr (.inr hm)
      · intro m hm
        rcases (hwhole m).mp hm with hm | rfl
        · exact .inl hm
        · exact .inr (IdSet.mem_insert.mpr (.inl rfl))

theorem Steps.grows (h : Steps active s s') (hs : s.WellFormed) : Grows s s' := by
  induction h with
  | refl => exact .refl s
  | tail hsteps hstep ih => exact ih.trans (hstep.grows (Steps.wellFormed hsteps hs))

theorem Steps.frame (h : Steps active s s') (hs : s.WellFormed) : Frame s s' := h.moves.frame hs

/-- Visits leave the records alone, unless they change them openly. -/
theorem Step.records (h : Step active s s') :
    (∀ n, s'.facts.sentBy n = s.facts.sentBy n) ∧
      ∀ e, s'.facts.handledBy e = s.facts.handledBy e := by
  cases h with
  | gain n objs hdue htidy => exact ⟨sentBy_learned s n objs, handledBy_learned s n objs⟩
  | link src dst e g hdue hok => exact ⟨sentBy_linked s g src dst, handledBy_linked s g src dst⟩
  | _ => exact ⟨fun _ => rfl, fun _ => rfl⟩

theorem Steps.sentBy (h : Steps active s s') (n : NodeId) :
    s'.facts.sentBy n = s.facts.sentBy n := by
  induction h with
  | refl => rfl
  | tail _ hstep ih => rw [hstep.records.1, ih]

theorem Steps.handledBy (h : Steps active s s') (e : EdgeId) :
    s'.facts.handledBy e = s.facts.handledBy e := by
  induction h with
  | refl => rfl
  | tail _ hstep ih => rw [hstep.records.2, ih]

/-- During a visit points-to sets grow where they are. -/
theorem Steps.pointsTo (h : Steps active s s') (hs : s.WellFormed) {n o : NodeId}
    (ho : o ∈ s.facts.pointsTo n) : o ∈ s'.facts.pointsTo n := by
  have := (h.frame hs).pointsTo n o ho
  rwa [(h.grows hs).rep_eq, hs.graph.rep_of_isLive n (hs.live n o ho)] at this

end Solver

end PointerAnalysis
