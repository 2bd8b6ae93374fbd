import PointerAnalysis.Proofs.Solver.Frame
import PointerAnalysis.Proofs.Solver.Traced

/-!
Merging and folding. Merging the members of a group one by one amounts to one step that merges them
all. Once the objects that wait for it are folded, every object that does not tell its fields apart
is folded: each of its field nodes is one with its home, and whoever points to the field points to
the home.
-/

namespace PointerAnalysis

namespace Solver

variable {C : Type} [Context C] {active : NodeId → Prop} {s s' t u : Solver C}

/-! ## Groups -/

theorem Fused.snoc {r sub : NodeId} {subs : List NodeId} {members : IdSet}
    (h₁ : Fused s t r subs members) (h₂ : Fused t u r [sub] members) (hne : sub ≠ r)
    (hsub : sub ∉ subs) (hrout : r ∉ subs) (hr : r ∈ members) (hsubs : ∀ n ∈ subs, n ∈ members) :
    Fused s u r (subs ++ [sub]) members where
  graph := h₁.graph.snoc hne hsub hr hsubs h₂.graph
  strategy := h₂.strategy.trans h₁.strategy
  pending := h₂.pending.trans h₁.pending
  copied := h₂.copied.trans h₁.copied
  merged := h₂.merged
  initialized := h₂.initialized.trans h₁.initialized
  worklist := by rw [h₂.worklist, h₁.worklist, WorkList.push_push]
  pointsTo n o := by
    simp only [h₂.pointsTo, h₁.pointsTo, List.mem_singleton, List.mem_append, exists_eq_left]
    grind
  sentBy hst n o ho := by
    obtain ⟨hout', ho, hsent⟩ := h₂.sentBy (h₁.strategy.trans hst) n o ho
    obtain ⟨hout, ho, hsents⟩ := h₁.sentBy hst n o ho
    refine ⟨fun hn => ?_, ho, fun hn m hm => ?_⟩
    · rcases List.mem_append.mp hn with hn | hn
      · exact hout hn
      · exact hout' hn
    · rcases List.mem_append.mp hm with hm | hm
      · exact hsents hn m hm
      · exact (h₁.sentBy hst m o (hsent hn m hm)).2.1
  handledBy e := (h₂.handledBy e).trans (h₁.handledBy e)
  filled h := h₂.filled (h₁.filled h)
  mergedNodes := by rw [h₂.mergedNodes, h₁.mergedNodes, List.length_append, Nat.add_assoc]

theorem yields_mergeNode (hs : s.graph.Intact) {sub r : NodeId} {members : IdSet}
    (hr : s.graph.isLive r) (hsub : s.graph.isLive sub) (hne : sub ≠ r) (hrm : r ∈ members)
    (hsubm : sub ∈ members) :
    Yields (mergeNode sub r members) s fun _ t => Fused s t r [sub] members := by
  obtain ⟨g', hok, hmerged⟩ := ConstraintGraph.merge_spec hs hr hsub hne hrm hsubm
  have hgraph : ∀ t : Solver C, t.graph = s.graph →
      (do return ((), ← t.graph.merge sub r members) : Except Fault (Unit × ConstraintGraph C)) =
        .ok ((), g') := by
    intro t ht
    rw [ht, hok]
    rfl
  rw [mergeNode, if_neg hne, yields_bind, mergeFacts, yields_modify, yields_bind]
  rw [yields_onGraph (hgraph _ rfl), yields_modify]
  refine ⟨hmerged, rfl, rfl, rfl, rfl, rfl, rfl, fun n o => ?_, fun hst n o ho => ?_, fun e => ?_,
    fun h => ?_, rfl⟩
  · by_cases hst : s.strategy = .waveDiff
    · simp [hst, Facts.mem_pointsTo_merge _ hne]
    · simp [hst, Facts.mem_pointsTo_merge _ hne]
  · have hst' : s.strategy = .waveDiff := hst
    simp only [hst', if_true, Facts.mem_sentBy_merge, Facts.mem_sentBy_restrictSent] at ho
    exact ⟨by simpa using ho.1, ho.2.1, fun hn m hm => List.mem_singleton.mp hm ▸ ho.2.2 hn⟩
  · by_cases hst : s.strategy = .waveDiff
    · simp [hst]
    · simp [hst]
  · refine Facts.Filled.merge ?_ r sub
    split
    · exact h
    · exact h

section group

variable {I : Solver C → Prop} {members : IdSet}

theorem Mergeable.of_append {r : NodeId} {subs rest : List NodeId}
    (h : Mergeable s r (subs ++ rest)) (hne : subs ≠ []) : Mergeable s r subs where
  live := h.live
  live_subs n hn := h.live_subs n (List.mem_append_left rest hn)
  nodup := h.nodup.sublist ((List.sublist_append_left subs rest).cons_cons r)
  nonempty := hne

/-- Merging further nodes into the one that has taken in others. -/
theorem exhibits_mergeSubs {r : NodeId} (hrm : r ∈ members)
    (hI : ∀ subs u, Mergeable s r subs → Fused s u r subs members → I u) (rest done : List NodeId)
    (hall : Mergeable s r (done ++ rest)) (hmem : ∀ n ∈ done ++ rest, n ∈ members)
    (ht : Fused s t r done members) :
    Exhibits I (rest.forM fun sub => Traced.mergeNode sub r members) t
      fun _ u => Fused s u r (done ++ rest) members := by
  induction rest generalizing done t with
  | nil =>
      rw [List.append_nil]
      exact (exhibits_pure _).mpr ht
  | cons sub rest ih =>
      obtain ⟨hrout, hnodup⟩ := List.nodup_cons.mp hall.nodup
      have hne : sub ≠ r := fun h => hrout (h ▸ by simp)
      have hrdone : r ∉ done := fun h => hrout (List.mem_append_left _ h)
      have hdone : sub ∉ done := fun h =>
        (List.nodup_append.mp hnodup).2.2 sub h sub List.mem_cons_self rfl
      have hsubm : sub ∈ members := hmem sub (by simp)
      have hlive : ∀ n, s.graph.isLive n → n ∉ done → t.graph.isLive n := fun n hn hout =>
        (ht.graph.isLive_iff n).mpr ⟨hn, hout⟩
      change Exhibits I (Traced.mergeNode sub r members >>= fun _ => rest.forM _) t _
      rw [exhibits_bind, Traced.mergeNode, exhibits_bind, exhibits_quietly]
      refine (yields_mergeNode ht.graph.intact (hlive r hall.live hrdone)
        (hlive sub (hall.live_subs sub (by simp)) hdone) hne hrm hsubm).mono fun _ u hu => ?_
      have hsnoc := ht.snoc hu hne hdone hrdone hrm fun n hn => hmem n (List.mem_append_left _ hn)
      have happ : done ++ sub :: rest = (done ++ [sub]) ++ rest := by simp
      rw [happ] at hall hmem ⊢
      exact (exhibits_observe _).mpr
        ⟨hI _ u (hall.of_append (by simp)) hsnoc, ih (done ++ [sub]) hall hmem hsnoc⟩

/-- A group is merged into its smallest member. -/
theorem exhibits_mergeGroup (hs : s.graph.Intact) (hlive : ∀ n ∈ members, s.graph.isLive n)
    (hsize : 1 < members.size)
    (hI : ∀ r subs u, Mergeable s r subs → Fused s u r subs members → I u) :
    ∃ r subs, members.toList = r :: subs ∧ Group s r subs members ∧
      Exhibits I (Traced.mergeGroup members) s fun _ t => Fused s t r subs members := by
  have hnodup : members.toList.Nodup := members.ascending.imp fun h => Nat.ne_of_lt h
  rw [← IdSet.length_toList] at hsize
  unfold Traced.mergeGroup
  match hlist : members.toList with
  | [] => simp [hlist] at hsize
  | [r] => simp [hlist] at hsize
  | r :: sub :: rest =>
      have hin : ∀ n, n ∈ members ↔ n ∈ r :: sub :: rest := fun n => by rw [IdSet.mem_def, hlist]
      have hr := (hin r).mpr (by simp)
      have hsub := (hin sub).mpr (by simp)
      rw [hlist] at hnodup
      have hall : Mergeable s r ([sub] ++ rest) :=
        ⟨hlive r hr, fun n hn => hlive n ((hin n).mpr (List.mem_cons_of_mem r hn)), hnodup, by simp⟩
      have hne : sub ≠ r := fun h => (List.nodup_cons.mp hnodup).1 (h ▸ by simp)
      refine ⟨r, sub :: rest, rfl, ⟨hall, fun n _ => hin n⟩, ?_⟩
      change Exhibits I (Traced.mergeNode sub r members >>= fun _ => rest.forM _) s _
      rw [exhibits_bind, Traced.mergeNode, exhibits_bind, exhibits_quietly]
      refine (yields_mergeNode hs hall.live (hlive sub hsub) hne hr hsub).mono fun _ t ht => ?_
      refine (exhibits_observe _).mpr ⟨hI r [sub] t (hall.of_append (by simp)) ht, ?_⟩
      exact exhibits_mergeSubs hr (hI r) rest [sub] hall
        (fun n hn => (hin n).mpr (List.mem_cons_of_mem r hn)) ht

end group

/-! ## Cycles -/

/-- A path of direct constraints between members of a group that stays within it. -/
abbrev Inside (s : Solver C) (members : IdSet) : NodeId → NodeId → Prop :=
  Relation.ReflTransGen fun x y =>
    (x ∈ members ∧ y ∈ members) ∧
      ∃ c, s.graph.Has c ∧ c.kind.edgeClass = .direct ∧ c.src = x ∧ c.dst = y

/-- A group of nodes that lie on cycles of direct constraints within the group. -/
structure Cyclic (s : Solver C) (members : IdSet) : Prop where
  live : ∀ n ∈ members, s.graph.isLive n
  joined : ∀ x ∈ members, ∀ y ∈ members, Inside s members x y

theorem Inside.path (hs : s.graph.Indexed) {members : IdSet} {x y : NodeId}
    (h : Inside s members x y) : Components.Path s.graph.directEnds x y :=
  h.lift id fun _ _ hstep => hs.mem_directEnds.mpr hstep.2

/-- A component is cyclic: a path between two of its members cannot leave it. -/
theorem cyclic_of_mem_members (hs : s.graph.Consistent) {cs : Components}
    (hcs : cs.Decomposes s.graph.liveNodes s.graph.directEnds) {members : IdSet}
    (h : members ∈ cs.members) : Cyclic s members where
  live n hn := by
    obtain ⟨r, hr, hpath⟩ := (hcs.exists_component_iff n).mp ⟨members, h, hn⟩
    cases hpath with
    | refl => exact (List.mem_filter.mp hr).2
    | tail _ hstep =>
        obtain ⟨c, hc, -, -, rfl⟩ := hs.toIndexed.mem_directEnds.mp hstep
        exact hs.isLive_dst hc
  joined x hx y hy := by
    have hclass := hcs.mem_iff_mutual members h y hy
    have hxy := (hclass x).mp hx
    have hback := hxy.2
    have hpath := hxy.1
    induction hpath using Relation.ReflTransGen.head_induction_on with
    | refl => exact .refl
    | @head a b hstep hrest ih =>
        have hb : b ∈ members := (hclass b).mpr ⟨hrest, hback.tail hstep⟩
        exact .head ⟨⟨hx, hb⟩, hs.toIndexed.mem_directEnds.mp hstep⟩
          (ih hb ((hclass b).mp hb) (hback.tail hstep))

/-- Merging a group leaves a group that shares no node with it as it is. -/
theorem Cyclic.fused {members members' : IdSet} {r : NodeId} {subs : List NodeId}
    (h : Cyclic s members) (hfused : Fused s t r subs members') (hsubs : ∀ n ∈ subs, n ∈ members')
    (hdisjoint : ∀ n ∈ members, n ∉ members') : Cyclic t members where
  live n hn :=
    (hfused.graph.isLive_iff n).mpr ⟨h.live n hn, fun hsub => hdisjoint n hn (hsubs n hsub)⟩
  joined x hx y hy := by
    refine (h.joined x hx y hy).lift id ?_
    rintro a b ⟨⟨ha, hb⟩, c, ⟨e, he⟩, hkind, rfl, rfl⟩
    exact ⟨⟨ha, hb⟩, c, ⟨e, hfused.graph.kept e c he (fun hsub => hdisjoint _ ha (hsubs _ hsub))
      fun hsub => hdisjoint _ hb (hsubs _ hsub)⟩, hkind, rfl, rfl⟩

/-- Groups that share no node are merged one after the other. -/
theorem exhibits_mergeGroups {P : Solver C → Prop} (groups : List IdSet) (hs : s.graph.Consistent)
    (hP : P s)
    (hfused : ∀ s t r subs members, P s → Mergeable s r subs → Fused s t r subs members → P t)
    (hcyclic : ∀ members ∈ groups, Cyclic s members) (hsize : ∀ members ∈ groups, 1 < members.size)
    (hdisjoint : groups.Pairwise fun c d => ∀ n ∈ d, n ∉ c) :
    Exhibits P (groups.forM Traced.mergeGroup) s fun _ t => P t ∧ Collapses s t ∧
      (groups ≠ [] → t.merged = true) ∧ (groups = [] → t = s) := by
  induction groups generalizing s with
  | nil => exact (exhibits_pure _).mpr ⟨hP, .refl, by simp, fun _ => rfl⟩
  | cons members groups ih =>
      obtain ⟨hfirst, hrest⟩ := List.pairwise_cons.mp hdisjoint
      have hmem := hcyclic members List.mem_cons_self
      obtain ⟨r, subs, hlist, hgroup, hexhibits⟩ := exhibits_mergeGroup hs.toIntact hmem.live
        (hsize members List.mem_cons_self) fun r subs u => hfused s u r subs members hP
      have hin : ∀ n ∈ r :: subs, n ∈ members := fun n hn => by rwa [IdSet.mem_def, hlist]
      have hdue : FuseDue s r subs := by
        refine .cycle fun n hn => ?_
        have hr := hin r List.mem_cons_self
        have hn := hin n (List.mem_cons_of_mem r hn)
        exact ⟨(hmem.joined r hr n hn).path hs.toIndexed, (hmem.joined n hn r hr).path hs.toIndexed⟩
      change Exhibits P (Traced.mergeGroup members >>= fun _ => groups.forM Traced.mergeGroup) s _
      refine hexhibits.bind fun _ t ht => ?_
      have hstep : Collapse s t := .fuse r subs members hgroup hdue ht
      have hsubs : ∀ n ∈ subs, n ∈ members := fun n hn => hin n (List.mem_cons_of_mem r hn)
      refine (ih (ht.graph.consistent hs) (hfused s t r subs members hP hgroup.toMergeable ht) ?_ ?_
        hrest).mono ?_
      · intro other hother
        exact (hcyclic other (List.mem_cons_of_mem _ hother)).fused ht hsubs (hfirst other hother)
      · exact fun other hother => hsize other (List.mem_cons_of_mem _ hother)
      · rintro _ u ⟨hPu, hcollapses, hmerged, hsame⟩
        refine ⟨hPu, .head hstep hcollapses, fun _ => ?_, by simp⟩
        by_cases hnil : groups = []
        · rw [hsame hnil]
          exact ht.merged
        · exact hmerged hnil

/-- The cycles of `s` have been merged, and `order` is the order in which the search for them has
left the nodes. If there was none, nothing but the counters has changed. -/
structure CyclesMerged (s t : Solver C) (order : List NodeId) : Prop where
  collapses : Collapses s t
  exists_components : ∃ cs, Components.Decomposes s.graph.liveNodes s.graph.directEnds cs ∧
    order = cs.order ∧ (t.merged = false → cs.cycles = []) ∧
    (cs.cycles = [] → ∃ stats, t = { s with stats })

theorem exhibits_mergeCycles {P : Solver C → Prop} (hs : s.graph.Consistent)
    (hP : P { s with stats := { s.stats with cycleSearches := s.stats.cycleSearches + 1 } })
    (hfused : ∀ s t r subs members, P s → Mergeable s r subs → Fused s t r subs members → P t) :
    Exhibits P Traced.mergeCycles s fun order t => P t ∧ CyclesMerged s t order := by
  let s₁ : Solver C :=
    { s with stats := { s.stats with cycleSearches := s.stats.cycleSearches + 1 } }
  have htally : Collapse s s₁ := .tally s _
  have hs₁ : s₁.graph.Consistent := hs
  have hpairs := hs.toIndexed.directPairs_eq
  obtain ⟨cs, hfind, hcs⟩ := Components.find_decomposes s.graph.liveNodes s.graph.directEnds
  simp only [Traced.mergeCycles, exhibits_bind, exhibits_quietly, yields_count, yields_get,
    yields_orHalt hpairs, yields_orHalt hfind, exhibits_pure]
  refine (exhibits_mergeGroups _ hs₁ hP hfused ?_ ?_ ?_).mono ?_
  · intro members hmem
    exact cyclic_of_mem_members hs₁ hcs (List.mem_filter.mp hmem).1
  · intro members hmem
    exact of_decide_eq_true (List.mem_filter.mp hmem).2
  · exact (hcs.disjoint.filter _).imp fun h n hd hc => h n hc hd
  · rintro _ t ⟨hPt, hcollapses, hmerged, hsame⟩
    refine ⟨hPt, .head htally hcollapses, cs, hcs, rfl, fun h => ?_, fun h => ⟨_, hsame h⟩⟩
    by_contra hne
    exact Bool.false_ne_true (h.symm.trans (hmerged hne))

theorem yields_mergeCycles (hs : s.graph.Consistent) :
    Yields mergeCycles s fun order t => CyclesMerged s t order := by
  have hexhibits := exhibits_mergeCycles (P := fun _ => True) hs trivial fun _ _ _ _ _ _ _ _ =>
    trivial
  rw [← Traced.run_mergeCycles]
  exact hexhibits.2.mono fun _ _ => And.right

/-! ## Folding -/

/-- A field node is folded: it is one with its home, and whoever points to it points to the home. -/
structure FoldedAt (s : Solver C) (f : NodeId) : Prop where
  rep : s.graph.rep f = s.graph.rep (s.graph.contexts.home f)
  pointers : ∀ n, f ∈ s.facts.pointsTo n → s.graph.contexts.home f ∈ s.facts.pointsTo n

/-- The parts of all objects that do not tell their fields apart are folded, those of the objects
`out` left aside. -/
def Folded (out : MemObjId → Prop) (s : Solver C) : Prop :=
  ∀ f mem, s.graph.contexts.PartOf f mem → s.graph.contexts.IsWhole mem → ¬ out mem → FoldedAt s f

/-- All objects are folded that should be, but for those that wait for it. -/
abbrev Neat (s : Solver C) : Prop := Folded (· ∈ s.pending) s

theorem Folded.home_mem (h : Folded (fun _ => False) s) {n f : NodeId} (hf : f ∈ s.facts.pointsTo n)
    (hwhole : s.graph.contexts.WholeAt f) : s.graph.contexts.home f ∈ s.facts.pointsTo n := by
  obtain ⟨mem, hpart, hwhole⟩ := hwhole
  exact (h f mem hpart hwhole id).pointers n hf

theorem Folded.rep_home (h : Folded (fun _ => False) s) {f : NodeId}
    (hwhole : s.graph.contexts.WholeAt f) :
    s.graph.rep f = s.graph.rep (s.graph.contexts.home f) := by
  obtain ⟨mem, hpart, hwhole⟩ := hwhole
  exact (h f mem hpart hwhole id).rep

theorem foldedAt_of_home_eq {f : NodeId} (h : s.graph.contexts.home f = f) : FoldedAt s f :=
  ⟨by rw [h], fun _ hf => by rwa [h]⟩

theorem Collapse.contexts (h : Collapse s s') : s'.graph.contexts = s.graph.contexts := by
  cases h with
  | tally stats => rfl
  | spill n f hf hwhole hnew => exact congrArg ConstraintGraph.contexts (graph_learned s n _)
  | fuse r subs members hgroup hdue hfused => exact hfused.graph.contexts

theorem Collapse.pending (h : Collapse s s') : s'.pending = s.pending := by
  cases h with
  | tally stats => rfl
  | spill n f hf hwhole hnew => exact pending_learned s n _
  | fuse r subs members hgroup hdue hfused => exact hfused.pending

theorem Collapse.handledBy (h : Collapse s s') (e : EdgeId) :
    s'.facts.handledBy e = s.facts.handledBy e := by
  cases h with
  | tally stats => rfl
  | spill n f hf hwhole hnew => exact handledBy_learned s n _ e
  | fuse r subs members hgroup hdue hfused => exact hfused.handledBy e

theorem Collapse.foldedAt (h : Collapse s s') (hs : s.WellFormed) {f : NodeId}
    (hf : FoldedAt s f) : FoldedAt s' f := by
  cases h with
  | tally stats => exact ⟨hf.rep, hf.pointers⟩
  | spill n p hp hwhole hnew =>
      have hlt := hs.contexts.home_home p
      refine ⟨by simpa using hf.rep, fun m hm => ?_⟩
      change f ∈ (s.learned n _).facts.pointsTo m at hm
      change (s.learned n _).graph.contexts.home f ∈ (s.learned n _).facts.pointsTo m
      rw [graph_learned]
      rcases (mem_pointsTo_learned s n _).mp hm with hold | ⟨rfl, hspilt⟩
      · exact (mem_pointsTo_learned s n _).mpr (.inl (hf.pointers m hold))
      · rw [IdSet.mem_singleton.mp hspilt, hlt]
        exact (mem_pointsTo_learned s _ _).mpr (.inr ⟨rfl, IdSet.mem_singleton.mpr rfl⟩)
  | fuse r subs members hgroup hdue hfused =>
      refine ⟨?_, fun n hn => ?_⟩
      · rw [hfused.graph.contexts, hfused.graph.rep_eq, hfused.graph.rep_eq, hf.rep]
      · rw [hfused.graph.contexts]
        obtain ⟨hout, hn⟩ := (hfused.pointsTo n f).mp hn
        refine (hfused.pointsTo n _).mpr ⟨hout, ?_⟩
        rcases hn with hn | ⟨rfl, m, hm, hn⟩
        · exact .inl (hf.pointers n hn)
        · exact .inr ⟨rfl, m, hm, hf.pointers m hn⟩

theorem Collapses.contexts (h : Collapses s s') : s'.graph.contexts = s.graph.contexts := by
  induction h with
  | refl => rfl
  | tail _ hstep ih => rw [hstep.contexts, ih]

theorem Collapses.pending (h : Collapses s s') : s'.pending = s.pending := by
  induction h with
  | refl => rfl
  | tail _ hstep ih => rw [hstep.pending, ih]

theorem Collapses.foldedAt (h : Collapses s s') (hs : s.WellFormed) {f : NodeId}
    (hf : FoldedAt s f) : FoldedAt s' f := by
  induction h with
  | refl => exact hf
  | tail hsteps hstep ih => exact hstep.foldedAt (Collapses.wellFormed hsteps hs) ih

theorem Collapses.folded (h : Collapses s s') (hs : s.WellFormed) {out : MemObjId → Prop}
    (hf : Folded out s) : Folded out s' := by
  intro f mem hpart hwhole hout
  rw [h.contexts] at hpart hwhole
  exact h.foldedAt hs (hf f mem hpart hwhole hout)

theorem Collapses.neat (h : Collapses s s') (hs : s.WellFormed) (hf : Neat s) : Neat s' := by
  have := h.folded hs hf
  rwa [← h.pending] at this

/-- What a visit does keeps a state neat: an object that gives up telling its fields apart waits
to be folded. -/
theorem Step.neat (h : Step active s s') (hs : s.WellFormed) (hf : Neat s) : Neat s' := by
  have hgrows := h.grows hs
  intro f mem hpart hwhole hout
  have hwhole' := (hgrows.whole mem hwhole).resolve_right hout
  have hout' : mem ∉ s.pending := fun hm => hout (hgrows.pending mem hm)
  cases h with
  | tally stats => exact ⟨(hf f mem hpart hwhole hout).rep, (hf f mem hpart hwhole hout).pointers⟩
  | gain n objs hdue htidy =>
      rw [graph_learned] at hpart hwhole
      obtain ⟨hrep, hpointers⟩ := hf f mem hpart hwhole hout'
      refine ⟨by rwa [graph_learned], fun m hm => ?_⟩
      rw [graph_learned]
      rcases (mem_pointsTo_learned s n objs).mp hm with hold | ⟨rfl, hgain⟩
      · exact (mem_pointsTo_learned s n objs).mpr (.inl (hpointers m hold))
      · rcases htidy f hgain mem hpart hwhole with hp | hin | hold
        · exact absurd hp hout'
        · exact (mem_pointsTo_learned s m objs).mpr (.inr ⟨rfl, hin⟩)
        · exact (mem_pointsTo_learned s m objs).mpr (.inl hold)
  | link src dst e g hdue hok =>
      obtain ⟨hsrc, hdst⟩ := hdue.lt hs
      obtain ⟨r, g', hok', hnodes, -⟩ := s.graph.addEdge_spec hs.graph.toIntact hsrc hdst .copy
      cases hok.symm.trans hok'
      rw [graph_linked, hnodes.contexts] at hpart hwhole
      obtain ⟨hrep, hpointers⟩ := hf f mem hpart hwhole hout'
      refine ⟨?_, fun m hm => ?_⟩
      · rw [graph_linked, hnodes.rep, hnodes.rep, hnodes.contexts, hrep]
      · rw [graph_linked, hnodes.contexts]
        rcases (mem_pointsTo_linked s g src dst).mp hm with hold | ⟨hst, rfl, hflow⟩
        · exact (mem_pointsTo_linked s g src dst).mpr (.inl (hpointers m hold))
        · exact (mem_pointsTo_linked s g src dst).mpr (.inr ⟨hst, rfl, hpointers _ hflow⟩)
  | grow c offset o key g hc hkind ho hkey hnot hnew hcontexts hgrown =>
      have hext : s.graph.contexts.Extends g.contexts := by
        rw [hcontexts]
        exact ContextGraph.extends_makeField _ hnew
      have hwf : g.contexts.WellFormed := by
        rw [hcontexts]
        exact ContextGraph.wellFormed_makeField hs.contexts hkey hnew
      have hrepeq : ∀ n, g.rep n = s.graph.rep n := fun n => by
        rw [ConstraintGraph.rep, hgrown.reps, ConstraintGraph.rep]
      by_cases hlt : f < s.graph.contexts.nodes.size
      · obtain ⟨hrep, hpointers⟩ := hf f mem ((hext.partOf_iff hlt).mp hpart) hwhole' hout'
        have hhome := hext.home_eq hs.contexts hwf hlt
        refine ⟨?_, fun m hm => ?_⟩
        · change g.rep f = g.rep (g.contexts.home f)
          rw [hrepeq, hrepeq, hhome, hrep]
        · change g.contexts.home f ∈ s.facts.pointsTo m
          rw [hhome]
          exact hpointers m hm
      · -- the new node belongs to an object that tells its fields apart
        exfalso
        obtain ⟨node, hnode, hmem⟩ := hpart
        change g.contexts.nodes[f]? = some node at hnode
        rw [hcontexts, ContextGraph.nodes_makeField] at hnode
        refine hnot ⟨mem, ?_, hwhole'⟩
        split at hnode
        · cases hnode
          exact (Option.some.inj hmem) ▸ hkey.partOf
        · exact absurd (Array.getElem?_eq_some_iff.mp hnode).1 hlt
  | widen o m contexts hdue hpart' hnew hok =>
      obtain ⟨changed, g', hok', hwf, hext, hnodes, -, -, -, -⟩ :=
        ContextGraph.setFieldInsensitive_spec hs.contexts (hs.contexts.mem_lt o m hpart')
      cases hok.symm.trans hok'
      have hpart₀ : s.graph.contexts.PartOf f mem := by
        obtain ⟨node, hnode, hmem⟩ := hpart
        exact ⟨node, hnodes ▸ hnode, hmem⟩
      obtain ⟨hrep, hpointers⟩ := hf f mem hpart₀ hwhole' hout'
      have hhome := hext.home_eq hs.contexts hwf hpart₀.lt
      exact ⟨by rw [hhome]; exact hrep, fun n hn => by rw [hhome]; exact hpointers n hn⟩

theorem Steps.neat (h : Steps active s s') (hs : s.WellFormed) (hf : Neat s) : Neat s' := by
  induction h with
  | refl => exact hf
  | tail hsteps hstep ih => exact hstep.neat (Steps.wellFormed hsteps hs) ih

/-- Whoever points to a field learns that it points to the home. -/
theorem yields_spill (hs : s.WellFormed) {f : NodeId} (hwhole : s.graph.contexts.WholeAt f)
    (hfield : s.graph.contexts.IsField f) :
    Yields ((s.facts.pointersTo f).forM fun ptr => do
        if ← learn ptr {s.graph.contexts.home f} then modify fun s => { s with merged := true }) s
      fun _ t => Collapses s t ∧ t.graph = s.graph ∧
        ∀ n, f ∈ t.facts.pointsTo n → s.graph.contexts.home f ∈ t.facts.pointsTo n := by
  obtain ⟨mem, hpart, -⟩ := id hwhole
  have hne : f ≠ s.graph.contexts.home f := fun h =>
    hs.contexts.not_isField_home hpart (h ▸ hfield)
  let R : Solver C → Solver C → Prop := fun t u => Collapses t u ∧ u.graph = t.graph ∧
    (∀ n o, o ∈ t.facts.pointsTo n → o ∈ u.facts.pointsTo n) ∧
    ∀ n, f ∈ u.facts.pointsTo n → f ∈ t.facts.pointsTo n
  refine (Yields.forM (I := fun _ => True) (R := R)
    (fun t => ⟨.refl, rfl, fun _ _ h => h, fun _ h => h⟩)
    (fun h h' => ⟨h.1.trans h'.1, h'.2.1.trans h.2.1, fun n o ho => h'.2.2.1 n o (h.2.2.1 n o ho),
      fun n hn => h.2.2.2 n (h'.2.2.2 n hn)⟩) (fun h _ => h)
    (P := fun ptr t => s.graph.contexts.home f ∈ t.facts.pointsTo ptr) trivial
    (fun n _ _ _ hR ho => hR.2.2.1 n _ ho) _ ?_).mono ?_
  · rintro ptr hptr t - ⟨-, hgraph, hgrow, -⟩
    have hf := hgrow ptr f ((Facts.mem_pointersTo _).mp hptr)
    rw [yields_bind, yields_learn]
    by_cases hold : s.graph.contexts.home f ∈ t.facts.pointsTo ptr
    · have hsub : ({s.graph.contexts.home f} : IdSet) ⊆ t.facts.pointsTo ptr :=
        IdSet.subset_def.mpr fun o ho => IdSet.mem_singleton.mp ho ▸ hold
      simp only [hsub, decide_true, Bool.not_true, Bool.false_eq_true, if_false, yields_pure,
        learned, if_true]
      exact ⟨⟨.refl, rfl, fun _ _ h => h, fun _ h => h⟩, hold⟩
    · have hsub : ¬ ({s.graph.contexts.home f} : IdSet) ⊆ t.facts.pointsTo ptr := fun h =>
        hold (IdSet.subset_def.mp h _ (IdSet.mem_singleton.mpr rfl))
      simp only [hsub, decide_false, Bool.not_false, if_true, yields_modify]
      rw [← hgraph] at hwhole hold hne ⊢
      refine ⟨⟨.single (.spill t ptr f hf hwhole hold), graph_learned t _ _, fun n o ho => ?_, ?_⟩,
        ?_⟩
      · exact (mem_pointsTo_learned t _ _).mpr (.inl ho)
      · intro n hn
        rcases (mem_pointsTo_learned t _ _).mp hn with hn | ⟨-, hn⟩
        · exact hn
        · exact absurd (IdSet.mem_singleton.mp hn) hne
      · exact (mem_pointsTo_learned t _ _).mpr (.inr ⟨rfl, IdSet.mem_singleton.mpr rfl⟩)
  · rintro _ t ⟨⟨hcollapses, hgraph, -, hback⟩, hall⟩
    exact ⟨hcollapses, hgraph, fun n hn => hall n ((Facts.mem_pointersTo _).mpr (hback n hn))⟩

/-- The groups of two nodes that no one node stands for can be merged. -/
theorem yields_mergeReps (hs : s.graph.Consistent) {a b : NodeId} (ha : a < s.graph.slots.size)
    (hb : b < s.graph.slots.size) (hne : s.graph.rep b ≠ s.graph.rep a) {members : IdSet}
    (hmembers : members =
      .ofList (s.graph.group (s.graph.rep a) ++ s.graph.group (s.graph.rep b))) :
    Group s (s.graph.rep a) [s.graph.rep b] members ∧
      Yields (mergeNode (s.graph.rep b) (s.graph.rep a) members) s
        fun _ t => Fused s t (s.graph.rep a) [s.graph.rep b] members := by
  have hla := hs.isLive_rep a ha
  have hlb := hs.isLive_rep b hb
  have hmem : ∀ n, s.graph.isLive n → (n ∈ members ↔ n = s.graph.rep a ∨ n = s.graph.rep b) := by
    intro n hn
    rw [hmembers, IdSet.mem_ofList, List.mem_append, hs.mem_group hla, hs.mem_group hlb,
      hs.rep_of_isLive n hn]
  constructor
  · refine ⟨⟨hla, by simpa using hlb, by simpa using Ne.symm hne, by simp⟩, fun n hn => ?_⟩
    rw [hmem n hn]
    simp
  · exact yields_mergeNode hs.toIntact hla hlb hne ((hmem _ hla).mpr (.inl rfl))
      ((hmem _ hlb).mpr (.inr rfl))

/-- Folding a field node into its home. -/
theorem yields_foldField (hs : s.WellFormed) {f : NodeId} (hwhole : s.graph.contexts.WholeAt f)
    (hfield : s.graph.contexts.IsField f) :
    Yields (foldField (s.graph.contexts.home f) f) s fun _ t => Collapses s t ∧ FoldedAt t f := by
  obtain ⟨mem, hpart, -⟩ := id hwhole
  have hlt : f < s.graph.contexts.nodes.size := hpart.lt
  rw [foldField, yields_bind, yields_get, yields_bind]
  refine (yields_spill hs hwhole hfield).mono ?_
  rintro _ t ⟨hcollapses, hgraph, hpointers⟩
  have ht := hcollapses.wellFormed hs
  rw [← hgraph] at hwhole hlt hpointers ⊢
  simp only [yields_bind, yields_get]
  by_cases hrep : t.graph.rep f = t.graph.rep (t.graph.contexts.home f)
  · simp only [hrep, ne_eq, not_true_eq_false, if_false, yields_pure]
    exact ⟨hcollapses, hrep, hpointers⟩
  · rw [if_pos hrep, yields_bind]
    obtain ⟨hgroup, hmerge⟩ := yields_mergeReps ht.graph
      (ht.graph.size_eq ▸ ht.contexts.home_lt hlt) (ht.graph.size_eq ▸ hlt) hrep rfl
    refine hmerge.mono fun _ u hu => ?_
    rw [yields_count]
    have hfuse : Collapse t u := .fuse _ _ _ hgroup (.fold f hwhole rfl rfl) hu
    refine ⟨(hcollapses.tail hfuse).tail (.tally u _), ?_, fun n hn => ?_⟩
    · change u.graph.rep f = u.graph.rep (u.graph.contexts.home f)
      rw [hu.graph.contexts, hu.graph.rep_eq, hu.graph.rep_eq]
      simp [ConstraintGraph.redirect]
    · change f ∈ u.facts.pointsTo n at hn
      change u.graph.contexts.home f ∈ u.facts.pointsTo n
      rw [hu.graph.contexts]
      obtain ⟨hout, hn⟩ := (hu.pointsTo n f).mp hn
      refine (hu.pointsTo n _).mpr ⟨hout, ?_⟩
      rcases hn with hn | ⟨rfl, m, hm, hn⟩
      · exact .inl (hpointers n hn)
      · exact .inr ⟨rfl, m, hm, hpointers m hn⟩

theorem yields_foldObject (hs : s.WellFormed) {mem : MemObjId}
    (hwhole : s.graph.contexts.IsWhole mem) : Yields (foldObject mem) s fun _ t => Collapses s t ∧
      ∀ f, s.graph.contexts.PartOf f mem → FoldedAt t f := by
  have hmem : mem < s.graph.contexts.memObjs.size := by
    obtain ⟨obj, hobj, -⟩ := hwhole
    exact (Array.getElem?_eq_some_iff.mp hobj).1
  obtain ⟨bases, hok, hbases, hhomes⟩ := hs.contexts.baseCopies_spec hmem
  rw [foldObject, yields_bind, yields_get, yields_bind, yields_orHalt hok]
  refine (Yields.forM (I := WellFormed) (R := Collapses) (fun _ => .refl) (fun h h' => h.trans h')
    (fun ht h => Collapses.wellFormed h ht)
    (P := fun base t => ∀ f ∈ s.graph.contexts.fieldsAt base, FoldedAt t f) hs
    (fun _ _ _ ht h hpost f hf => Collapses.foldedAt h ht (hpost f hf)) bases ?_).mono ?_
  · intro base hbase t ht hst
    rw [yields_bind, yields_get, hst.contexts]
    refine Yields.forM (I := WellFormed) (R := Collapses) (fun _ => .refl) (fun h h' => h.trans h')
      (fun ht h => Collapses.wellFormed h ht) (P := fun f t => FoldedAt t f) ht
      (fun _ _ _ ht h hpost => Collapses.foldedAt h ht hpost) _ fun f hf u hu htu => ?_
    have hcontexts := htu.contexts.trans hst.contexts
    obtain ⟨hfield, hhome, hpart⟩ := hs.contexts.partOf_of_mem_fieldsAt (hbases base hbase).1 hf
    rw [← hcontexts] at hfield hhome hwhole hpart
    exact hhome ▸ yields_foldField hu ⟨mem, hpart, hwhole⟩ hfield
  · rintro _ t ⟨hcollapses, hall⟩
    refine ⟨hcollapses, fun f hpart => ?_⟩
    by_cases hfield : s.graph.contexts.IsField f
    · exact hall _ (hhomes f hpart) f (hs.contexts.mem_fieldsAt_iff.mpr ⟨hfield, rfl⟩)
    · refine foldedAt_of_home_eq ?_
      rw [hcollapses.contexts]
      exact hs.contexts.home_of_not_isField hpart.lt hfield

/-- Once the objects that wait are folded, all are that should be. -/
theorem yields_foldPending (hs : s.WellFormed) (hneat : Neat s) :
    Yields foldPending s fun _ t => Collapses { s with pending := ∅ } t ∧ Neat t := by
  have hs' := (Move.clear s : Move (fun _ => False) s _).wellFormed hs
  rw [foldPending, yields_bind, yields_get, yields_bind, yields_modify]
  refine (Yields.forM (I := WellFormed) (fun _ => .refl) (fun h h' => h.trans h')
    (fun ht h => Collapses.wellFormed h ht)
    (P := fun mem t => ∀ f, s.graph.contexts.PartOf f mem → FoldedAt t f) hs'
    (fun _ _ _ ht h hpost f hf => Collapses.foldedAt h ht (hpost f hf)) _ ?_).mono ?_
  · intro mem hmem t ht hst
    have hwhole := hs.pending_whole mem hmem
    rw [show s.graph.contexts = t.graph.contexts from hst.contexts.symm] at hwhole ⊢
    exact yields_foldObject ht hwhole
  · rintro _ t ⟨hcollapses, hall⟩
    refine ⟨hcollapses, fun f mem hpart hwhole _ => ?_⟩
    rw [hcollapses.contexts] at hpart hwhole
    by_cases hmem : mem ∈ s.pending
    · exact hall mem hmem f hpart
    · obtain ⟨hrep, hpointers⟩ := hneat f mem hpart hwhole hmem
      exact hcollapses.foldedAt hs' ⟨hrep, hpointers⟩

/-! ## Giving up telling fields apart -/

theorem yields_markFieldInsensitive (active : NodeId → Prop) (hs : s.WellFormed) {o : NodeId}
    (hlt : o < s.graph.contexts.nodes.size) (hdue : WidenDue s o) :
    Yields (markFieldInsensitive o) s fun _ t => Steps active s t ∧
      ∀ mem, s.graph.contexts.PartOf o mem → t.graph.contexts.IsWhole mem := by
  have hsame : (∀ mem, ¬ s.graph.contexts.PartOf o mem) → Steps active s s ∧
      ∀ mem, s.graph.contexts.PartOf o mem → s.graph.contexts.IsWhole mem :=
    fun h => ⟨.refl, fun mem hpart => absurd hpart (h mem)⟩
  unfold markFieldInsensitive
  by_cases hspecial : ContextGraph.isSpecial o
  · simp only [hspecial, if_true, yields_pure]
    exact hsame fun mem => hs.contexts.special o mem hspecial
  · have hnode := Array.getElem?_eq_getElem hlt
    simp only [hspecial, Bool.false_eq_true, if_false, yields_bind, yields_get]
    rw [yields_orHalt (entryAt_eq_ok hnode)]
    cases hmem : s.graph.contexts.nodes[o].memObj with
    | none => exact (yields_pure _).mpr (hsame (ContextGraph.not_partOf_of_memObj hnode hmem))
    | some mem =>
        have hpart : s.graph.contexts.PartOf o mem := ⟨_, hnode, hmem⟩
        obtain ⟨changed, g', hok, -, -, -, -, hwhole, hchanged, hold⟩ :=
          ContextGraph.setFieldInsensitive_spec hs.contexts (hs.contexts.mem_lt o mem hpart)
        simp only [yields_bind]
        rw [yields_orHalt hok, yields_set]
        by_cases hw : s.graph.contexts.IsWhole mem
        · have hfalse : changed = false := Bool.eq_false_iff.mpr fun h => hchanged.mp h hw
          obtain rfl := hold hw
          simp only [hfalse, Bool.false_eq_true, if_false]
          exact ⟨.refl, fun m hm => hm.unique hpart ▸ hw⟩
        · obtain rfl := hchanged.mpr hw
          simp only [if_true]
          exact ⟨.single (.widen s o mem g' hdue hpart hw hok),
            fun m hm => (hwhole m).mpr (.inr (hm.unique hpart))⟩

end Solver

end PointerAnalysis
