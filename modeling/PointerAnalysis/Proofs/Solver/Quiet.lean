import PointerAnalysis.Proofs.Solver.Reflects

/-!
Quiet stretches of a run, in which no constraint is added and nothing is merged. In such a stretch a
node gains objects only from the nodes that are active; and an active node gains nothing from itself
but first fields, if it has a projection onto itself at offset zero.
-/

namespace PointerAnalysis

namespace Solver

variable {C : Type} [Context C] {active : NodeId → Prop} {s t u : Solver C}

/-- What a quiet stretch can change. -/
structure Quiet (active : NodeId → Prop) (s t : Solver C) : Prop where
  rep_eq : ∀ n, t.graph.rep n = s.graph.rep n
  has_iff : ∀ c, t.graph.Has c ↔ s.graph.Has c
  shifting : t.graph.shifting = s.graph.shifting
  pointsTo : ∀ n, ∀ o ∈ t.facts.pointsTo n, o ∈ s.facts.pointsTo n ∨ ∃ c, s.graph.Has c ∧
  c.dst = n ∧
    (c.kind = .addr ∧ c.src = o ∨ c.kind.edgeClass = .direct ∧ active c.src)

namespace Quiet

theorem refl (s : Solver C) : Quiet active s s :=
  ⟨fun _ => rfl, fun _ => .rfl, rfl, fun _ _ => .inl⟩

theorem trans (h : Quiet active s t) (h' : Quiet active t u) : Quiet active s u where
  rep_eq n := (h'.rep_eq n).trans (h.rep_eq n)
  has_iff c := (h'.has_iff c).trans (h.has_iff c)
  shifting := h'.shifting.trans h.shifting
  pointsTo n o ho := by
    rcases h'.pointsTo n o ho with ho | ⟨c, hc, hdst, hwhy⟩
    · exact h.pointsTo n o ho
    · exact .inr ⟨c, (h.has_iff c).mp hc, hdst, hwhy⟩

theorem of_graph_eq (hgraph : t.graph = s.graph)
    (hfacts : ∀ n, t.facts.pointsTo n = s.facts.pointsTo n) : Quiet active s t := by
  refine ⟨fun n => by rw [hgraph], fun c => by rw [hgraph], by rw [hgraph], fun n o ho => .inl ?_⟩
  rwa [hfacts] at ho

end Quiet

theorem Due.quiet {n o : NodeId} (h : Due active s n o) : ∃ c, s.graph.Has c ∧ c.dst = n ∧
    (c.kind = .addr ∧ c.src = o ∨ c.kind.edgeClass = .direct ∧ active c.src) := by
  cases h with
  | addr c hc hkind hdst hsrc => exact ⟨c, hc, hdst, .inl ⟨hkind, hsrc⟩⟩
  | copy c hc hkind hdst hactive ho => exact ⟨c, hc, hdst, .inr ⟨by rw [hkind]; rfl, hactive⟩⟩
  | field c offset p hc hkind hdst hactive hp hproj hhome =>
      exact ⟨c, hc, hdst, .inr ⟨by rw [hkind]; rfl, hactive⟩⟩
  | anyField c p hc hkind hdst hactive hp ho =>
      exact ⟨c, hc, hdst, .inr ⟨by rw [hkind]; rfl, hactive⟩⟩

theorem Turn.quiet (h : Turn active s t) (hcopied : t.copied = false) (hmerged : t.merged = false) :
    Quiet active s t := by
  cases h with
  | queue w hlt hnodup => exact .of_graph_eq rfl fun _ => rfl
  | move h =>
      cases h with
      | clear => exact .of_graph_eq rfl fun _ => rfl
      | record facts h => exact .of_graph_eq rfl h
      | collapse h =>
          cases h with
          | tally stats => exact .of_graph_eq rfl fun _ => rfl
          | spill n f hf hwhole hnew => cases hmerged
          | fuse r subs members hgroup hdue hfused => cases hfused.merged.symm.trans hmerged
      | step h =>
          cases h with
          | tally stats => exact .of_graph_eq rfl fun _ => rfl
          | gain n objs hdue htidy =>
              refine ⟨fun m => by rw [graph_learned], fun c => by rw [graph_learned],
                by rw [graph_learned], fun m o ho => ?_⟩
              rcases (mem_pointsTo_learned s n objs).mp ho with hold | ⟨rfl, hnew⟩
              · exact .inl hold
              · exact .inr (hdue o hnew).quiet
          | link src dst e g hdue hok => cases (copied_linked s g src dst).symm.trans hcopied
          | grow c offset o key g hc hkind ho hkey hwhole hnew hcontexts hgrown =>
              refine ⟨fun n => ?_, fun c => ?_, hgrown.shifting, fun _ _ => .inl⟩
              · simp only [ConstraintGraph.rep, hgrown.reps]
              · simp only [ConstraintGraph.Has, ConstraintGraph.edge?, hgrown.edges]
          | widen o mem contexts hdue hpart hnew hok =>
              exact ⟨fun _ => rfl, fun _ => .rfl, rfl, fun _ _ => .inl⟩

theorem Turn.flags (h : Turn active s t) (hs : s.WellFormed) (hcopied : t.copied = false)
    (hmerged : t.merged = false) : s.copied = false ∧ s.merged = false := by
  cases h with
  | queue w hlt hnodup => exact ⟨hcopied, hmerged⟩
  | move h =>
      have hframe := h.frame hs
      refine ⟨?_, ?_⟩
      · exact Bool.eq_false_iff.mpr fun h => Bool.eq_false_iff.mp hcopied (hframe.copied h)
      · exact Bool.eq_false_iff.mpr fun h => Bool.eq_false_iff.mp hmerged (hframe.merged h)

/-- A stretch after which no copy is reported and no merge was quiet throughout. -/
theorem Turns.quiet (h : Turns active s t) (hs : s.WellFormed) (hcopied : t.copied = false)
    (hmerged : t.merged = false) :
    Quiet active s t ∧ s.copied = false ∧ s.merged = false := by
  induction h with
  | refl => exact ⟨.refl s, hcopied, hmerged⟩
  | tail hturns hturn ih =>
      obtain ⟨hcopied', hmerged'⟩ := hturn.flags (Turns.wellFormed hturns hs) hcopied hmerged
      obtain ⟨hquiet, hflags⟩ := ih hcopied' hmerged'
      exact ⟨hquiet.trans (hturn.quiet hcopied hmerged), hflags⟩

/-- What a node points to it goes on to point to. -/
theorem Turns.pointsTo (h : Turns active s t) (hs : s.WellFormed) {n o : NodeId}
    (ho : o ∈ s.pointsTo n) : o ∈ t.pointsTo n := by
  induction h with
  | refl => exact ho
  | tail hturns hturn ih =>
      cases hturn with
      | queue w hlt hnodup => exact ih
      | move h =>
          have hframe := h.frame (Turns.wellFormed hturns hs)
          have := hframe.pointsTo _ _ ih
          rwa [hframe.rep_rep] at this

theorem Quiet.mem_pointsTo {active' : NodeId → Prop} (h : Quiet active' s t)
    (hturns : Turns active s t) (hs : s.WellFormed) {n o : NodeId} (ho : o ∈ s.facts.pointsTo n) :
    o ∈ t.facts.pointsTo n := by
  have hrep := hs.graph.rep_of_isLive n (hs.live n o ho)
  have hin := hturns.pointsTo hs (n := n) (o := o) (by rwa [Solver.pointsTo, hrep])
  rwa [Solver.pointsTo, h.rep_eq, hrep] at hin

/-- What has been passed on stays so. -/
theorem Passes.turns {c : Constraint} {o : NodeId} (h : Passes s c o) (hc : s.graph.Has c)
    (hturns : Turns active s t) (hs : s.WellFormed) (ho : o < s.graph.contexts.nodes.size) :
    Passes t (c.rename t.graph.rep) o := by
  induction hturns with
  | refl => rwa [rename_of_has hs hc]
  | tail hturns hturn ih =>
      cases hturn with
      | queue w hlt hnodup => exact ih
      | move h =>
          have hu := Turns.wellFormed hturns hs
          have hframe := h.frame hu
          have hlt := Nat.lt_of_lt_of_le ho (Turns.keeps hturns hs).2.2.size_le
          have hp := ih.frame hframe hu (h.wellFormed hu) hlt
          simp only [Constraint.rename, hframe.rep_rep] at hp
          exact hp

/-! ## Nodes that send to themselves -/

/-- A node has a projection at offset zero onto itself. -/
def Stutters (g : ConstraintGraph C) (n : NodeId) : Prop :=
  ∃ c offset, g.Has c ∧ c.kind = .field offset ∧ offset.isZero ∧ c.src = n ∧ c.dst = n

/-- The pointees of a node that lies on a shifting cycle do not tell fields apart, and with each of
them comes its home. -/
def Homely (s : Solver C) (n : NodeId) : Prop :=
  s.graph.isShifting n → ∀ o ∈ s.facts.pointsTo n, (∀ mem, s.graph.contexts.PartOf o mem →
    s.graph.contexts.IsWhole mem) ∧ s.graph.contexts.home o ∈ s.facts.pointsTo n

theorem Homely.home_mem {n o p : NodeId} {offset : Offset} (h : Homely s n) (hs : s.WellFormed)
    (hshift : s.graph.isShifting n) (hp : p ∈ s.facts.pointsTo n)
    (hproj : s.graph.contexts.Projects p offset o)
    (hhome : s.graph.contexts.WholeAt o → s.graph.contexts.home o = o) :
    o ∈ s.facts.pointsTo n := by
  obtain ⟨hwhole, hin⟩ := h hshift p hp
  by_cases hpart : ∃ mem, s.graph.contexts.PartOf p mem
  · obtain ⟨mem, hpart⟩ := hpart
    obtain ⟨ho, heq⟩ := hproj.home_of_wholeAt hs.contexts ⟨mem, hpart, hwhole mem hpart⟩
    rwa [← heq, hhome ho] at hin
  · cases hproj with
    | self _ heq => rwa [heq]
    | whole hw _ _ => exact absurd (hw.imp fun _ h => h.1) hpart
    | field key hkey _ => exact absurd ⟨_, hkey.partOf⟩ hpart

/-- `o` is `p`, or comes from it by a projection at offset zero of the node onto itself. -/
def Echo (s : Solver C) (n p o : NodeId) : Prop :=
  o = p ∨ Stutters s.graph n ∧ s.graph.contexts.Projects p 0 o

namespace Echo

variable {n o p q : NodeId}

theorem trans (h : Echo s n p q) (h' : Echo s n q o) (hs : s.WellFormed) : Echo s n p o := by
  rcases h with rfl | ⟨hst, hp⟩
  · exact h'
  · rcases h' with rfl | ⟨-, hp'⟩
    · exact .inr ⟨hst, hp⟩
    · exact .inr ⟨hst, hp.trans_zero hs.contexts hp'⟩

theorem mono (h : Echo s n p o) (hst : Stutters s.graph n → Stutters t.graph n)
    (hext : s.graph.contexts.Extends t.graph.contexts) (hs : s.WellFormed) (ht : t.WellFormed)
    (hp : p < s.graph.contexts.nodes.size) : Echo t n p o :=
  h.imp_right fun ⟨hs', hproj⟩ => ⟨hst hs', hproj.extends hext hs.contexts ht.contexts hp⟩

theorem home_eq (h : Echo s n p o) (hs : s.WellFormed) :
    s.graph.contexts.home o = s.graph.contexts.home p := by
  rcases h with rfl | ⟨-, hproj⟩
  · rfl
  · exact hproj.home_eq hs.contexts

theorem partOf_iff (h : Echo s n p o) (hs : s.WellFormed) {mem : MemObjId} :
    s.graph.contexts.PartOf o mem ↔ s.graph.contexts.PartOf p mem := by
  rcases h with rfl | ⟨-, hproj⟩
  · rfl
  · exact hproj.partOf_iff hs.contexts

end Echo

/-- What a node sends to itself is an echo of what it points to. -/
theorem Due.echo {cg : ContextGraph C} {n o : NodeId} (h : Due (· = n) s n o)
    (hs : s.WellFormed) (hreflects : Reflects cg s) (hhomely : Homely s n)
    (haddr : ∀ c, s.graph.Has c → c.kind = .addr → c.src ∈ s.facts.pointsTo c.dst) :
    ∃ p ∈ s.facts.pointsTo n, Echo s n p o := by
  have hshift : ∀ c, s.graph.Has c → c.kind.edgeClass = .direct → c.src = n → c.dst = n →
      c.kind.isShifting → s.graph.isShifting n := fun c hc hclass hsrc hdst hk =>
    hsrc ▸ (hreflects.loops c hc hclass (hsrc.trans hdst.symm)).2 hk
  cases h with
  | addr c hc hkind hdst hsrc => exact ⟨o, hdst ▸ hsrc ▸ haddr c hc hkind, .inl rfl⟩
  | copy c hc hkind hdst hactive ho => exact ⟨o, hactive ▸ ho, .inl rfl⟩
  | field c offset p hc hkind hdst hactive hp hproj hhome =>
      by_cases hzero : offset.isZero
      · have hst : Stutters s.graph n := ⟨c, offset, hc, hkind, hzero, hactive, hdst⟩
        rw [Offset.isZero_iff.mp hzero] at hproj
        exact ⟨p, hactive ▸ hp, .inr ⟨hst, hproj⟩⟩
      · have hshifting := hshift c hc (by rw [hkind]; rfl) hactive hdst
          (by simp [hkind, ConstraintKind.isShifting, hzero])
        exact ⟨o, hhomely.home_mem hs hshifting (hactive ▸ hp) hproj hhome, .inl rfl⟩
  | anyField c p hc hkind hdst hactive hp ho =>
      have hshifting := hshift c hc (by rw [hkind]; rfl) hactive hdst (by rw [hkind]; rfl)
      rcases ho with ⟨-, rfl⟩ | ⟨-, rfl⟩
      · exact ⟨o, hactive ▸ hp, .inl rfl⟩
      · exact ⟨_, (hhomely hshifting p (hactive ▸ hp)).2, .inl rfl⟩

/-- A node stays homely if all that it gains is echoes. -/
theorem Homely.of_echo {n : NodeId} (h : Homely s n) (hs : s.WellFormed) (ht : t.WellFormed)
    (hext : s.graph.contexts.Extends t.graph.contexts)
    (hshift : t.graph.shifting = s.graph.shifting)
    (hkeep : ∀ p ∈ s.facts.pointsTo n, p ∈ t.facts.pointsTo n)
    (hback : ∀ o ∈ t.facts.pointsTo n, ∃ p ∈ s.facts.pointsTo n, Echo t n p o) : Homely t n := by
  intro hsh o ho
  rw [ConstraintGraph.isShifting, hshift] at hsh
  obtain ⟨p, hp, hecho⟩ := hback o ho
  obtain ⟨hwhole, hhome⟩ := h hsh p hp
  have hlt := (hs.target n p hp).1
  refine ⟨fun mem hmem => hext.isWhole (hwhole mem ?_), ?_⟩
  · exact (hext.partOf_iff hlt).mp ((hecho.partOf_iff ht).mp hmem)
  · rw [hecho.home_eq ht, hext.home_eq hs.contexts ht.contexts hlt]
    exact hkeep _ hhome

/-- While a node is visited quietly, its own set gains nothing but echoes. -/
theorem Moves.pointsTo_self {cg : ContextGraph C} {n : NodeId} (h : Moves (· = n) s t)
    (hs : s.WellFormed) (hreflects : Reflects cg s) (hhomely : Homely s n)
    (haddr : ∀ c, s.graph.Has c → c.kind = .addr → c.src ∈ s.facts.pointsTo c.dst)
    (hcopied : t.copied = false) (hmerged : t.merged = false) :
    ∀ o ∈ t.facts.pointsTo n, ∃ p ∈ s.facts.pointsTo n, Echo t n p o := by
  induction h with
  | refl => exact fun o ho => ⟨o, ho, .inl rfl⟩
  | @tail u v hmoves hmove ih =>
      have hu := Moves.wellFormed hmoves hs
      have hv := hmove.wellFormed hu
      have hframe := Moves.frame hmoves hs
      obtain ⟨hcopied', hmerged'⟩ := (Turn.move hmove).flags hu hcopied hmerged
      obtain ⟨hquiet, -, -⟩ := (Moves.turns hmoves).quiet hs hcopied' hmerged'
      have hquiet' := (Turn.move hmove).quiet hcopied hmerged
      have hback := ih hcopied' hmerged'
      have hst : Stutters u.graph n → Stutters v.graph n := fun ⟨c, offset, hc, hrest⟩ =>
        ⟨c, offset, (hquiet'.has_iff c).mpr hc, hrest⟩
      have hlater : ∀ p ∈ s.facts.pointsTo n, ∀ o, Echo u n p o → Echo v n p o := fun p hp o he =>
        he.mono hst (hmove.frame hu).contexts hu hv
          (Nat.lt_of_lt_of_le (hs.target n p hp).1 hframe.contexts.size_le)
      have hold : ∀ o ∈ u.facts.pointsTo n, ∃ p ∈ s.facts.pointsTo n, Echo v n p o := fun o ho => by
        obtain ⟨p, hp, he⟩ := hback o ho
        exact ⟨p, hp, hlater p hp o he⟩
      intro o ho
      cases hmove with
      | clear => exact hold o ho
      | record facts heq => exact hold o (heq n ▸ ho)
      | collapse hcollapse =>
          cases hcollapse with
          | tally stats => exact hold o ho
          | spill m f hf hwhole hnew => cases hmerged
          | fuse r subs members hgroup hdue hfused => cases hfused.merged.symm.trans hmerged
      | step hstep =>
          cases hstep with
          | tally stats => exact hold o ho
          | link src dst e g hdue hok => cases (copied_linked u g src dst).symm.trans hcopied
          | grow c offset p key g hc hkind hp hkey hwhole hnew hcontexts hgrown => exact hold o ho
          | widen p mem contexts hdue hpart hnew hok => exact hold o ho
          | gain m objs hdue htidy =>
              rcases (mem_pointsTo_learned u m objs).mp ho with hin | ⟨rfl, hin⟩
              · exact hold o hin
              · have hhomely' := hhomely.of_echo hs hu hframe.contexts hquiet.shifting
                  (fun p hp => hquiet.mem_pointsTo (Moves.turns hmoves) hs hp) hback
                obtain ⟨q, hq, hecho⟩ := (hdue o hin).echo hu
                  (hreflects.turns (Moves.turns hmoves) hs) hhomely' (addr_frame hframe hu haddr)
                obtain ⟨p, hp, hecho'⟩ := hback q hq
                exact ⟨p, hp, hlater p hp o (hecho'.trans hecho hu)⟩

end Solver

end PointerAnalysis
