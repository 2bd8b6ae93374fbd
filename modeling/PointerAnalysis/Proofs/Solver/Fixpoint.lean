import PointerAnalysis.Policy.CallString
import PointerAnalysis.Proofs.Solver.Solve

/-!
Fixpoints. When a run is over, the constraints that are left hold of the points-to sets, and
another round changes nothing. With the strategies that sweep this is so but for what a node sends
that has a projection onto itself at offset zero: the sweep sends what the node held before it
learnt from itself.
-/

namespace PointerAnalysis

/-- An edge that projects a node onto itself at offset zero. -/
def ContextEdge.Stutters (e : ContextEdge) : Prop :=
  e.kind = .field ∧ e.offset.isZero ∧ e.src = e.dst

instance (e : ContextEdge) : Decidable e.Stutters := inferInstanceAs (Decidable (_ ∧ _ ∧ _))

theorem ConstraintKind.edgeClass_of_isShifting {kind : ConstraintKind} (h : kind.isShifting) :
    kind.edgeClass = .direct := by
  cases kind with
  | field offset => rfl
  | anyField => rfl
  | addr | copy | load | store => cases h

namespace Solver

variable {C : Type} [Context C] {active : NodeId → Prop} {s t : Solver C} {cg : ContextGraph C}

/-! ## Constraints that hold -/

/-- A constraint holds of the points-to sets, but for what the nodes `late` send. -/
def SatisfiedBut (late : NodeId → Prop) (s : Solver C) (c : Constraint) : Prop :=
  match c.kind with
  | .addr => c.src ∈ s.pointsTo c.dst
  | .copy => late c.src ∨ s.pointsTo c.src ⊆ s.pointsTo c.dst
  | .load => ∀ o ∈ s.pointsTo c.src, s.graph.contexts.Dereferenceable o →
      late (s.graph.rep o) ∨ s.pointsTo o ⊆ s.pointsTo c.dst
  | .store => ∀ o ∈ s.pointsTo c.dst, s.graph.contexts.Dereferenceable o →
      late c.src ∨ s.pointsTo c.src ⊆ s.pointsTo o
  | .field offset => late c.src ∨ ∀ o ∈ s.pointsTo c.src,
      ∃ f ∈ s.pointsTo c.dst, s.graph.contexts.field o offset = .ok (f, s.graph.contexts)
  | .anyField => late c.src ∨ ∀ o ∈ s.pointsTo c.src,
      (ContextGraph.isSpecial o → o ∈ s.pointsTo c.dst) ∧
      (¬ ContextGraph.isSpecial o →
        (∃ b ∈ s.pointsTo c.dst, s.graph.contexts.baseOf o = .ok b) ∧
        ∀ mem, s.graph.contexts.PartOf o mem → s.graph.contexts.IsWhole mem)

/-- All constraints hold. -/
def Closed (s : Solver C) : Prop := ∀ c, s.graph.Has c → SatisfiedBut (fun _ => False) s c

/-- Another round asks for no further one, and changes neither the graphs nor a points-to set. -/
def Stable (s : Solver C) : Prop :=
  ∃ t, round s = .ok false t ∧ t.graph = s.graph ∧ ∀ n, t.pointsTo n = s.pointsTo n

theorem pointsTo_of_isLive (hs : s.WellFormed) {n : NodeId} (hn : s.graph.isLive n) :
    s.pointsTo n = s.facts.pointsTo n := by
  rw [pointsTo, hs.graph.rep_of_isLive n hn]

/-- Between rounds no object waits to be folded. -/
theorem Rested.folded (hs : Rested s) : Folded (fun _ => False) s := fun f mem hpart hwhole _ =>
  hs.neat f mem hpart hwhole (by simp [hs.pending])

/-- What a projection to a field has passed on is found without making a node. -/
theorem Rested.field_of_passes (hs : Rested s) {c : Constraint} {offset : Offset} {o : NodeId}
    (hkind : c.kind = .field offset) (ho : o < s.graph.contexts.nodes.size) (h : Passes s c o) :
    ∃ f ∈ s.facts.pointsTo c.dst, s.graph.contexts.field o offset = .ok (f, s.graph.contexts) := by
  rw [Passes, hkind] at h
  obtain ⟨f, hf, hproj, -⟩ := h
  obtain ⟨f', hok, rfl | ⟨hwhole, rfl⟩⟩ := hproj.field_eq hs.wellFormed.contexts ho
  · exact ⟨f', hf, hok⟩
  · exact ⟨_, hs.folded.home_mem hf hwhole, hok⟩

/-- What a projection to any field has passed on is the base of an object as a whole. -/
theorem Rested.base_of_passes (hs : Rested s) {c : Constraint} {o : NodeId}
    (hkind : c.kind = .anyField) (ho : o < s.graph.contexts.nodes.size) (h : Passes s c o) :
    (ContextGraph.isSpecial o → o ∈ s.facts.pointsTo c.dst) ∧
      (¬ ContextGraph.isSpecial o →
        (∃ b ∈ s.facts.pointsTo c.dst, s.graph.contexts.baseOf o = .ok b) ∧
        ∀ mem, s.graph.contexts.PartOf o mem → s.graph.contexts.IsWhole mem) := by
  have hbase := hs.wellFormed.contexts.baseOf_eq ho
  rw [Passes, hkind] at h
  rcases h with ⟨hnone, hin⟩ | ⟨⟨mem, hpart, hwhole⟩, f, hf, hfwhole, heq⟩
  · refine ⟨fun _ => hin, fun _ => ⟨⟨o, hin, ?_⟩, fun mem hmem => absurd hmem (hnone mem)⟩⟩
    rw [hbase, ContextGraph.WellFormed.home_of_not_partOf hnone]
  · refine ⟨fun hspecial => absurd hpart (hs.wellFormed.contexts.special o mem hspecial),
      fun _ => ⟨?_, ?_⟩⟩
    · exact ⟨_, heq ▸ hs.folded.home_mem hf hfwhole, hbase⟩
    · exact fun mem' hmem => hpart.unique hmem ▸ hwhole

section satisfied

variable {late : NodeId → Prop}

/-- The constraints have passed on all there is, but for the direct ones of the nodes `late`. -/
def PassedBut (late : NodeId → Prop) (s : Solver C) : Prop :=
  ∀ c, s.graph.Has c → (c.kind.edgeClass = .direct → ¬ late c.src) →
    ∀ o ∈ s.facts.pointsTo c.holder, Passes s c o

/-- What one of two linked nodes points to the other one does, too. -/
theorem subset_of_linked (h : PassedBut late s) {a b : NodeId} (hlink : s.graph.Linked a b) :
    late (s.graph.rep a) ∨ s.pointsTo a ⊆ s.pointsTo b := by
  rcases hlink with heq | hc
  · refine .inr ?_
    rw [pointsTo, heq]
    exact fun _ ho => ho
  · by_cases hlate : late (s.graph.rep a)
    · exact .inl hlate
    · exact .inr fun o ho => h _ hc (fun _ => hlate) o ho

theorem satisfiedBut_of_passedBut (h : PassedBut late s) (hs : Rested s) {c : Constraint}
    (hc : s.graph.Has c) : SatisfiedBut late s c := by
  have hwf := hs.wellFormed
  have hsrc := pointsTo_of_isLive hwf (hwf.graph.isLive_src hc)
  have hdst := pointsTo_of_isLive hwf (hwf.graph.isLive_dst hc)
  have hpass : ∀ o ∈ s.facts.pointsTo c.holder, (c.kind.edgeClass = .direct → ¬ late c.src) →
      Passes s c o := fun o ho hlate => h c hc hlate o ho
  unfold Constraint.holder at hpass
  unfold SatisfiedBut
  rw [hsrc, hdst]
  cases hkind : c.kind with
  | addr => exact hs.addr c hc hkind
  | copy =>
      simp only [Passes, hkind, reduceCtorEq, if_false] at hpass
      by_cases hlate : late c.src
      · exact .inl hlate
      · exact .inr fun o ho => hpass o ho fun _ => hlate
  | field offset =>
      simp only [hkind, reduceCtorEq, if_false] at hpass
      by_cases hlate : late c.src
      · exact .inl hlate
      · exact .inr fun o ho =>
          hs.field_of_passes hkind (hwf.target _ _ ho).1 (hpass o ho fun _ => hlate)
  | anyField =>
      simp only [hkind, reduceCtorEq, if_false] at hpass
      by_cases hlate : late c.src
      · exact .inl hlate
      · exact .inr fun o ho =>
          hs.base_of_passes hkind (hwf.target _ _ ho).1 (hpass o ho fun _ => hlate)
  | load =>
      simp only [Passes, hkind, reduceCtorEq, if_false] at hpass
      intro o ho hderef
      have hinert := (ContextGraph.dereferenceable_iff hwf.contexts).mp hderef
      rw [← hdst]
      exact subset_of_linked h (hpass o ho (by simp [ConstraintKind.edgeClass]) hinert)
  | store =>
      simp only [Passes, hkind, if_true] at hpass
      intro o ho hderef
      have hinert := (ContextGraph.dereferenceable_iff hwf.contexts).mp hderef
      have hlink := subset_of_linked h (hpass o ho (by simp [ConstraintKind.edgeClass]) hinert)
      rwa [hwf.rep_src hc, hsrc] at hlink

end satisfied

/-! ## States that nothing changes -/

/-- Whatever could be due has been done. -/
structure Complete (s : Solver C) : Prop where
  wellFormed : s.WellFormed
  addr : ∀ c, s.graph.Has c → c.kind = .addr → c.src ∈ s.facts.pointsTo c.dst
  passes : ∀ c, s.graph.Has c → ∀ o ∈ s.facts.pointsTo c.holder, Passes s c o
  whole : ∀ n, s.graph.isShifting n → ∀ o ∈ s.facts.pointsTo n, ∀ mem,
    s.graph.contexts.PartOf o mem → s.graph.contexts.IsWhole mem
  folded : Folded (fun _ => False) s
  acyclic : Acyclic s.graph

namespace Complete

theorem mem_of_due (h : Complete s) {n o : NodeId} (hdue : Due active s n o) :
    o ∈ s.facts.pointsTo n := by
  have hpass := h.passes
  unfold Passes Constraint.holder at hpass
  cases hdue with
  | addr c hc hkind hdst hsrc => exact hdst ▸ hsrc ▸ h.addr c hc hkind
  | copy c hc hkind hdst hactive ho =>
      have hin := hpass c hc o (by simpa [hkind] using ho)
      simp only [hkind] at hin
      exact hdst ▸ hin
  | field c offset p hc hkind hdst hactive hp hproj hhome =>
      have hin := hpass c hc p (by simpa [hkind] using hp)
      simp only [hkind] at hin
      obtain ⟨f, hf, hproj', -⟩ := hin
      rw [hdst] at hf
      -- the lookup finds both `o` and what has been passed on
      have hlt := (h.wellFormed.target _ _ hp).1
      obtain ⟨o', hok, ho⟩ := hproj.field_eq h.wellFormed.contexts hlt
      obtain ⟨f', hok', hf'⟩ := hproj'.field_eq h.wellFormed.contexts hlt
      cases hok.symm.trans hok'
      have ho : o' = o := ho.elim id fun ho => ho.2.trans (hhome ho.1)
      rcases hf' with hf' | ⟨hwhole, hf'⟩
      · rwa [← ho, hf']
      · rw [← ho, hf']
        exact h.folded.home_mem hf hwhole
  | anyField c p hc hkind hdst hactive hp ho =>
      have hin := hpass c hc p (by simpa [hkind] using hp)
      simp only [hkind, hdst] at hin
      rcases ho with ⟨hnone, rfl⟩ | ⟨⟨mem, hpart, -⟩, rfl⟩
      · rcases hin with ⟨-, hin⟩ | ⟨⟨mem, hpart, -⟩, -⟩
        · exact hin
        · exact absurd hpart (hnone mem)
      · rcases hin with ⟨hnone, -⟩ | ⟨-, f, hf, hwhole, heq⟩
        · exact absurd hpart (hnone mem)
        · exact heq ▸ h.folded.home_mem hf hwhole

theorem linked_of_due (h : Complete s) {src dst : NodeId} (hdue : LinkDue s src dst) :
    s.graph.Linked src dst := by
  have hpass := h.passes
  unfold Passes Constraint.holder at hpass
  cases hdue with
  | load c o hc hkind ho hinert =>
      have hlink := hpass c hc src (by simpa [hkind] using ho)
      simp only [hkind] at hlink
      exact hlink hinert
  | store c o hc hkind ho hinert =>
      have hlink := hpass c hc dst (by simpa [hkind] using ho)
      simp only [hkind] at hlink
      exact hlink hinert
  | first c offset o f key hc hkind hzero ho hhome hkey hf =>
      have hlink := hpass c hc src (by simpa [hkind] using ho)
      simp only [hkind] at hlink
      obtain ⟨f', -, hproj, hlink⟩ := hlink
      have hlink := hlink hzero hhome
      cases hproj with
      | self hnone _ => exact absurd hkey.partOf (hnone _)
      | field key' hkey' hf' =>
          cases hkey.unique hkey'
          cases hf.symm.trans hf'
          exact hlink
      | whole hwhole _ _ =>
          obtain ⟨mem, hpart, hwhole⟩ := hwhole
          obtain ⟨hfpart, -, hfhome⟩ := h.wellFormed.contexts.home_of_keyOf hkey hf
          have hrep := h.folded.rep_home ⟨mem, hkey.partOf.unique hpart ▸ hfpart, hwhole⟩
          rw [hfhome, hhome] at hrep
          exact .inl hrep.symm

theorem isWhole_of_due (h : Complete s) {o : NodeId} {mem : MemObjId} (hdue : WidenDue s o)
    (hpart : s.graph.contexts.PartOf o mem) : s.graph.contexts.IsWhole mem := by
  cases hdue with
  | shifting n hn ho => exact h.whole n hn o ho mem hpart
  | anyField c hc hkind ho =>
      have hpass := h.passes c hc o (by simpa [Constraint.holder, hkind] using ho)
      rw [Passes, hkind] at hpass
      rcases hpass with ⟨hnone, -⟩ | ⟨⟨mem', hpart', hwhole⟩, -⟩
      · exact absurd hpart (hnone mem)
      · exact hpart'.unique hpart ▸ hwhole

theorem not_fuseDue (h : Complete s) {r : NodeId} {subs : List NodeId} {members : IdSet}
    (hgroup : Group s r subs members) : ¬ FuseDue s r subs := by
  have hout : r ∉ subs := (List.nodup_cons.mp hgroup.nodup).1
  rintro (hcycle | ⟨f, hwhole, hr, hsubs⟩)
  · obtain ⟨n, hn⟩ := List.exists_mem_of_ne_nil subs hgroup.nonempty
    exact hout (h.acyclic r n (hcycle n hn) ▸ hn)
  · refine hout ?_
    rw [hsubs, hr, h.folded.rep_home hwhole]
    exact List.mem_singleton.mpr rfl

end Complete

/-- The graphs, the points-to sets and what is reported are the same. -/
structure Same (s t : Solver C) : Prop where
  graph : t.graph = s.graph
  pointsTo : ∀ n, t.facts.pointsTo n = s.facts.pointsTo n
  copied : t.copied = s.copied
  merged : t.merged = s.merged

theorem Complete.turn (h : Complete s) (hturn : Turn active s t) : Same s t := by
  cases hturn with
  | queue w hlt hnodup => exact ⟨rfl, fun _ => rfl, rfl, rfl⟩
  | move hmove =>
      cases hmove with
      | clear => exact ⟨rfl, fun _ => rfl, rfl, rfl⟩
      | record facts hsame => exact ⟨rfl, hsame, rfl, rfl⟩
      | collapse hcollapse =>
          cases hcollapse with
          | tally stats => exact ⟨rfl, fun _ => rfl, rfl, rfl⟩
          | spill n f hf hwhole hnew => exact absurd (h.folded.home_mem hf hwhole) hnew
          | fuse r subs members hgroup hdue hfused => exact absurd hdue (h.not_fuseDue hgroup)
      | step hstep =>
          cases hstep with
          | tally stats => exact ⟨rfl, fun _ => rfl, rfl, rfl⟩
          | gain n objs hdue htidy =>
              have hsub : objs ⊆ s.facts.pointsTo n := fun o ho => h.mem_of_due (hdue o ho)
              rw [learned, if_pos hsub]
              exact ⟨rfl, fun _ => rfl, rfl, rfl⟩
          | link src dst e g hdue hok =>
              obtain ⟨hsrc, hdst⟩ := hdue.lt h.wellFormed
              obtain ⟨r, g', hok', -, -, -, -, -, -, hnew⟩ :=
                s.graph.addEdge_spec h.wellFormed.graph.toIntact hsrc hdst .copy
              cases hok.symm.trans hok'
              obtain ⟨hnone, hloop⟩ := hnew e rfl
              exact (h.linked_of_due hdue).elim (fun heq => absurd ⟨rfl, heq⟩ hloop)
                fun hc => absurd hc hnone
          | grow c offset o key g hc hkind ho hkey hwhole hnew hcontexts hgrown =>
              have hpass := h.passes c hc o (by simpa [Constraint.holder, hkind] using ho)
              rw [Passes, hkind] at hpass
              obtain ⟨f, -, hproj, -⟩ := hpass
              cases hproj with
              | self hnone _ => exact absurd hkey.partOf (hnone _)
              | whole hw _ _ => exact absurd hw hwhole
              | field key' hkey' hf =>
                  cases hkey.unique hkey'
                  cases hnew.symm.trans hf
          | widen o mem contexts hdue hpart hnew hok =>
              exact absurd (h.isWhole_of_due hdue hpart) hnew

theorem Complete.congr (h : Complete s) (ht : t.WellFormed) (hgraph : t.graph = s.graph)
    (hpts : ∀ n, t.facts.pointsTo n = s.facts.pointsTo n) : Complete t := by
  obtain ⟨-, haddr, hpass, hwhole, hfolded, hacyclic⟩ := h
  unfold Passes at hpass
  refine ⟨ht, ?_, ?_, ?_, fun f mem hpart hw hout => ?_, hgraph ▸ hacyclic⟩
  · simpa only [hgraph, hpts] using haddr
  · unfold Passes
    simpa only [hgraph, hpts] using hpass
  · simpa only [hgraph, hpts] using hwhole
  · rw [hgraph] at hpart hw
    obtain ⟨hrep, hpointers⟩ := hfolded f mem hpart hw hout
    exact ⟨by rwa [hgraph], by simpa only [hgraph, hpts] using hpointers⟩

/-- From a complete state on nothing changes. -/
theorem Complete.turns (h : Complete s) (hturns : Turns active s t) : Same s t := by
  induction hturns with
  | refl => exact ⟨rfl, fun _ => rfl, rfl, rfl⟩
  | tail hturns hturn ih =>
      obtain ⟨hgraph, hpts, hcopied, hmerged⟩ := ih
      have hu := h.congr (Turns.wellFormed hturns h.wellFormed) hgraph hpts
      obtain ⟨hgraph', hpts', hcopied', hmerged'⟩ := hu.turn hturn
      exact ⟨hgraph'.trans hgraph, fun n => (hpts' n).trans (hpts n), hcopied'.trans hcopied,
        hmerged'.trans hmerged⟩

theorem Complete.stable (h : Complete s) (hs : Rested s) (hinit : s.initialized = true)
    (hreflects : Reflects cg s) : Stable s := by
  obtain ⟨again, t, hok, hends⟩ := hs.round hinit hreflects
  have h₀ : Complete { s with copied := false, merged := false } :=
    h.congr ((Act.reset s).wellFormed h.wellFormed) rfl fun _ => rfl
  obtain ⟨hgraph, hpts, hcopied, hmerged⟩ := h₀.turns hends.turns
  have hagain : again = false := by rw [hends.again_eq, hcopied, hmerged]; rfl
  subst hagain
  refine ⟨t, hok, hgraph, fun n => ?_⟩
  rw [pointsTo, pointsTo, hgraph]
  exact hpts _

/-! ## Edges of the context graph -/

theorem Complete.passedBut (h : Complete s) (late : NodeId → Prop) : PassedBut late s :=
  fun c hc _ => h.passes c hc

theorem Complete.subset_of_linked (h : Complete s) {a b : NodeId} (hlink : s.graph.Linked a b) :
    s.pointsTo a ⊆ s.pointsTo b :=
  (Solver.subset_of_linked (h.passedBut fun _ => False) hlink).resolve_left id

section edges

variable (hcg : Reflects cg s) {e : ContextEdge} (he : e ∈ cg.edges)

include hcg he

/-- An edge is a constraint between the nodes that stand for its ends, or these are one node. -/
theorem Reflects.has_or_eq (hkind : ConstraintKind.ofEdge e.kind e.offset ≠ .addr) :
    s.graph.Has ⟨s.graph.rep e.src, s.graph.rep e.dst, .ofEdge e.kind e.offset⟩ ∨
      (ConstraintKind.ofEdge e.kind e.offset).edgeClass = .direct ∧
      s.graph.rep e.src = s.graph.rep e.dst ∧
      ((ConstraintKind.ofEdge e.kind e.offset).isShifting →
        s.graph.isShifting (s.graph.rep e.src)) :=
  hcg.edges e he hkind

/-- If the ends of an edge that shifts are one node, it lies on a shifting cycle. -/
theorem Reflects.isShifting_of_eq (hshift : (ConstraintKind.ofEdge e.kind e.offset).isShifting)
    (heq : s.graph.rep e.src = s.graph.rep e.dst) : s.graph.isShifting (s.graph.rep e.src) := by
  have hkind : ConstraintKind.ofEdge e.kind e.offset ≠ .addr := fun hk => by
    rw [hk] at hshift
    cases hshift
  rcases hcg.has_or_eq he hkind with hc | ⟨-, -, hmark⟩
  · refine (hcg.loops _ hc ?_ heq).2 hshift
    exact ConstraintKind.edgeClass_of_isShifting hshift
  · exact hmark hshift

/-- There the objects are whole, so that they are their own fields. -/
theorem Reflects.home_mem_of_shifting (hfolded : Folded (fun _ => False) s)
    (hwhole : ∀ n, s.graph.isShifting n → ∀ o ∈ s.facts.pointsTo n, ∀ mem,
      s.graph.contexts.PartOf o mem → s.graph.contexts.IsWhole mem)
    (hshift : (ConstraintKind.ofEdge e.kind e.offset).isShifting)
    (heq : s.graph.rep e.src = s.graph.rep e.dst) {o : NodeId} (ho : o ∈ s.pointsTo e.src) :
    (∀ mem, ¬ s.graph.contexts.PartOf o mem) ∧ o ∈ s.pointsTo e.dst ∨
      s.graph.contexts.WholeAt o ∧ s.graph.contexts.home o ∈ s.pointsTo e.dst := by
  rw [pointsTo] at ho ⊢
  rw [← heq]
  by_cases hpart : ∃ mem, s.graph.contexts.PartOf o mem
  · obtain ⟨mem, hpart⟩ := hpart
    have hw : s.graph.contexts.WholeAt o :=
      ⟨mem, hpart, hwhole _ (hcg.isShifting_of_eq he hshift heq) o ho mem hpart⟩
    exact .inr ⟨hw, hfolded.home_mem ho hw⟩
  · exact .inl ⟨fun mem hmem => hpart ⟨mem, hmem⟩, ho⟩

theorem Reflects.linked_of_copy (hkind : ConstraintKind.ofEdge e.kind e.offset = .copy) :
    s.graph.Linked e.src e.dst := by
  rcases hcg.has_or_eq he (by rw [hkind]; exact nofun) with hc | ⟨-, heq, -⟩
  · rw [hkind] at hc
    exact .inr hc
  · exact .inl heq

theorem Reflects.linked_of_load (hs : s.WellFormed) {late : NodeId → Prop} (h : PassedBut late s)
    (hkind : ConstraintKind.ofEdge e.kind e.offset = .load) {o : NodeId} (ho : o ∈ s.pointsTo e.src)
    (hinert : ¬ s.graph.contexts.Inert o) : s.graph.Linked o e.dst := by
  have hc := hcg.has_or_eq he (by rw [hkind]; exact nofun)
  rw [hkind] at hc
  have hpass := h _ (hc.resolve_right fun hdropped => nomatch hdropped.1) nofun o ho
  exact (linked_congr rfl (rep_rep hs _)).mp (hpass hinert)

theorem Reflects.linked_of_store (hs : s.WellFormed) {late : NodeId → Prop} (h : PassedBut late s)
    (hkind : ConstraintKind.ofEdge e.kind e.offset = .store) {o : NodeId}
    (ho : o ∈ s.pointsTo e.dst) (hinert : ¬ s.graph.contexts.Inert o) : s.graph.Linked e.src o := by
  have hc := hcg.has_or_eq he (by rw [hkind]; exact nofun)
  rw [hkind] at hc
  have hpass := h _ (hc.resolve_right fun hdropped => nomatch hdropped.1) nofun o ho
  exact (linked_congr (rep_rep hs _) rfl).mp (hpass hinert)

end edges

/-! ## The end of a run -/

section solved

variable {g : ConstraintGraph C} {strategy : Strategy}

theorem Solved.done (h : Solved cg g strategy t) {n : NodeId} (hn : t.graph.isLive n) : Done t n :=
  h.attended n hn (by simp [h.idle]) id

theorem Solved.whole (h : Solved cg g strategy t) : ∀ n, t.graph.isShifting n →
    ∀ o ∈ t.facts.pointsTo n, ∀ mem, t.graph.contexts.PartOf o mem → t.graph.contexts.IsWhole mem :=
  fun n hn o ho => (h.done (h.wellFormed.live n o ho)).whole hn o ho

/-- When a run is over, a direct constraint has passed on all there is but for echoes. -/
theorem Solved.exists_sent (h : Solved cg g strategy t) {c : Constraint} (hc : t.graph.Has c)
    (hclass : c.kind.edgeClass = .direct) {o : NodeId} (ho : o ∈ t.facts.pointsTo c.src) :
    ∃ p ∈ t.facts.pointsTo c.src, Echo t c.src p o ∧ (strategy = .baseline → o = p) ∧
      Passes t c p := by
  by_cases hst : strategy = .baseline
  · have hholder : c.holder = c.src := if_neg fun hkind => by
      rw [hkind] at hclass
      cases hclass
    have hdone := h.done (isLive_holder h.wellFormed hc)
    refine ⟨o, ho, .inl rfl, fun _ => rfl, hdone.passes c hc rfl (fun _ => ?_) o (hholder ▸ ho)⟩
    exact h.strategy_eq.trans hst
  · obtain ⟨p, hp, hecho, hpass⟩ := h.sends hst c.src o ho
    exact ⟨p, hp, hecho, fun hst' => absurd hst' hst, hpass c hc hclass rfl⟩

/-- When a run is over, everything has been passed on but what was sent late. -/
theorem Solved.passedBut (h : Solved cg g strategy t) {late : NodeId → Prop}
    (hlate : strategy ≠ .baseline → ∀ n, Stutters t.graph n → late n) : PassedBut late t := by
  intro c hc hclass o ho
  by_cases hdirect : c.kind.edgeClass = .direct
  · have hholder : c.holder = c.src := if_neg fun hkind => by
      rw [hkind] at hdirect
      cases hdirect
    obtain ⟨p, -, rfl | ⟨hstutters, -⟩, hbase, hpass⟩ := h.exists_sent hc hdirect (hholder ▸ ho)
    · exact hpass
    · by_cases hst : strategy = .baseline
      · exact hbase hst ▸ hpass
      · exact absurd (hlate hst _ hstutters) (hclass hdirect)
  · exact (h.done (isLive_holder h.wellFormed hc)).passes c hc rfl (absurd · hdirect) o ho

theorem Solved.complete (h : Solved cg g strategy t)
    (hnone : strategy ≠ .baseline → ∀ n, ¬ Stutters t.graph n) : Complete t where
  wellFormed := h.wellFormed
  addr := h.addr
  passes c hc o ho := h.passedBut hnone c hc (fun _ => id) o ho
  whole := h.whole
  folded := h.folded
  acyclic := h.acyclic

/-- A projection at offset zero from a node onto itself has been there from the start. -/
theorem Solved.exists_stutters (h : Solved cg g strategy t) {n : NodeId} (hn : Stutters t.graph n) :
    ∃ e ∈ cg.edges, e.Stutters ∧ t.graph.rep e.src = n := by
  obtain ⟨c, offset, hc, hkind, hzero, rfl, hdst⟩ := hn
  obtain ⟨⟨e, he, hself, hekind, hrep⟩, -⟩ :=
    h.reflects.loops c hc (by rw [hkind]; rfl) hdst.symm
  obtain ⟨hfield, rfl⟩ := ofEdge_eq_field (hekind.trans hkind)
  exact ⟨e, he, ⟨hfield, hzero, hself⟩, hrep⟩

end solved

/-- The state in which a run on the constraints of a context graph ends. -/
def Outcome (cg : ContextGraph C) (strategy : Strategy) (s : Solver C) : Prop :=
  ∃ g, ConstraintGraph.ofContextGraph cg = .ok g ∧ solve (new g strategy) = .ok () s

theorem Outcome.unique {strategy : Strategy} (h : Outcome cg strategy s)
    (h' : Outcome cg strategy t) : s = t := by
  obtain ⟨g, hg, hs⟩ := h
  obtain ⟨g', hg', ht⟩ := h'
  cases hg.symm.trans hg'
  cases hs.symm.trans ht
  rfl

theorem exists_outcome (hcg : cg.WellBuilt) (strategy : Strategy) :
    ∃ g s, Outcome cg strategy s ∧ Solved cg g strategy s := by
  obtain ⟨g, hok, hg⟩ := ConstraintGraph.ofContextGraph_spans hcg.edges_lt
  obtain ⟨_, s, hsolve, hs⟩ := yields_solve hcg hg strategy
  exact ⟨g, s, ⟨g, hok, hsolve⟩, hs⟩

/-! ## Programs -/

/-- One context for all. -/
def insensitive : ContextPolicy CallString := CallStringPolicy.policy ⟨.empty, 1⟩

/-- `q = &a; r = &q[0]; p = &b; *p = q; x = *p; x = &x[0]; y = x`, with the nodes 4 and 9 for the
objects and 5, 6, 10, 7 and 8 for the pointers. -/
def selfProjecting : AssignmentGraph :=
  let g := (AssignmentGraph.empty.addObject .constant 2).2
  let g := (g.addValue .constant).2
  let g := (g.addValue .constant).2
  let g := (g.addValue .constant).2
  let g := (g.addValue .constant).2
  let g := (g.addObject .constant 1).2
  let g := (g.addValue .constant).2
  let g := (g.addEdge .addr 4 5).2
  let g := (g.addFieldEdge 5 6 0).2
  let g := (g.addEdge .addr 9 10).2
  let g := (g.addEdge .store 5 10).2
  let g := (g.addEdge .load 10 7).2
  let g := (g.addFieldEdge 7 7 0).2
  (g.addEdge .copy 7 8).2

theorem built_selfProjecting : selfProjecting.Built :=
  have h := (AssignmentGraph.Built.empty.addObject .constant 2).addValue .constant
  have h := ((h.addValue .constant).addValue .constant).addValue .constant
  have h := (h.addObject .constant 1).addValue .constant
  have h := (h.pushEdge .addr 4 5 0 none).pushEdge .field 5 6 0 none
  have h := (h.pushEdge .addr 9 10 0 none).pushEdge .store 5 10 0 none
  have h := (h.pushEdge .load 10 7 0 none).pushEdge .field 7 7 0 none
  h.pushEdge .copy 7 8 0 none

/-- `q = &a; r = &q[1]; q = r; s = &r[*]; *q = s; t = *r`, with the node 4 for the object and 5, 6,
7 and 8 for the pointers. -/
def shifting : AssignmentGraph :=
  let g := (AssignmentGraph.empty.addObject .constant 3).2
  let g := (g.addValue .constant).2
  let g := (g.addValue .constant).2
  let g := (g.addValue .constant).2
  let g := (g.addValue .constant).2
  let g := (g.addEdge .addr 4 5).2
  let g := (g.addFieldEdge 5 6 ⟨1⟩).2
  let g := (g.addEdge .copy 6 5).2
  let g := (g.addEdge .anyField 6 7).2
  let g := (g.addEdge .store 7 5).2
  (g.addEdge .load 6 8).2

theorem built_shifting : shifting.Built :=
  have h := (AssignmentGraph.Built.empty.addObject .constant 3).addValue .constant
  have h := ((h.addValue .constant).addValue .constant).addValue .constant
  have h := (h.pushEdge .addr 4 5 0 none).pushEdge .field 5 6 ⟨1⟩ none
  have h := (h.pushEdge .copy 6 5 0 none).pushEdge .anyField 6 7 0 none
  (h.pushEdge .store 7 5 0 none).pushEdge .load 6 8 0 none

/-- The state in which a new solver for a program is after it has carried something out, if it can.
-/
def after? (policy : ContextPolicy C) (p : AssignmentGraph) (fieldSensitive : Bool)
    (strategy : Strategy) (act : SolverM C Unit) : Option (ContextGraph C × Solver C) :=
  match ContextGraph.build policy p fieldSensitive with
  | .error _ => none
  | .ok cg =>
    match ConstraintGraph.ofContextGraph cg with
    | .error _ => none
    | .ok g =>
      match act (new g strategy) with
      | .error _ _ => none
      | .ok _ s => some (cg, s)

theorem exists_after_of_any {policy : ContextPolicy C} {p : AssignmentGraph} {fieldSensitive : Bool}
    {strategy : Strategy} {act : SolverM C Unit} {P : ContextGraph C × Solver C → Bool}
    (h : (after? policy p fieldSensitive strategy act).any P = true) :
    ∃ cg g s, ContextGraph.build policy p fieldSensitive = .ok cg ∧
      ConstraintGraph.ofContextGraph cg = .ok g ∧ act (new g strategy) = .ok () s ∧
      P (cg, s) = true := by
  unfold after? at h
  split at h
  · cases h
  · rename_i cg hbuild
    split at h
    · cases h
    · rename_i g hg
      split at h
      · cases h
      · rename_i s hs
        exact ⟨cg, g, s, hbuild, hg, hs, h⟩

/-- The state in which a run on a program ends, if it does. -/
def outcome? (policy : ContextPolicy C) (p : AssignmentGraph) (fieldSensitive : Bool)
    (strategy : Strategy) : Option (ContextGraph C × Solver C) :=
  after? policy p fieldSensitive strategy solve

theorem exists_outcome_of_any {policy : ContextPolicy C} {p : AssignmentGraph}
    {fieldSensitive : Bool} {strategy : Strategy} {P : ContextGraph C × Solver C → Bool}
    (h : (outcome? policy p fieldSensitive strategy).any P = true) :
    ∃ cg s, ContextGraph.build policy p fieldSensitive = .ok cg ∧ Outcome cg strategy s ∧
      P (cg, s) = true := by
  obtain ⟨cg, g, s, hbuild, hg, hs, hP⟩ := exists_after_of_any h
  exact ⟨cg, s, hbuild, ⟨g, hg, hs⟩, hP⟩

/-! ## All programs -/

section results

variable {p : AssignmentGraph} {policy : ContextPolicy C} {fieldSensitive : Bool}

/-- The baseline strategy ends in a state in which all constraints hold and which another round does
not change. -/
theorem baseline_closed_stable (hp : p.Built) (hcheck : p.check = .ok ())
    (hbuild : ContextGraph.build policy p fieldSensitive = .ok cg) :
    ∃ s, Outcome cg .baseline s ∧ Closed s ∧ Stable s := by
  obtain ⟨hcg, -⟩ := ContextGraph.build_wellBuilt hp hcheck hbuild
  obtain ⟨g, s, houtcome, hs⟩ := exists_outcome hcg .baseline
  have hcomplete := hs.complete fun h => absurd rfl h
  refine ⟨s, houtcome, fun c hc => ?_, hcomplete.stable hs.toRested hs.initialized hs.reflects⟩
  exact satisfiedBut_of_passedBut (hcomplete.passedBut _) hs.toRested hc

/-- The node 8 gets to know also what the node 7 learns from itself. -/
theorem baseline_closed_stable_selfProjecting :
    ∃ cg s, ContextGraph.build insensitive selfProjecting true = .ok cg ∧ Outcome cg .baseline s ∧
      (s.graph.Has ⟨7, 8, .copy⟩ ∧ (s.pointsTo 7).toList = [4, 11] ∧
        (s.pointsTo 8).toList = [4, 11] ∧ s.stats.rounds = 2) ∧
      Closed s ∧ Stable s := by
  have hcheck : selfProjecting.check = .ok () := by decide +kernel
  have hrun : (outcome? insensitive selfProjecting true .baseline).any (fun r => decide
      (r.2.graph.Has ⟨7, 8, .copy⟩ ∧ (r.2.pointsTo 7).toList = [4, 11] ∧
        (r.2.pointsTo 8).toList = [4, 11] ∧ r.2.stats.rounds = 2)) = true := by
    decide +kernel
  obtain ⟨cg, s, hbuild, houtcome, hs⟩ := exists_outcome_of_any hrun
  obtain ⟨s', houtcome', hclosed⟩ := baseline_closed_stable built_selfProjecting hcheck hbuild
  cases houtcome.unique houtcome'
  exact ⟨cg, s, hbuild, houtcome, of_decide_eq_true hs, hclosed⟩

/-- Every strategy ends in a state in which all constraints hold, but for what nodes send that the
program projects onto themselves at offset zero; and if there are none, another round does not
change that state. -/
theorem closed_stable_unless_stutters (hp : p.Built) (hcheck : p.check = .ok ())
    (hbuild : ContextGraph.build policy p fieldSensitive = .ok cg) (strategy : Strategy) :
    ∃ s, Outcome cg strategy s ∧
      (∀ c, s.graph.Has c →
        SatisfiedBut (fun n => ∃ e ∈ cg.edges, e.Stutters ∧ s.graph.rep e.src = n) s c) ∧
      ((∀ e ∈ cg.edges, ¬ e.Stutters) → Closed s ∧ Stable s) := by
  obtain ⟨hcg, -⟩ := ContextGraph.build_wellBuilt hp hcheck hbuild
  obtain ⟨g, s, houtcome, hs⟩ := exists_outcome hcg strategy
  refine ⟨s, houtcome, fun c hc => ?_, fun hnone => ?_⟩
  · exact satisfiedBut_of_passedBut (hs.passedBut fun _ n => hs.exists_stutters) hs.toRested hc
  · have hcomplete := hs.complete fun _ n hn => by
      obtain ⟨e, he, hstutters, -⟩ := hs.exists_stutters hn
      exact hnone e he hstutters
    refine ⟨fun c hc => ?_, hcomplete.stable hs.toRested hs.initialized hs.reflects⟩
    exact satisfiedBut_of_passedBut (hcomplete.passedBut _) hs.toRested hc

/-- The nodes 5 and 6 lie on a cycle and are one in the end. -/
theorem closed_stable_shifting :
    ∃ cg s, ContextGraph.build insensitive shifting true = .ok cg ∧ Outcome cg .waveDiff s ∧
      ((∀ e ∈ cg.edges, ¬ e.Stutters) ∧ s.graph.rep 6 = 5 ∧ (s.pointsTo 8).toList = [4]) ∧
      Closed s ∧ Stable s := by
  have hcheck : shifting.check = .ok () := by decide +kernel
  have hrun : (outcome? insensitive shifting true .waveDiff).any (fun r => decide
      ((∀ e ∈ r.1.edges, ¬ e.Stutters) ∧ r.2.graph.rep 6 = 5 ∧ (r.2.pointsTo 8).toList = [4])) =
        true := by
    decide +kernel
  obtain ⟨cg, s, hbuild, houtcome, hs⟩ := exists_outcome_of_any hrun
  obtain ⟨s', houtcome', -, hclosed⟩ :=
    closed_stable_unless_stutters built_shifting hcheck hbuild .waveDiff
  cases houtcome.unique houtcome'
  have hs := of_decide_eq_true hs
  exact ⟨cg, s, hbuild, houtcome, hs, hclosed hs.1⟩

/-- A sweep that lets the node `x` learn `&x[0]` from itself has sent what `x` held before; the
round asks for no other one, and `y` never learns it. -/
theorem not_closed_of_isWave (strategy : Strategy) (hwave : strategy.isWave) :
    ∃ cg s, ContextGraph.build insensitive selfProjecting true = .ok cg ∧ Outcome cg strategy s ∧
      ¬ Closed s := by
  have h : (outcome? insensitive selfProjecting true strategy).any (fun r =>
      decide (r.2.graph.Has ⟨7, 8, .copy⟩) && !decide (r.2.pointsTo 7 ⊆ r.2.pointsTo 8)) =
        true := by
    cases strategy with
    | baseline => cases hwave
    | wave => decide +kernel
    | waveDiff => decide +kernel
  obtain ⟨cg, s, hbuild, houtcome, hs⟩ := exists_outcome_of_any h
  simp only [Bool.and_eq_true, decide_eq_true_eq, Bool.not_eq_true', decide_eq_false_iff_not] at hs
  refine ⟨cg, s, hbuild, houtcome, fun hclosed => ?_⟩
  have hcopy := hclosed _ hs.1
  exact hcopy.elim id hs.2

theorem not_closed_selfProjecting :
    (∃ cg s, ContextGraph.build insensitive selfProjecting true = .ok cg ∧ Outcome cg .wave s ∧
      ¬ Closed s) ∧
    ∃ cg s, ContextGraph.build insensitive selfProjecting true = .ok cg ∧ Outcome cg .waveDiff s ∧
      ¬ Closed s :=
  ⟨not_closed_of_isWave .wave rfl, not_closed_of_isWave .waveDiff rfl⟩

end results

end Solver

end PointerAnalysis
