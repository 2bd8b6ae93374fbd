import Mathlib.Order.Bounds.Basic
import PointerAnalysis.Proofs.ContextGraph.Undivided
import PointerAnalysis.Proofs.Solver.Fixpoint
import PointerAnalysis.Proofs.Solver.Model

/-!
Points-to sets of whole objects. If no fields are told apart, projections are copies, and the
constraints of a program are inclusions between the sets of whole objects. On an undivided graph
every strategy computes the least family of sets that satisfies them, and makes no field. On any
graph each such family bounds what a run finds, so to tell no fields apart gives no smaller sets.
-/

namespace PointerAnalysis

variable {C : Type} [Context C] {cg : ContextGraph C}

/-- The edges that are copies if no fields are told apart. -/
def EdgeKind.Carries : EdgeKind → Prop
  | .copy | .call | .ret | .field | .anyField => True
  | .addr | .load | .store | .fork | .join => False

/-- A family of sets of whole objects, one for each node that is no field, that satisfies the
inclusions which the edges of a context graph ask for if no fields are told apart. -/
structure IncludesWhole (cg : ContextGraph C) (P : NodeId → Set NodeId) : Prop where
  addr : ∀ e ∈ cg.edges, e.kind = .addr → cg.home e.src ∈ P (cg.home e.dst)
  carry : ∀ e ∈ cg.edges, e.kind.Carries → P (cg.home e.src) ⊆ P (cg.home e.dst)
  load : ∀ e ∈ cg.edges, e.kind = .load → ∀ o ∈ P (cg.home e.src), cg.Dereferenceable o →
    P o ⊆ P (cg.home e.dst)
  store : ∀ e ∈ cg.edges, e.kind = .store → ∀ o ∈ P (cg.home e.dst), cg.Dereferenceable o →
    P (cg.home e.src) ⊆ P o

/-- The inclusions of a graph are those of the graph made undivided. -/
theorem IncludesWhole.of_undivided {P : NodeId → Set NodeId} (hcg : cg.WellBuilt)
    (hcg' : cg.undivided.WellFormed) (h : IncludesWhole cg.undivided P) : IncludesWhole cg P := by
  have hhome : ∀ e ∈ cg.edges, cg.undivided.home e.src = cg.home e.src ∧
      cg.undivided.home e.dst = cg.home e.dst := fun e he => by
    obtain ⟨hsrc, hdst⟩ := hcg.edges_lt e he
    exact ⟨cg.extends_undivided.home_eq hcg.toWellFormed hcg' hsrc,
      cg.extends_undivided.home_eq hcg.toWellFormed hcg' hdst⟩
  have hderef : ∀ o, cg.Dereferenceable o → cg.undivided.Dereferenceable o := fun o ho => by
    rw [ContextGraph.dereferenceable_iff hcg', ContextGraph.inert_undivided]
    exact (ContextGraph.dereferenceable_iff hcg.toWellFormed).mp ho
  refine ⟨fun e he hkind => ?_, fun e he hkind => ?_, fun e he hkind o ho hd => ?_,
    fun e he hkind o ho hd => ?_⟩
  all_goals obtain ⟨hsrc, hdst⟩ := hhome e he
  · rw [← hsrc, ← hdst]
    exact h.addr e he hkind
  · rw [← hsrc, ← hdst]
    exact h.carry e he hkind
  · rw [← hsrc] at ho
    rw [← hdst]
    exact h.load e he hkind o ho (hderef o hd)
  · rw [← hdst] at ho
    rw [← hsrc]
    exact h.store e he hkind o ho (hderef o hd)

namespace Valuation

/-- A family of sets of whole objects as a valuation: a place holds what the whole object does to
which it belongs, with all fields. -/
def ofHomes (cg : ContextGraph C) (P : NodeId → Set NodeId) : Valuation C where
  holds x o := ∃ a b, x.base cg = .inl a ∧ o.base cg = .inl b ∧ b ∈ P a
  below x y := ∀ a, x.base cg = .inl a → ∃ b, y.base cg = .inl b ∧ P a ⊆ P b
  whole _ := True
  real _ := True

variable {P : NodeId → Set NodeId} {x y o : Place C} {a b : NodeId}

theorem flows_ofHomes (hx : x.base cg = .inl a) (hy : y.base cg = .inl b) (h : P a ⊆ P b) :
    (ofHomes cg P).Flows x y := by
  refine ⟨fun a' ha' => ?_, ?_⟩
  · cases hx.symm.trans ha'
    exact ⟨b, hy, h⟩
  · rintro o ⟨a', m, ha', hm, hin⟩
    cases hx.symm.trans ha'
    exact ⟨b, m, hy, hm, h hin⟩

theorem isModel_ofHomes (hcg : cg.WellBuilt) (hP : IncludesWhole cg P) :
    (ofHomes cg P).IsModel cg where
  below_refl x a ha := ⟨a, ha, subset_rfl⟩
  below_trans x y z hxy hyz a ha := by
    obtain ⟨b, hb, hab⟩ := hxy a ha
    obtain ⟨c, hc, hbc⟩ := hyz b hb
    exact ⟨c, hc, hab.trans hbc⟩
  holds_of_alike := by
    rintro x y o ⟨hxy, -⟩ ⟨a, m, ha, hm, hin⟩
    obtain ⟨b, hb, hab⟩ := hxy a ha
    exact ⟨b, m, hb, hm, hab hin⟩
  fold_below x mem _ hpart _ := by
    have hbase := Place.base_base hcg.toWellFormed hpart
    exact ⟨fun a ha => ⟨a, hbase.trans ha, subset_rfl⟩,
      fun a ha => ⟨a, hbase.symm.trans ha, subset_rfl⟩⟩
  fold_holds := by
    rintro x o mem - hpart - ⟨a, b, ha, hb, hin⟩
    exact ⟨a, b, ha, (Place.base_base hcg.toWellFormed hpart).trans hb, hin⟩
  real _ _ := trivial
  whole _ _ := trivial
  edges e he := by
    have hcg' := hcg.toWellFormed
    -- an object may be read and written if the whole object may be
    have hderef : ∀ (o : Place C) b, o.base cg = .inl b → ¬ o.Inert cg → cg.Dereferenceable b :=
      fun o b hb hinert => (ContextGraph.dereferenceable_iff hcg').mpr fun hin =>
        hinert (Place.inert_of_base hcg' hb hin)
    have hcarry : e.kind.Carries → P (cg.home e.src) ⊆ P (cg.home e.dst) := hP.carry e he
    have hcopy : e.kind.Carries → (ofHomes cg P).Admits cg .copy (.inl e.src) (.inl e.dst) :=
      fun hkind => ⟨fun _ => (flows_ofHomes rfl rfl (hcarry hkind)).1,
        fun hk => absurd hk Bool.false_ne_true, (flows_ofHomes rfl rfl (hcarry hkind)).2⟩
    cases hkind : e.kind with
    | addr => exact ⟨nofun, nofun, _, _, rfl, rfl, hP.addr e he hkind⟩
    | copy => exact hcopy (by rw [hkind]; trivial)
    | call => exact hcopy (by rw [hkind]; trivial)
    | ret => exact hcopy (by rw [hkind]; trivial)
    | fork => exact absurd hkind (hcg.threads e he).1
    | join => exact absurd hkind (hcg.threads e he).2
    | field =>
        have hsub := hcarry (by rw [hkind]; trivial)
        refine ⟨fun _ => (flows_ofHomes rfl rfl hsub).1, fun _ _ _ _ _ _ => trivial, ?_⟩
        rintro o ⟨_, b, ⟨⟩, hb, hin⟩
        refine ⟨fun _ => ⟨_, b, rfl, hb, hsub hin⟩, fun key hkey => ?_⟩
        have hfield := Place.base_ofKey hcg' hkey hb
        exact ⟨trivial, ⟨_, b, rfl, hfield, hsub hin⟩,
          fun _ _ => flows_ofHomes hb hfield subset_rfl⟩
    | anyField =>
        have hsub := hcarry (by rw [hkind]; trivial)
        refine ⟨fun _ => (flows_ofHomes rfl rfl hsub).1, fun _ _ _ _ _ _ => trivial, ?_⟩
        rintro o ⟨_, b, ⟨⟩, hb, hin⟩
        refine ⟨fun _ => ⟨_, b, rfl, hb, hsub hin⟩,
          fun mem hmem => ⟨trivial, _, b, rfl, ?_, hsub hin⟩⟩
        exact (Place.base_base hcg' hmem).trans hb
    | load =>
        refine ⟨nofun, nofun, ?_⟩
        rintro o ⟨_, b, ⟨⟩, hb, hin⟩ hinert
        exact flows_ofHomes hb rfl (hP.load e he hkind b hin (hderef o b hb hinert))
    | store =>
        refine ⟨nofun, nofun, ?_⟩
        rintro o ⟨_, b, ⟨⟩, hb, hin⟩ hinert
        exact flows_ofHomes rfl hb (hP.store e he hkind b hin (hderef o b hb hinert))

end Valuation

namespace Solver

variable {g : ConstraintGraph C} {strategy : Strategy} {s t : Solver C} {n o : NodeId}

/-- The whole objects of which a node points to some part. -/
def bases (s : Solver C) (n : NodeId) : Set NodeId :=
  {b | ∃ o ∈ s.pointsTo n, s.graph.contexts.baseOf o = .ok b}

theorem mem_bases (hs : s.WellFormed) {b : NodeId} :
    b ∈ s.bases n ↔ ∃ o ∈ s.pointsTo n, s.graph.contexts.home o = b := by
  constructor
  · rintro ⟨o, ho, hb⟩
    rw [hs.contexts.baseOf_eq (hs.target _ _ ho).1] at hb
    exact ⟨o, ho, Except.ok.inj hb⟩
  · rintro ⟨o, ho, rfl⟩
    exact ⟨o, ho, hs.contexts.baseOf_eq (hs.target _ _ ho).1⟩

/-- A run finds nothing that is not in every family of sets of whole objects that satisfies the
inclusions. -/
theorem Solved.bases_subset (h : Solved cg g strategy t) (hcg : cg.WellBuilt)
    {P : NodeId → Set NodeId} (hP : IncludesWhole cg P) (hn : n < cg.nodes.size) :
    t.bases n ⊆ P (cg.home n) := by
  intro b hb
  obtain ⟨o, ho, rfl⟩ := (mem_bases h.wellFormed).mp hb
  have hV := Valuation.isModel_ofHomes hcg hP
  have hsound := h.sound hcg hV
  have hlt : n < t.graph.slots.size := by
    rw [h.wellFormed.graph.size_eq]
    exact Nat.lt_of_lt_of_le hn hsound.grew.ext.size_le
  obtain ⟨a, b, ha, hb, hin⟩ := hsound.holds_of_mem hV hlt ho
  rw [hsound.grew.place_of_lt hn] at ha
  cases ha
  have hlt := (h.wellFormed.target _ _ ho).1
  rw [← hsound.grew.place_home hlt] at hb
  rwa [hsound.grew.eq_of_place (h.wellFormed.contexts.home_lt hlt) hb]

/-! ## The end of a run -/

theorem bases_rep (hs : s.WellFormed) (n : NodeId) : s.bases (s.graph.rep n) = s.bases n := by
  simp only [bases, pointsTo, rep_rep hs]

section solved

variable (h : Solved cg g strategy t)

include h

/-- Whether it copies or projects, a direct constraint keeps whole objects what they are. -/
theorem Solved.bases_subset_of_has {c : Constraint} (hc : t.graph.Has c)
    (hclass : c.kind.edgeClass = .direct) : t.bases c.src ⊆ t.bases c.dst := by
  have hwf := h.wellFormed
  intro b hb
  obtain ⟨o, ho, rfl⟩ := (mem_bases hwf).mp hb
  rw [pointsTo_of_isLive hwf (hwf.graph.isLive_src hc)] at ho
  obtain ⟨p, -, hecho, -, hpass⟩ := h.exists_sent hc hclass ho
  rw [hecho.home_eq hwf, mem_bases hwf, pointsTo_of_isLive hwf (hwf.graph.isLive_dst hc)]
  unfold Passes at hpass
  cases hkind : c.kind with
  | copy =>
      rw [hkind] at hpass
      exact ⟨p, hpass, rfl⟩
  | field offset =>
      rw [hkind] at hpass
      obtain ⟨f, hf, hproj, -⟩ := hpass
      exact ⟨f, hf, hproj.home_eq hwf.contexts⟩
  | anyField =>
      rw [hkind] at hpass
      rcases hpass with ⟨-, hin⟩ | ⟨-, f, hf, -, hhome⟩
      · exact ⟨p, hin, rfl⟩
      · exact ⟨f, hf, hhome⟩
  | addr | load | store =>
      rw [hkind] at hclass
      cases hclass

theorem Solved.bases_subset_of_linked {a b : NodeId} (hlink : t.graph.Linked a b) :
    t.bases a ⊆ t.bases b := by
  rw [← bases_rep h.wellFormed a, ← bases_rep h.wellFormed b]
  rcases hlink with heq | hc
  · rw [heq]
  · exact h.bases_subset_of_has hc rfl

theorem Solved.bases_subset_of_carries {e : ContextEdge} (he : e ∈ cg.edges)
    (hkind : e.kind.Carries) : t.bases e.src ⊆ t.bases e.dst := by
  have hclass : (ConstraintKind.ofEdge e.kind e.offset).edgeClass = .direct := by
    cases hk : e.kind <;> rw [hk] at hkind <;> first | rfl | cases hkind
  rw [← bases_rep h.wellFormed e.src, ← bases_rep h.wellFormed e.dst]
  rcases h.reflects.has_or_eq he
    (fun hk => by rw [hk] at hclass; cases hclass) with hc | ⟨-, heq, -⟩
  · exact h.bases_subset_of_has hc hclass
  · rw [heq]

end solved

/-! ## Undivided graphs -/

/-- If no object tells its fields apart, no field is made and no object changes. -/
theorem Act.contexts_eq (h : Act s t) (hs : s.WellFormed)
    (hwhole : ∀ mem < s.graph.contexts.memObjs.size, s.graph.contexts.IsWhole mem) :
    t.graph.contexts = s.graph.contexts := by
  have hpart : ∀ n mem, s.graph.contexts.PartOf n mem → s.graph.contexts.IsWhole mem :=
    fun n mem hmem => hwhole mem (hs.contexts.mem_lt n mem hmem)
  cases h with
  | reset => rfl
  | start objs hobjs => rfl
  | turn h =>
      cases h with
      | queue w hlt hnodup => rfl
      | move h =>
          cases h with
          | clear => rfl
          | record facts hsame => rfl
          | collapse h => exact h.contexts
          | step h =>
              cases h with
              | tally stats => rfl
              | gain n objs hdue htidy => rw [graph_learned]
              | link src dst e g hdue hok =>
                  obtain ⟨hsrc, hdst⟩ := hdue.lt hs
                  obtain ⟨r, g', hok', hnodes, -⟩ :=
                    s.graph.addEdge_spec hs.graph.toIntact hsrc hdst .copy
                  cases hok.symm.trans hok'
                  rw [graph_linked, hnodes.contexts]
              | grow c offset o key g hc hkind ho hkey hnot hnew hcontexts hgrown =>
                  exact absurd ⟨_, hkey.partOf, hpart o _ hkey.partOf⟩ hnot
              | widen o mem contexts hdue hmem hnew hok => exact absurd (hpart o mem hmem) hnew

section undivided

variable (h : Solved cg g strategy t) (hcg : cg.WellBuilt)
  (hwhole : ∀ mem < cg.memObjs.size, cg.IsWhole mem)

include h hcg hwhole

theorem Solved.contexts_eq : t.graph.contexts = cg := by
  suffices hacts : ∀ u, Acts (new g strategy) u → u.WellFormed ∧ u.graph.contexts = cg from
    (hacts t h.acts).2
  intro u hu
  induction hu with
  | refl => exact ⟨wellFormed_new hcg h.spans strategy, h.spans.contexts⟩
  | tail _ hact ih =>
      obtain ⟨hwf, hctx⟩ := ih
      exact ⟨hact.wellFormed hwf, (hact.contexts_eq hwf (by rwa [hctx])).trans hctx⟩

/-- A field and the whole object are one node. -/
theorem Solved.bases_home (n : NodeId) : t.bases (cg.home n) = t.bases n := by
  have hctx := h.contexts_eq hcg hwhole
  rw [← bases_rep h.wellFormed, ← bases_rep h.wellFormed n]
  by_cases hpart : ∃ mem, cg.PartOf n mem
  · obtain ⟨mem, hpart⟩ := hpart
    have hrep := h.folded.rep_home (f := n) (by
      rw [hctx]
      exact ⟨mem, hpart, hwhole mem (hcg.mem_lt n mem hpart)⟩)
    rw [hrep, hctx]
  · rw [ContextGraph.WellFormed.home_of_not_partOf fun mem hmem => hpart ⟨mem, hmem⟩]

/-- The sets of whole objects in which a run ends satisfy the inclusions. -/
theorem Solved.includesWhole : IncludesWhole cg fun a => {b | cg.home a = a ∧ b ∈ t.bases a} := by
  have hwf := h.wellFormed
  have hctx := h.contexts_eq hcg hwhole
  have hhome := hcg.toWellFormed.home_home
  have hbases := h.bases_home hcg hwhole
  have hpassed : PassedBut (fun _ => True) t := h.passedBut fun _ _ _ => trivial
  -- what may be read and written as a whole may be so in parts
  have hinert : ∀ o, cg.Dereferenceable (cg.home o) → ¬ t.graph.contexts.Inert o := fun o hd => by
    rw [hctx, ← ContextGraph.inert_home hcg.toWellFormed]
    exact (ContextGraph.dereferenceable_iff hcg.toWellFormed).mp hd
  refine ⟨fun e he hkind => ⟨hhome _, ?_⟩, fun e he hkind b hb => ⟨hhome _, ?_⟩, ?_, ?_⟩
  · rw [hbases, mem_bases hwf, hctx]
    exact ⟨e.src, h.seeded e he hkind, rfl⟩
  · have hin := hb.2
    rw [hbases] at hin ⊢
    exact h.bases_subset_of_carries he hkind hin
  · rintro e he hkind o ⟨-, ho⟩ hd b ⟨-, hb⟩
    have hload : ConstraintKind.ofEdge e.kind e.offset = .load := by rw [hkind]; rfl
    rw [hbases, mem_bases hwf, hctx] at ho
    obtain ⟨o, ho, rfl⟩ := ho
    have hlink := h.reflects.linked_of_load he hwf hpassed hload ho (hinert o hd)
    refine ⟨hhome _, ?_⟩
    rw [hbases] at hb ⊢
    exact h.bases_subset_of_linked hlink hb
  · rintro e he hkind o ⟨-, ho⟩ hd b ⟨-, hb⟩
    have hstore : ConstraintKind.ofEdge e.kind e.offset = .store := by rw [hkind]; rfl
    rw [hbases, mem_bases hwf, hctx] at ho
    obtain ⟨o, ho, rfl⟩ := ho
    have hlink := h.reflects.linked_of_store he hwf hpassed hstore ho (hinert o hd)
    refine ⟨hhome _, ?_⟩
    rw [hbases] at hb ⊢
    exact h.bases_subset_of_linked hlink hb

/-- A run computes the least family of sets of whole objects that satisfies the inclusions. -/
theorem Solved.isLeast_whole :
    IsLeast {P | IncludesWhole cg P} fun a => {b | cg.home a = a ∧ b ∈ t.bases a} := by
  refine ⟨h.includesWhole hcg hwhole, fun P hP a b ⟨ha, hb⟩ => ?_⟩
  have hlt : a < cg.nodes.size := by
    obtain ⟨o, ho, -⟩ := hb
    have hlt := h.wellFormed.lt_of_mem_pointsTo ho
    rwa [h.wellFormed.graph.size_eq, h.contexts_eq hcg hwhole] at hlt
  have hin := h.bases_subset hcg hP hlt hb
  rwa [ha] at hin

end undivided

/-! ## All programs -/

/-- `p = &a.x; q = &p[1]; r = &q[*]; *q = p; r = *p`, with the node 4 for the object `a`, 5 for its
field `x`, and 6, 7 and 8 for the pointers. -/
def boxing : AssignmentGraph :=
  let g := (AssignmentGraph.empty.addObject .constant 3).2
  let g := (g.pushNode .fieldObject (some .constant) (some 0) ⟨1⟩).2
  let g := (g.addValue .constant).2
  let g := (g.addValue .constant).2
  let g := (g.addValue .constant).2
  let g := (g.addEdge .addr 5 6).2
  let g := (g.addFieldEdge 6 7 ⟨1⟩).2
  let g := (g.addEdge .anyField 7 8).2
  let g := (g.addEdge .store 6 7).2
  (g.addEdge .load 6 8).2

theorem built_boxing : boxing.Built :=
  have h := AssignmentGraph.Built.empty.addObject .constant 3
  have hok : AssignmentGraph.addField _ 4 ⟨1⟩ = .ok (5, _) := rfl
  have h := (((h.addField hok).addValue .constant).addValue .constant).addValue .constant
  have h := (h.pushEdge .addr 5 6 0 none).pushEdge .field 6 7 ⟨1⟩ none
  have h := (h.pushEdge .anyField 7 8 0 none).pushEdge .store 6 7 0 none
  h.pushEdge .load 6 8 0 none

section results

variable {p : AssignmentGraph} {policy : ContextPolicy C}

/-- Without field sensitivity, every strategy ends with the least sets of whole objects that satisfy
the inclusions in which projections are copies, and has made no field. -/
theorem exact_of_insensitive (hp : p.Built) (hcheck : p.check = .ok ())
    (hbuild : ContextGraph.build policy p false = .ok cg) :
    ∃ P, IsLeast {P | IncludesWhole cg P} P ∧ ∀ strategy, ∃ s, Outcome cg strategy s ∧
      s.graph.contexts = cg ∧ ∀ n < cg.nodes.size, s.bases n = P (cg.home n) := by
  obtain ⟨hcg, -⟩ := ContextGraph.build_wellBuilt hp hcheck hbuild
  have hwhole := ContextGraph.isWhole_of_build_false hbuild
  obtain ⟨_, t, -, ht⟩ := exists_outcome hcg .baseline
  have hleast := ht.isLeast_whole hcg hwhole
  refine ⟨_, hleast, fun strategy => ?_⟩
  obtain ⟨_, s, houtcome, hs⟩ := exists_outcome hcg strategy
  refine ⟨s, houtcome, hs.contexts_eq hcg hwhole, fun n _ => ?_⟩
  have hsame := congrFun ((hs.isLeast_whole hcg hwhole).unique hleast) (cg.home n)
  rw [← hsame, ← hs.bases_home hcg hwhole n]
  simp [hcg.toWellFormed.home_home]

/-- The least sets hold the object as a whole, although the program takes the address of a field. -/
theorem exact_of_insensitive_boxing :
    ∃ cg P, ContextGraph.build insensitive boxing false = .ok cg ∧
      IsLeast {P | IncludesWhole cg P} P ∧ P 8 = {4} ∧ ∀ strategy, ∃ s, Outcome cg strategy s ∧
        s.graph.contexts = cg ∧ ∀ n < cg.nodes.size, s.bases n = P (cg.home n) := by
  have hcheck : boxing.check = .ok () := by decide +kernel
  have hrun : (outcome? insensitive boxing false .wave).any (fun r => decide
      ((r.2.pointsTo 8).toList = [4, 5] ∧ r.2.graph.contexts.home 4 = 4 ∧
        r.2.graph.contexts.home 5 = 4 ∧ 8 < r.1.nodes.size ∧ r.1.home 8 = 8)) = true := by
    decide +kernel
  obtain ⟨cg, s, hbuild, houtcome, hs⟩ := exists_outcome_of_any hrun
  obtain ⟨htargets, hobject, hfield, hlt, hpointer⟩ := of_decide_eq_true hs
  obtain ⟨P, hleast, hexact⟩ := exact_of_insensitive built_boxing hcheck hbuild
  obtain ⟨s', houtcome', -, hbases⟩ := hexact .wave
  cases houtcome.unique houtcome'
  obtain ⟨hcg, -⟩ := ContextGraph.build_wellBuilt built_boxing hcheck hbuild
  obtain ⟨_, t, ht, hsolved⟩ := exists_outcome hcg .wave
  cases houtcome.unique ht
  have hmem : ∀ b, b ∈ s.bases 8 ↔ b = 4 := by
    intro b
    simp [mem_bases hsolved.wellFormed, IdSet.mem_def, htargets, hobject, hfield, eq_comm]
  refine ⟨cg, P, hbuild, hleast, ?_, hexact⟩
  rw [← hpointer, ← hbases 8 hlt]
  exact Set.ext hmem

/-- Without field sensitivity the same nodes are built, and each of them ends up pointing into at
least the objects that it points into with field sensitivity, whatever the strategies. -/
theorem bases_subset_of_insensitive (hp : p.Built) (hcheck : p.check = .ok ())
    (hbuild : ContextGraph.build policy p true = .ok cg) :
    ∃ cg', ContextGraph.build policy p false = .ok cg' ∧ cg'.nodes = cg.nodes ∧
      ∀ strategy strategy', ∃ s s', Outcome cg strategy s ∧ Outcome cg' strategy' s' ∧
        ∀ n < cg.nodes.size, s.bases n ⊆ s'.bases n := by
  have hbuild' : ContextGraph.build policy p false = .ok cg.undivided := by
    rw [ContextGraph.build_false, hbuild]
    rfl
  obtain ⟨hcg, -⟩ := ContextGraph.build_wellBuilt hp hcheck hbuild
  obtain ⟨hcg', -⟩ := ContextGraph.build_wellBuilt hp hcheck hbuild'
  have hwhole := ContextGraph.isWhole_of_build_false hbuild'
  refine ⟨_, hbuild', rfl, fun strategy strategy' => ?_⟩
  obtain ⟨_, s, hs, hsolved⟩ := exists_outcome hcg strategy
  obtain ⟨_, s', hs', hsolved'⟩ := exists_outcome hcg' strategy'
  refine ⟨s, s', hs, hs', fun n hn b hb => ?_⟩
  have hP := (hsolved'.includesWhole hcg' hwhole).of_undivided hcg hcg'.toWellFormed
  have hin := (hsolved.bases_subset hcg hP hn hb).2
  rwa [← cg.extends_undivided.home_eq hcg.toWellFormed hcg'.toWellFormed hn,
    hsolved'.bases_home hcg' hwhole] at hin

/-- The node 7 points to a field that is made in one of the runs only, so the sets are compared by
whole objects. -/
theorem bases_subset_of_insensitive_boxing :
    ∃ cg cg', ContextGraph.build insensitive boxing true = .ok cg ∧
      ContextGraph.build insensitive boxing false = .ok cg' ∧ ∃ s s', Outcome cg .wave s ∧
        Outcome cg' .waveDiff s' ∧
        ((s.pointsTo 7).toList = [4, 9] ∧ s.graph.contexts.home 9 = 4) ∧
        ((s'.pointsTo 7).toList = [4] ∧ s'.graph.contexts.nodes.size = 9) ∧
        (∀ n < cg.nodes.size, s.bases n ⊆ s'.bases n) ∧
        ∃ t, Outcome cg .baseline t ∧ ∀ n < cg.nodes.size, t.bases n ⊆ s'.bases n := by
  have hcheck : boxing.check = .ok () := by decide +kernel
  have hrun : (outcome? insensitive boxing true .wave).any (fun r => decide
      ((r.2.pointsTo 7).toList = [4, 9] ∧ r.2.graph.contexts.home 9 = 4)) = true := by
    decide +kernel
  have hrun' : (outcome? insensitive boxing false .waveDiff).any (fun r => decide
      ((r.2.pointsTo 7).toList = [4] ∧ r.2.graph.contexts.nodes.size = 9)) = true := by
    decide +kernel
  obtain ⟨cg, s, hbuild, houtcome, hs⟩ := exists_outcome_of_any hrun
  obtain ⟨cg', s', hbuild', houtcome', hs'⟩ := exists_outcome_of_any hrun'
  obtain ⟨_, hbuilt, -, hsubset⟩ := bases_subset_of_insensitive built_boxing hcheck hbuild
  cases hbuild'.symm.trans hbuilt
  have hbelow : ∀ strategy, ∃ t, Outcome cg strategy t ∧
      ∀ n < cg.nodes.size, t.bases n ⊆ s'.bases n := by
    intro strategy
    obtain ⟨t, t', ht, ht', hle⟩ := hsubset strategy .waveDiff
    cases houtcome'.unique ht'
    exact ⟨t, ht, hle⟩
  obtain ⟨t, ht, hle⟩ := hbelow .wave
  cases houtcome.unique ht
  exact ⟨cg, cg', hbuild, hbuild', s, s', houtcome, houtcome', of_decide_eq_true hs,
    of_decide_eq_true hs', hle, hbelow .baseline⟩

end results

end Solver

end PointerAnalysis
