import PointerAnalysis.Proofs.ContextGraph.Place
import PointerAnalysis.Proofs.Solver.Solve

/-!
Models of a context graph. A valuation says what each place holds, which places lie below others,
and which objects do not tell their fields apart. It is a model if it grants every edge of the graph
what the edge asks for; places that lie below each other then hold the same. Whatever a run finds
out is so in every model: each step has a reason, and the reason holds in the model.
-/

namespace PointerAnalysis

/-- What is held by places, and how they lie to each other. -/
structure Valuation (C : Type) where
  /-- a place holds another one -/
  holds : Place C → Place C → Prop
  /-- a chain of direct constraints leads from a place to another one -/
  below : Place C → Place C → Prop
  /-- the fields of an object are not told apart -/
  whole : MemObjId → Prop
  /-- the place may come to be -/
  real : Place C → Prop

namespace Valuation

variable {C : Type} (V : Valuation C)

/-- All that a place holds goes to another one. -/
def Flows (a b : Place C) : Prop := V.below a b ∧ ∀ o, V.holds a o → V.holds b o

/-- Two places lie on a cycle. -/
def Alike (a b : Place C) : Prop := V.below a b ∧ V.below b a

theorem Alike.symm {V : Valuation C} {a b : Place C} (h : V.Alike a b) : V.Alike b a := ⟨h.2, h.1⟩

variable [Context C] (cg : ContextGraph C)

/-- The place belongs to no object that tells its fields apart. -/
def WholeAt (x : Place C) : Prop := ∀ mem, x.PartOf cg mem → V.whole mem

/-- What a place holds, others hold as a constraint asks for. -/
def Passes (src dst : Place C) : ConstraintKind → Prop
  | .addr => V.holds dst src
  | .copy => ∀ o, V.holds src o → V.holds dst o
  | .field offset => ∀ o, V.holds src o → ((∀ mem, ¬ o.PartOf cg mem) → V.holds dst o) ∧
      ∀ key, o.KeyOf cg offset key → V.real (.ofKey cg key) ∧ V.holds dst (.ofKey cg key) ∧
        (offset.isZero → o.base cg = o → V.Flows o (.ofKey cg key))
  | .anyField => ∀ o, V.holds src o → ((∀ mem, ¬ o.PartOf cg mem) → V.holds dst o) ∧
      ∀ mem, o.PartOf cg mem → V.whole mem ∧ V.holds dst (o.base cg)
  | .load => ∀ o, V.holds src o → ¬ o.Inert cg → V.Flows o dst
  | .store => ∀ o, V.holds dst o → ¬ o.Inert cg → V.Flows src o

/-- A constraint between two places is granted. On a cycle, a constraint that shifts makes objects
give up telling their fields apart. -/
structure Admits (kind : ConstraintKind) (src dst : Place C) : Prop where
  below : kind.edgeClass = .direct → V.below src dst
  shifts : kind.isShifting → V.below dst src → ∀ o, V.holds src o → V.WholeAt cg o
  passes : V.Passes cg src dst kind

/-- A valuation that grants all constraints of a context graph. -/
structure IsModel : Prop where
  below_refl : ∀ x, V.below x x
  below_trans : ∀ x y z, V.below x y → V.below y z → V.below x z
  holds_of_alike : ∀ x y o, V.Alike x y → V.holds x o → V.holds y o
  fold_below : ∀ x mem, V.real x → x.PartOf cg mem → V.whole mem → V.Alike x (x.base cg)
  fold_holds : ∀ x o mem, V.real o → o.PartOf cg mem → V.whole mem → V.holds x o →
    V.holds x (o.base cg)
  real : ∀ n, n < cg.nodes.size → V.real (.inl n)
  whole : ∀ mem, cg.IsWhole mem → V.whole mem
  edges : ∀ e ∈ cg.edges, V.Admits cg (.ofEdge e.kind e.offset) (.inl e.src) (.inl e.dst)

variable {V cg} {a a' b b' c : Place C} {kind : ConstraintKind}

namespace IsModel

variable (hV : V.IsModel cg)

include hV

theorem alike_refl (a : Place C) : V.Alike a a := ⟨hV.below_refl a, hV.below_refl a⟩

theorem alike_trans (h : V.Alike a b) (h' : V.Alike b c) : V.Alike a c :=
  ⟨hV.below_trans a b c h.1 h'.1, hV.below_trans c b a h'.2 h.2⟩

theorem below_congr (ha : V.Alike a a') (hb : V.Alike b b') (h : V.below a b) : V.below a' b' :=
  hV.below_trans _ _ _ ha.2 (hV.below_trans _ _ _ h hb.1)

theorem flows_congr (ha : V.Alike a a') (hb : V.Alike b b') (h : V.Flows a b) : V.Flows a' b' :=
  ⟨hV.below_congr ha hb h.1, fun o ho =>
    hV.holds_of_alike _ _ o hb (h.2 o (hV.holds_of_alike _ _ o ha.symm ho))⟩

/-- Constraints other than those that take an address can be moved along cycles. -/
theorem admits_congr (hkind : kind ≠ .addr) (ha : V.Alike a a') (hb : V.Alike b b')
    (h : V.Admits cg kind a b) : V.Admits cg kind a' b' := by
  have hfrom : ∀ o, V.holds a' o → V.holds a o := fun o => hV.holds_of_alike _ _ o ha.symm
  have hto : ∀ o, V.holds b o → V.holds b' o := fun o => hV.holds_of_alike _ _ o hb
  have hpass := h.passes
  refine ⟨fun hclass => hV.below_congr ha hb (h.below hclass), fun hshift hback o ho => ?_, ?_⟩
  · exact h.shifts hshift (hV.below_congr hb.symm ha.symm hback) o (hfrom o ho)
  · cases kind with
    | addr => exact absurd rfl hkind
    | copy => exact fun o ho => hto o (hpass o (hfrom o ho))
    | field offset =>
        intro o ho
        obtain ⟨hnone, hkey⟩ := hpass o (hfrom o ho)
        refine ⟨fun h => hto o (hnone h), fun key hk => ?_⟩
        obtain ⟨hreal, hin, hflows⟩ := hkey key hk
        exact ⟨hreal, hto _ hin, hflows⟩
    | anyField =>
        intro o ho
        obtain ⟨hnone, hpart⟩ := hpass o (hfrom o ho)
        refine ⟨fun h => hto o (hnone h), fun mem hmem => ?_⟩
        obtain ⟨hwhole, hin⟩ := hpart mem hmem
        exact ⟨hwhole, hto _ hin⟩
    | load =>
        intro o ho hinert
        exact hV.flows_congr (hV.alike_refl o) hb (hpass o (hfrom o ho) hinert)
    | store =>
        intro o ho hinert
        have ho := hV.holds_of_alike _ _ o hb.symm ho
        exact hV.flows_congr ha (hV.alike_refl o) (hpass o ho hinert)

end IsModel

end Valuation

namespace Solver

variable {C : Type} [Context C] {active : NodeId → Prop} {s t : Solver C} {cg : ContextGraph C}
  {V : Valuation C}

/-- Everything in a state is so in a valuation. -/
structure Sound (V : Valuation C) (cg : ContextGraph C) (s : Solver C) : Prop where
  grew : cg.Grew s.graph.contexts
  pointsTo : ∀ n o, o ∈ s.facts.pointsTo n →
    V.holds (s.graph.contexts.place n) (s.graph.contexts.place o)
  rep : ∀ n, n < s.graph.slots.size →
    V.Alike (s.graph.contexts.place n) (s.graph.contexts.place (s.graph.rep n))
  has : ∀ c, s.graph.Has c →
    V.Admits cg c.kind (s.graph.contexts.place c.src) (s.graph.contexts.place c.dst)
  shifting : ∀ n, s.graph.isShifting n → n < s.graph.slots.size ∧
    ∀ o, V.holds (s.graph.contexts.place n) o → V.WholeAt cg o
  whole : ∀ mem, s.graph.contexts.IsWhole mem → V.whole mem
  real : ∀ n, n < s.graph.slots.size → V.real (s.graph.contexts.place n)

namespace Sound

theorem congr (h : Sound V cg s) (hgraph : t.graph = s.graph)
    (hpts : ∀ n, t.facts.pointsTo n = s.facts.pointsTo n) : Sound V cg t := by
  obtain ⟨hgrew, hpoints, hrep, hhas, hshift, hwhole, hreal⟩ := h
  refine ⟨?_, ?_, ?_, ?_, ?_, ?_, ?_⟩
  all_goals simpa only [hgraph, hpts]

theorem learned (h : Sound V cg s) {n : NodeId} {objs : IdSet}
    (hobjs : ∀ o ∈ objs, V.holds (s.graph.contexts.place n) (s.graph.contexts.place o)) :
    Sound V cg (s.learned n objs) := by
  obtain ⟨hgrew, hpoints, hrep, hhas, hshift, hwhole, hreal⟩ := h
  refine ⟨?_, fun m o ho => ?_, ?_, ?_, ?_, ?_, ?_⟩
  case refine_2 =>
    rw [graph_learned]
    rcases (mem_pointsTo_learned s n objs).mp ho with hold | ⟨rfl, hnew⟩
    · exact hpoints m o hold
    · exact hobjs o hnew
  all_goals simpa only [graph_learned]

section reasons

variable (h : Sound V cg s)

include h

theorem isWhole_of_wholeAt (hs : s.WellFormed) {n : NodeId} (hw : s.graph.contexts.WholeAt n) :
    ∃ mem, V.real (s.graph.contexts.place n) ∧ (s.graph.contexts.place n).PartOf cg mem ∧
      V.whole mem := by
  obtain ⟨mem, hpart, hwhole⟩ := hw
  have hreal := h.real n (by rw [hs.graph.size_eq]; exact hpart.lt)
  exact ⟨mem, hreal, (h.grew.partOf_iff hpart.lt).mpr hpart, h.whole mem hwhole⟩

/-- With a field a place holds the whole object. -/
theorem holds_home (hV : V.IsModel cg) (hs : s.WellFormed) {x : Place C} {o : NodeId}
    (ho : V.holds x (s.graph.contexts.place o))
    (hw : s.graph.contexts.WholeAt o) :
    V.holds x (s.graph.contexts.place (s.graph.contexts.home o)) := by
  have hlt : o < s.graph.contexts.nodes.size := hw.elim fun _ hw => hw.1.lt
  obtain ⟨mem, hreal, hpart, hwhole⟩ := h.isWhole_of_wholeAt hs hw
  rw [h.grew.place_home hlt]
  exact hV.fold_holds _ _ mem hreal hpart hwhole ho

theorem holds_of_due (hV : V.IsModel cg) (hs : s.WellFormed) {n o : NodeId}
    (hdue : Due active s n o) :
    V.holds (s.graph.contexts.place n) (s.graph.contexts.place o) := by
  cases hdue with
  | addr c hc hkind hdst hsrc =>
      have hpass := (h.has c hc).passes
      rw [hkind, hdst, hsrc] at hpass
      exact hpass
  | copy c hc hkind hdst hactive ho =>
      have hpass := (h.has c hc).passes
      rw [hkind, hdst] at hpass
      exact hpass _ (h.pointsTo _ _ ho)
  | field c offset p hc hkind hdst hactive hp hproj hhome =>
      have hpass := (h.has c hc).passes
      rw [hkind, hdst] at hpass
      obtain ⟨hself, hfield⟩ := hpass _ (h.pointsTo _ _ hp)
      have hlt := (hs.target _ _ hp).1
      cases hproj with
      | self hnone heq =>
          rw [heq]
          exact hself fun mem hmem => hnone mem ((h.grew.partOf_iff hlt).mp hmem)
      | field key hkey hf =>
          rw [h.grew.place_field hf]
          exact (hfield key ((h.grew.keyOf_iff hlt).mpr hkey)).2.1
      | whole hp ho heq =>
          -- the model holds a field of the object, and with it the whole object
          obtain ⟨mem, hpart, hwhole⟩ := hp
          obtain ⟨key, hkey, rfl⟩ := hs.contexts.exists_keyOf hpart offset
          have hkey := (h.grew.keyOf_iff hlt).mpr hkey
          obtain ⟨hreal, hin, -⟩ := hfield key hkey
          have hcg := h.grew.built.toWellFormed
          have hbase :=
            hV.fold_holds _ _ _ hreal (Place.partOf_ofKey hcg key) (h.whole _ hwhole) hin
          rw [Place.base_ofKey hcg hkey (h.grew.base_place hpart), ← heq, hhome ho] at hbase
          have hlt := h.grew.home_lt hpart
          rw [← heq, hhome ho] at hlt
          rwa [h.grew.place_of_lt hlt]
  | anyField c p hc hkind hdst hactive hp ho =>
      have hpass := (h.has c hc).passes
      rw [hkind, hdst] at hpass
      obtain ⟨hself, hpart⟩ := hpass _ (h.pointsTo _ _ hp)
      have hlt := (hs.target _ _ hp).1
      rcases ho with ⟨hnone, rfl⟩ | ⟨⟨mem, hmem, -⟩, rfl⟩
      · exact hself fun mem hmem => hnone mem ((h.grew.partOf_iff hlt).mp hmem)
      · rw [h.grew.place_home hlt]
        exact (hpart mem ((h.grew.partOf_iff hlt).mpr hmem)).2

/-- What a node points to its place holds. -/
theorem holds_of_mem (hV : V.IsModel cg) {n o : NodeId} (hn : n < s.graph.slots.size)
    (ho : o ∈ s.pointsTo n) : V.holds (s.graph.contexts.place n) (s.graph.contexts.place o) :=
  hV.holds_of_alike _ _ _ (h.rep n hn).symm (h.pointsTo _ o ho)

theorem flows_of_due (hs : s.WellFormed) {a b : NodeId} (hdue : LinkDue s a b) :
    V.Flows (s.graph.contexts.place a) (s.graph.contexts.place b) := by
  cases hdue with
  | load c o hc hkind ho hinert =>
      have hpass := (h.has c hc).passes
      rw [hkind] at hpass
      have hlt := (hs.target _ _ ho).1
      exact hpass _ (h.pointsTo _ _ ho) fun hin => hinert ((h.grew.inert_iff hlt).mp hin)
  | store c o hc hkind ho hinert =>
      have hpass := (h.has c hc).passes
      rw [hkind] at hpass
      have hlt := (hs.target _ _ ho).1
      exact hpass _ (h.pointsTo _ _ ho) fun hin => hinert ((h.grew.inert_iff hlt).mp hin)
  | first c offset o f key hc hkind hzero ho hhome hkey hf =>
      have hpass := (h.has c hc).passes
      rw [hkind] at hpass
      have hlt := (hs.target _ _ ho).1
      have hbase : (s.graph.contexts.place a).base cg = s.graph.contexts.place a := by
        rw [← h.grew.place_home hlt, hhome]
      rw [h.grew.place_field hf]
      exact ((hpass _ (h.pointsTo _ _ ho)).2 key ((h.grew.keyOf_iff hlt).mpr hkey)).2.2 hzero hbase

theorem whole_of_due {o : NodeId} {mem : MemObjId} (hdue : WidenDue s o)
    (hpart : s.graph.contexts.PartOf o mem) : V.whole mem := by
  have hpart := (h.grew.partOf_iff hpart.lt).mpr hpart
  cases hdue with
  | shifting n hn ho => exact (h.shifting n hn).2 _ (h.pointsTo _ _ ho) mem hpart
  | anyField c hc hkind ho =>
      have hpass := (h.has c hc).passes
      rw [hkind] at hpass
      exact ((hpass _ (h.pointsTo _ _ ho)).2 mem hpart).1

theorem below_of_path (hV : V.IsModel cg) (hs : s.graph.Indexed) {x y : NodeId}
    (hpath : Components.Path s.graph.directEnds x y) :
    V.below (s.graph.contexts.place x) (s.graph.contexts.place y) := by
  induction hpath with
  | refl => exact hV.below_refl _
  | tail _ hstep ih =>
      obtain ⟨c, hc, hclass, rfl, rfl⟩ := hs.mem_directEnds.mp hstep
      exact hV.below_trans _ _ _ ih ((h.has c hc).below hclass)

/-- Nodes that are merged lie on a cycle. -/
theorem alike_of_due (hV : V.IsModel cg) (hs : s.WellFormed) {r : NodeId} {subs : List NodeId}
    (hdue : FuseDue s r subs) {n : NodeId} (hn : n ∈ subs) :
    V.Alike (s.graph.contexts.place n) (s.graph.contexts.place r) := by
  cases hdue with
  | cycle hcycle =>
      obtain ⟨hto, hfrom⟩ := hcycle n hn
      have hindexed := hs.graph.toIndexed
      exact ⟨h.below_of_path hV hindexed hfrom, h.below_of_path hV hindexed hto⟩
  | fold f hf hr hsubs =>
      rw [hsubs, List.mem_singleton] at hn
      obtain ⟨mem, hreal, hpart, hwhole⟩ := h.isWhole_of_wholeAt hs hf
      have hlt : f < s.graph.contexts.nodes.size := hf.elim fun _ hf => hf.1.lt
      have hfold := hV.fold_below _ mem hreal hpart hwhole
      rw [← h.grew.place_home hlt] at hfold
      have hhome := hs.contexts.home_lt hlt
      rw [← hs.graph.size_eq] at hlt hhome
      rw [hn, hr]
      exact hV.alike_trans (h.rep f hlt).symm (hV.alike_trans hfold (h.rep _ hhome))

end reasons

variable (hV : V.IsModel cg)

include hV

/-- The context graph may grow, as long as the model knows of what is new. -/
theorem extend (h : Sound V cg s) (hs : s.WellFormed) (ht : t.WellFormed)
    (hext : s.graph.contexts.Extends t.graph.contexts)
    (hpts : ∀ n, t.facts.pointsTo n = s.facts.pointsTo n)
    (hhas : ∀ c, t.graph.Has c → s.graph.Has c) (hrep : ∀ n, t.graph.rep n = s.graph.rep n)
    (hshift : ∀ n, t.graph.isShifting n → s.graph.isShifting n)
    (hwhole : ∀ mem, t.graph.contexts.IsWhole mem → V.whole mem)
    (hreal : ∀ n, n < t.graph.slots.size → V.real (t.graph.contexts.place n)) : Sound V cg t := by
  have hplace : ∀ n, n < s.graph.slots.size →
      t.graph.contexts.place n = s.graph.contexts.place n := fun n hn => by
    rw [hs.graph.size_eq] at hn
    exact hext.place_eq hn
  have hlive : ∀ n, s.graph.isLive n → t.graph.contexts.place n = s.graph.contexts.place n :=
    fun n hn => hplace n (ConstraintGraph.isLive_lt hn)
  have hsize : s.graph.slots.size ≤ t.graph.slots.size := by
    rw [hs.graph.size_eq, ht.graph.size_eq]
    exact hext.size_le
  refine ⟨⟨h.grew.built, ht.contexts, h.grew.ext.trans hext⟩, ?_, ?_, ?_, ?_, hwhole, hreal⟩
  · intro n o ho
    rw [hpts] at ho
    rw [hlive n (hs.live n o ho), hplace o (hs.target_lt ho)]
    exact h.pointsTo n o ho
  · intro n hn
    rw [hrep]
    by_cases hlt : n < s.graph.slots.size
    · rw [hplace n hlt, hlive _ (hs.graph.isLive_rep n hlt)]
      exact h.rep n hlt
    · rw [hs.graph.rep_of_size_le n (Nat.le_of_not_lt hlt)]
      exact hV.alike_refl _
  · intro c hc
    have hc := hhas c hc
    rw [hlive _ (hs.graph.isLive_src hc), hlive _ (hs.graph.isLive_dst hc)]
    exact h.has c hc
  · intro n hn
    obtain ⟨hlt, hn⟩ := h.shifting n (hshift n hn)
    rw [hplace n hlt]
    exact ⟨Nat.lt_of_lt_of_le hlt hsize, hn⟩

theorem step (h : Sound V cg s) (hs : s.WellFormed) (hstep : Step active s t) : Sound V cg t := by
  have ht := hstep.wellFormed hs
  cases hstep with
  | tally stats => exact h.congr rfl fun _ => rfl
  | gain n objs hdue htidy => exact h.learned fun o ho => h.holds_of_due hV hs (hdue o ho)
  | link src dst e g hdue hok =>
      obtain ⟨hsrc, hdst⟩ := hdue.lt hs
      obtain ⟨r, g', hok', hnodes, -, -, -, hhas, -, -⟩ :=
        s.graph.addEdge_spec hs.graph.toIntact hsrc hdst .copy
      cases hok.symm.trans hok'
      have hflows := hV.flows_congr (h.rep src hsrc) (h.rep dst hdst) (h.flows_of_due hs hdue)
      obtain ⟨hgrew, hpoints, hrep, hedges, hshift, hwhole, hreal⟩ := h
      refine ⟨?_, ?_, ?_, ?_, ?_, ?_, ?_⟩
      all_goals simp only [graph_linked, hnodes.contexts, hnodes.rep, hnodes.size]
      · exact hgrew
      · intro n o ho
        rcases (mem_pointsTo_linked s g src dst).mp ho with ho | ⟨-, rfl, hsent⟩
        · exact hpoints n o ho
        · rw [hnodes.rep] at hsent ⊢
          exact hflows.2 _ (hpoints _ o hsent)
      · exact hrep
      · intro c hc
        rcases (hhas c).mp hc with hc | ⟨rfl, -⟩
        · exact hedges c hc
        · exact ⟨fun _ => hflows.1, fun hk => absurd hk Bool.false_ne_true, hflows.2⟩
      · simpa only [ConstraintGraph.isShifting, hnodes.shifting] using hshift
      · exact hwhole
      · exact hreal
  | grow c offset o key g hc hkind ho hkey hnot hnew hcontexts hgrown =>
      have hext : s.graph.contexts.Extends g.contexts := by
        rw [hcontexts]
        exact ContextGraph.extends_makeField _ hnew
      have hlt := (hs.target _ _ ho).1
      have hpass := (h.has c hc).passes
      rw [hkind] at hpass
      have hreal := ((hpass _ (h.pointsTo _ _ ho)).2 key ((h.grew.keyOf_iff hlt).mpr hkey)).1
      refine h.extend hV hs ht hext (fun _ => rfl) (fun c hc => ?_) (fun n => ?_) (fun n hn => ?_)
        (fun mem hmem => h.whole mem ?_) fun n hn => ?_
      · simpa only [ConstraintGraph.Has, ConstraintGraph.edge?, hgrown.edges] using hc
      · simp only [ConstraintGraph.rep, hgrown.reps]
      · simpa only [ConstraintGraph.isShifting, hgrown.shifting] using hn
      · rw [hcontexts] at hmem
        exact hmem
      · change V.real (g.contexts.place n)
        rw [hcontexts, ContextGraph.place_makeField]
        split
        · -- the key is new, so the field has no other place
          have hold : cg.fieldNodes[key]? = none := by
            cases hf : cg.fieldNodes[key]? with
            | none => rfl
            | some f => exact absurd (h.grew.ext.fieldNodes key f hf) (by simp [hnew])
          rwa [Place.ofKey, hold] at hreal
        · rename_i hold
          have hn : n < g.slots.size := hn
          rw [hgrown.size] at hn
          rw [← hs.graph.size_eq] at hold
          exact h.real n (Nat.lt_of_le_of_ne (Nat.lt_succ_iff.mp hn) hold)
  | widen o mem contexts hdue hpart hnew hok =>
      obtain ⟨changed, g', hok', -, hext, hnodes, -, hwhole, -, -⟩ :=
        ContextGraph.setFieldInsensitive_spec hs.contexts (hs.contexts.mem_lt o mem hpart)
      cases hok.symm.trans hok'
      refine h.extend hV hs ht hext (fun _ => rfl) (fun _ hc => hc) (fun _ => rfl) (fun _ hn => hn)
        (fun m hm => ?_) fun n hn => ?_
      · rcases (hwhole m).mp hm with hm | rfl
        · exact h.whole m hm
        · exact h.whole_of_due hdue hpart
      · have hreal := h.real n hn
        change V.real (contexts.place n)
        rwa [ContextGraph.place, hnodes]

theorem fuse (h : Sound V cg s) (hs : s.WellFormed) {r : NodeId} {subs : List NodeId}
    {members : IdSet} (hgroup : Group s r subs members) (hdue : FuseDue s r subs)
    (hfused : Fused s t r subs members) : Sound V cg t := by
  have hgraph := hfused.graph
  have hmoved : ∀ n, V.Alike (s.graph.contexts.place n)
      (s.graph.contexts.place (ConstraintGraph.redirect subs r n)) := by
    intro n
    rw [ConstraintGraph.redirect]
    split
    · exact h.alike_of_due hV hs hdue (by assumption)
    · exact hV.alike_refl _
  refine ⟨?_, ?_, ?_, ?_, ?_, ?_, ?_⟩
  all_goals rw [hgraph.contexts]
  · exact h.grew
  · intro n o ho
    obtain ⟨-, ho | ⟨rfl, m, hm, ho⟩⟩ := (hfused.pointsTo n o).mp ho
    · exact h.pointsTo n o ho
    · exact hV.holds_of_alike _ _ _ (h.alike_of_due hV hs hdue hm) (h.pointsTo m o ho)
  · intro n hn
    rw [hgraph.size] at hn
    rw [hgraph.rep_eq]
    exact hV.alike_trans (h.rep n hn) (hmoved _)
  · intro c hc
    obtain ⟨c₀, hc₀, hsurvives, rfl⟩ := (hgraph.has_iff c).mp hc
    by_cases hkind : c₀.kind = .addr
    · -- an edge that takes an address is not moved
      simp only [ConstraintGraph.Survives, hkind, ConstraintKind.edgeClass] at hsurvives
      simp only [Constraint.rename, ConstraintGraph.redirect, if_neg hsurvives.1,
        if_neg hsurvives.2]
      exact h.has c₀ hc₀
    · exact hV.admits_congr hkind (hmoved _) (hmoved _) (h.has c₀ hc₀)
  · intro n hn
    rw [hgraph.size]
    rcases (hgraph.isShifting_iff n).mp hn with
      hn | ⟨rfl, ⟨m, hm, hshift⟩ | ⟨c, hc, hclass, hout, hshift⟩⟩
    · exact h.shifting n hn
    · refine ⟨ConstraintGraph.isLive_lt hgroup.live, fun o ho => ?_⟩
      have hmn := h.alike_of_due hV hs hdue hm
      exact (h.shifting m hshift).2 o (hV.holds_of_alike _ _ o hmn.symm ho)
    · refine ⟨ConstraintGraph.isLive_lt hgroup.live, fun o ho => ?_⟩
      simp only [ConstraintGraph.Survives, hclass, Classical.not_imp, not_not] at hout
      obtain ⟨hsrc, hdst⟩ := hgroup.redirect_eq hs hc hout.2.1 hout.2.2
      have hsrc := hsrc ▸ hmoved c.src
      have hdst := hdst ▸ hmoved c.dst
      exact (h.has c hc).shifts hshift (hV.alike_trans hdst hsrc.symm).1 o
        (hV.holds_of_alike _ _ o hsrc.symm ho)
  · exact h.whole
  · exact fun n hn => h.real n (hgraph.size ▸ hn)

theorem act (h : Sound V cg s) (hs : s.WellFormed) (hact : Act s t) : Sound V cg t := by
  cases hact with
  | reset => exact h.congr rfl fun _ => rfl
  | start objs hobjs => exact h.congr rfl fun _ => rfl
  | turn hturn =>
      cases hturn with
      | queue w hlt hnodup => exact h.congr rfl fun _ => rfl
      | move hmove =>
          cases hmove with
          | step hstep => exact h.step hV hs hstep
          | clear => exact h.congr rfl fun _ => rfl
          | record facts hfacts => exact h.congr rfl hfacts
          | collapse hcollapse =>
              cases hcollapse with
              | tally stats => exact h.congr rfl fun _ => rfl
              | fuse r subs members hgroup hdue hfused => exact h.fuse hV hs hgroup hdue hfused
              | spill n f hf hwhole hnew =>
                  have hlearned : Sound V cg (s.learned n {s.graph.contexts.home f}) := by
                    refine h.learned fun o ho => ?_
                    rw [IdSet.mem_singleton.mp ho]
                    exact h.holds_home hV hs (h.pointsTo n f hf) hwhole
                  exact hlearned.congr rfl fun _ => rfl

/-- Whatever a run finds out is so in a model. -/
theorem acts (h : Sound V cg s) (hs : s.WellFormed) (hacts : Acts s t) : Sound V cg t := by
  suffices hboth : t.WellFormed ∧ Sound V cg t from hboth.2
  induction hacts with
  | refl => exact ⟨hs, h⟩
  | tail _ hact ih => exact ⟨hact.wellFormed ih.1, ih.2.act hV ih.1 hact⟩

end Sound

theorem sound_new (hV : V.IsModel cg) (hcg : cg.WellBuilt) {g : ConstraintGraph C}
    (hg : g.Spans cg cg.edges.toList) (strategy : Strategy) : Sound V cg (new g strategy) := by
  have hgrew : cg.Grew cg := ⟨hcg, hcg.toWellFormed, .refl cg⟩
  have hgraph : (new g strategy).graph = g := rfl
  refine ⟨?_, fun n o ho => absurd ho (not_mem_pointsTo_new g strategy n o), ?_, ?_, ?_, ?_, ?_⟩
  all_goals rw [hgraph, hg.contexts]
  · exact hgrew
  · intro n hn
    rw [hg.rep_eq]
    exact hV.alike_refl _
  · intro c hc
    obtain ⟨e, he, rfl, -⟩ := (hg.has_iff c).mp hc
    simp only [hcg.place_eq]
    exact hV.edges e (Array.mem_toList_iff.mp he)
  · intro n hn
    obtain ⟨e, he, rfl, heq, hshift⟩ := (hg.isShifting_iff n).mp hn
    have he := Array.mem_toList_iff.mp he
    refine ⟨?_, fun o ho => ?_⟩
    · rw [hg.consistent.size_eq, hg.contexts]
      exact (hcg.edges_lt e he).1
    · rw [hcg.place_eq] at ho
      have hedge := hV.edges e he
      rw [heq] at hedge
      exact hedge.shifts hshift (hV.below_refl _) o ho
  · exact hV.whole
  · intro n hn
    rw [hg.consistent.size_eq, hg.contexts] at hn
    rw [hcg.place_eq]
    exact hV.real n hn

theorem Solved.sound {g : ConstraintGraph C} {strategy : Strategy} (h : Solved cg g strategy t)
    (hcg : cg.WellBuilt) (hV : V.IsModel cg) : Sound V cg t :=
  (sound_new hV hcg h.spans strategy).acts hV (wellFormed_new hcg h.spans strategy) h.acts

end Solver

end PointerAnalysis
