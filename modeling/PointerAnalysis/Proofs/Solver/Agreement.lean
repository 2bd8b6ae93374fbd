import PointerAnalysis.Proofs.Solver.Fixpoint
import PointerAnalysis.Proofs.Solver.Model

/-!
Agreement of strategies. The end of a run is itself a model of the context graph, as long as no
projection at offset zero has been dropped because its ends were merged. A run with another
strategy is sound in this model, so it finds nothing more, and neither does it merge the ends of
such a projection. Hence its end is a model, too, and the two runs agree on everything but the
numbers of made fields.
-/

namespace PointerAnalysis

namespace ContextGraph

variable {C : Type} [Context C] {cg g : ContextGraph C} {x : Place C} {m m' n : NodeId}
  {mem : MemObjId} {offset : Offset} {key : FieldKey C}

/-- The node by which a place is represented in a graph: its own, or that of the whole object. -/
inductive Denotes (cg g : ContextGraph C) (x : Place C) (m : NodeId) : Prop where
  | self (hm : m < g.nodes.size) (hw : ¬ g.WholeAt m) (hplace : g.place m = x)
  | base (mem : MemObjId) (hpart : x.PartOf cg mem) (hw : g.IsWhole mem) (hb : x.base cg = .inl m)

/-- In a graph every node is represented. -/
theorem Grew.denotes (hg : Grew cg g) (hn : n < g.nodes.size) :
    ∃ m, Denotes cg g (g.place n) m ∧ (m = n ∨ g.WholeAt n ∧ m = g.home n) := by
  by_cases hw : g.WholeAt n
  · obtain ⟨mem, hpart, hwhole⟩ := hw
    refine ⟨g.home n, .base mem ?_ hwhole (hg.base_place hpart), .inr ⟨⟨mem, hpart, hwhole⟩, rfl⟩⟩
    exact (hg.partOf_iff hn).mpr hpart
  · exact ⟨n, .self hn hw rfl, .inl rfl⟩

namespace Denotes

theorem partOf_iff (h : Denotes cg g x m) (hg : Grew cg g) : g.PartOf m mem ↔ x.PartOf cg mem := by
  cases h with
  | self hm hw hplace => rw [← hplace, hg.partOf_iff hm]
  | base mem' hpart hw hb =>
      have hm := hg.ext.partOf (Place.base_spec hg.built.toWellFormed hpart hb).1
      constructor
      · exact fun h => hm.unique h ▸ hpart
      · exact fun h => hpart.unique h ▸ hm

/-- A field of an object that does not tell its fields apart is represented by the whole object. -/
theorem base_eq (h : Denotes cg g x m) (hg : Grew cg g) (hpart : x.PartOf cg mem)
    (hw : g.IsWhole mem) : x.base cg = .inl m := by
  cases h with
  | self hm hnot hplace =>
      rw [← hplace, hg.partOf_iff hm] at hpart
      exact absurd ⟨mem, hpart, hw⟩ hnot
  | base mem' hpart' hw' hb => exact hb

theorem place_eq (h : Denotes cg g x m) (hw : ∀ mem, x.PartOf cg mem → ¬ g.IsWhole mem) :
    g.place m = x := by
  cases h with
  | self hm hnot hplace => exact hplace
  | base mem hpart hw' hb => exact absurd hw' (hw mem hpart)

theorem unique (h : Denotes cg g x m) (h' : Denotes cg g x m') (hg : Grew cg g) : m = m' := by
  cases h with
  | base mem hpart hw hb => exact Sum.inl.inj (hb.symm.trans (h'.base_eq hg hpart hw))
  | self hm hw hplace =>
      cases h' with
      | self hm' hw' hplace' => exact hg.place_inj hm hm' (hplace.trans hplace'.symm)
      | base mem hpart hw' hb =>
          have hself : Denotes cg g x m := .self hm hw hplace
          exact Sum.inl.inj ((hself.base_eq hg hpart hw').symm.trans hb)

theorem home_eq (h : Denotes cg g x m) (hg : Grew cg g) (hpart : x.PartOf cg mem)
    (hw : g.IsWhole mem) : g.home m = m := by
  have hcg := hg.built.toWellFormed
  obtain ⟨hm, hhome⟩ := Place.base_spec hcg hpart (h.base_eq hg hpart hw)
  rw [hg.ext.home_eq hcg hg.wellFormed hm.lt, hhome]

theorem of_base (h : Denotes cg g x m) (hg : Grew cg g) (hpart : x.PartOf cg mem)
    (hw : g.IsWhole mem) : Denotes cg g (x.base cg) m := by
  have hb := h.base_eq hg hpart hw
  obtain ⟨hm, hhome⟩ := Place.base_spec hg.built.toWellFormed hpart hb
  rw [hb]
  exact .base mem hm hw (by rw [Place.base, hhome])

theorem of_key (h : Denotes cg g x m) (hg : Grew cg g) (hkey : x.KeyOf cg offset key)
    (hw : g.IsWhole key.memObj) : Denotes cg g (.ofKey cg key) m := by
  have hcg := hg.built.toWellFormed
  have hb := h.base_eq hg hkey.partOf hw
  exact .base key.memObj (Place.partOf_ofKey hcg key) hw (Place.base_ofKey hcg hkey hb)

theorem inert (h : Denotes cg g x m) (hg : Grew cg g) (hm : g.Inert m) : x.Inert cg := by
  rcases hm with rfl | ⟨mem, obj, hpart, hobj, hattr⟩
  · cases h with
    | self hm hw hplace =>
        rw [← hplace]
        exact (hg.inert_iff hm).mpr (.inl rfl)
    | base mem hpart hw hb =>
        have hm := (Place.base_spec hg.built.toWellFormed hpart hb).1
        exact absurd hm (hg.built.special _ mem (by decide))
  · obtain ⟨obj, whole, hobj', rfl⟩ := hg.ext.memObj_eq hobj
    exact .inr ⟨mem, obj, (h.partOf_iff hg).mp hpart, hobj', hattr⟩

end Denotes

/-- A name for a node that does not depend on the numbers of made fields: an object that does not
tell its fields apart goes by the node of the whole object, any other node by its place. -/
def name (g : ContextGraph C) (n : NodeId) : Place C :=
  match g.memObjOf n with
  | .ok (some obj) => if obj.fieldInsensitive then .inl (g.home n) else g.place n
  | _ => g.place n

theorem name_of_wholeAt (hg : g.WellFormed) (h : g.WholeAt n) : g.name n = .inl (g.home n) := by
  obtain ⟨mem, hpart, obj, hobj, hwhole⟩ := h
  obtain ⟨r, hr, hiff⟩ := memObjOf_spec (hg.mem_lt n)
  rw [(hiff obj).mpr ⟨mem, hpart, hobj⟩] at hr
  simp [name, hr, hwhole]

theorem name_of_not_wholeAt (hg : g.WellFormed) (h : ¬ g.WholeAt n) : g.name n = g.place n := by
  obtain ⟨r, hr, hiff⟩ := memObjOf_spec (hg.mem_lt n)
  cases r with
  | none => simp [name, hr]
  | some obj =>
      obtain ⟨mem, hpart, hobj⟩ := (hiff obj).mp rfl
      have hwhole : obj.fieldInsensitive = false := by
        by_contra hw
        exact h ⟨mem, hpart, obj, hobj, by simpa using hw⟩
      simp [name, hr, hwhole]

/-- A node of one graph and the node that represents it in another one have the same name. -/
theorem Denotes.name_eq {g' : ContextGraph C} {o : NodeId} (h : Denotes cg g (g'.place o) m)
    (hg : Grew cg g) (hg' : Grew cg g') (hwhole : ∀ mem, g'.IsWhole mem ↔ g.IsWhole mem)
    (ho : o < g'.nodes.size) : g'.name o = g.name m := by
  by_cases hw : g'.WholeAt o
  · obtain ⟨mem, hpart, hw⟩ := id hw
    have hplace := (hg'.partOf_iff ho).mpr hpart
    have hw' := (hwhole mem).mp hw
    have hbase := hg'.base_place hpart
    rw [h.base_eq hg hplace hw'] at hbase
    rw [name_of_wholeAt hg'.wellFormed ⟨mem, hpart, hw⟩, ← hbase,
      name_of_wholeAt hg.wellFormed ⟨mem, (h.partOf_iff hg).mpr hplace, hw'⟩,
      h.home_eq hg hplace hw']
  · have hnot : ¬ g.WholeAt m := by
      rintro ⟨mem, hpart, hw'⟩
      rw [h.partOf_iff hg, hg'.partOf_iff ho] at hpart
      exact hw ⟨mem, hpart, (hwhole mem).mpr hw'⟩
    rw [name_of_not_wholeAt hg'.wellFormed hw, name_of_not_wholeAt hg.wellFormed hnot]
    refine (h.place_eq fun mem hpart hw' => hw ⟨mem, ?_, (hwhole mem).mpr hw'⟩).symm
    exact (hg'.partOf_iff ho).mp hpart

end ContextGraph

namespace Solver

open ConstraintGraph (constraintOf)

variable {C : Type} [Context C] {s t : Solver C} {cg : ContextGraph C} {x y o : Place C}
  {n m r r' : NodeId}

/-- The node that keeps what a place holds. -/
def KeptAt (cg : ContextGraph C) (t : Solver C) (x : Place C) (r : NodeId) : Prop :=
  ∃ n, cg.Denotes t.graph.contexts x n ∧ t.graph.rep n = r

/-- The end of a run, as a valuation. -/
def valuation (cg : ContextGraph C) (t : Solver C) : Valuation C where
  holds x o := ∃ r m, KeptAt cg t x r ∧ cg.Denotes t.graph.contexts o m ∧ m ∈ t.facts.pointsTo r
  below x y := x = y ∨ ∃ r r', KeptAt cg t x r ∧ KeptAt cg t y r' ∧
    Components.Path t.graph.directEnds r r'
  whole := t.graph.contexts.IsWhole
  real _ := True

/-- The names of the objects that a node points to. -/
def names (s : Solver C) (n : NodeId) : Set (Place C) :=
  {x | ∃ o ∈ s.pointsTo n, s.graph.contexts.name o = x}

/-- No projection at offset zero has got both its ends merged. -/
def Apart (cg : ContextGraph C) (t : Solver C) : Prop :=
  ∀ e ∈ cg.edges, e.kind = .field → e.offset.isZero → t.graph.rep e.src ≠ t.graph.rep e.dst

instance (cg : ContextGraph C) (t : Solver C) : Decidable (Apart cg t) :=
  inferInstanceAs (Decidable (∀ e ∈ cg.edges, _ → _ → _))

/-- The end of a run that has done all that the edges of a context graph ask for. -/
structure Final (cg : ContextGraph C) (t : Solver C) : Prop extends Complete t where
  grew : cg.Grew t.graph.contexts
  reflects : Reflects cg t
  seeded : Seeded cg t
  apart : Apart cg t

theorem KeptAt.unique (h : KeptAt cg t x r) (h' : KeptAt cg t x r')
    (hg : cg.Grew t.graph.contexts) : r = r' := by
  obtain ⟨n, hn, rfl⟩ := h
  obtain ⟨m, hm, rfl⟩ := h'
  rw [hn.unique hm hg]

namespace Final

variable (h : Final cg t)

include h

theorem keptAt (hn : n < cg.nodes.size) : KeptAt cg t (.inl n) (t.graph.rep n) := by
  have hlt := Nat.lt_of_lt_of_le hn h.grew.ext.size_le
  obtain ⟨m, hm, hrep⟩ := h.grew.denotes hlt
  rw [h.grew.place_of_lt hn] at hm
  refine ⟨m, hm, ?_⟩
  rcases hrep with rfl | ⟨hw, rfl⟩
  · rfl
  · exact (h.folded.rep_home hw).symm

theorem denotes_of_holds (hn : n < cg.nodes.size) (ho : (valuation cg t).holds (.inl n) o) :
    ∃ m, cg.Denotes t.graph.contexts o m ∧ m ∈ t.pointsTo n := by
  obtain ⟨r, m, hr, hm, hin⟩ := ho
  rw [hr.unique (h.keptAt hn) h.grew] at hin
  exact ⟨m, hm, hin⟩

/-- What a linked node holds flows on. -/
theorem flows_of_linked {a b : NodeId} (hx : KeptAt cg t x (t.graph.rep a))
    (hy : KeptAt cg t y (t.graph.rep b)) (hlink : t.graph.Linked a b) :
    (valuation cg t).Flows x y := by
  refine ⟨.inr ⟨_, _, hx, hy, ?_⟩, ?_⟩
  · rcases hlink with heq | hc
    · rw [heq]
    · exact .single (h.wellFormed.graph.toIndexed.mem_directEnds.mpr ⟨_, hc, rfl, rfl, rfl⟩)
  · rintro o ⟨r, m, hr, hm, hin⟩
    rw [hr.unique hx h.grew] at hin
    exact ⟨_, m, hy, hm, h.subset_of_linked hlink m hin⟩

theorem eq_of_alike (hx : KeptAt cg t x r) (hy : KeptAt cg t y r')
    (hxy : (valuation cg t).Alike x y) : r = r' := by
  obtain ⟨hto | ⟨a, b, ha, hb, hto⟩, hfrom⟩ := hxy
  · subst hto
    exact hx.unique hy h.grew
  · rcases hfrom with hfrom | ⟨b', a', hb', ha', hfrom⟩
    · subst hfrom
      exact hx.unique hy h.grew
    · rw [hb'.unique hb h.grew, ha'.unique ha h.grew] at hfrom
      rw [hx.unique ha h.grew, hy.unique hb h.grew]
      exact h.acyclic a b ⟨hto, hfrom⟩

/-! ## Edges -/

section edges

variable {e : ContextEdge} (he : e ∈ cg.edges)

include he

theorem src_keptAt : KeptAt cg t (.inl e.src) (t.graph.rep e.src) :=
  h.keptAt (h.grew.built.edges_lt e he).1

theorem dst_keptAt : KeptAt cg t (.inl e.dst) (t.graph.rep e.dst) :=
  h.keptAt (h.grew.built.edges_lt e he).2

/-- A direct edge is a step from the node of its source to that of its target. -/
theorem below_of_direct (hclass : (ConstraintKind.ofEdge e.kind e.offset).edgeClass = .direct) :
    (valuation cg t).below (.inl e.src) (.inl e.dst) := by
  refine .inr ⟨_, _, h.src_keptAt he, h.dst_keptAt he, ?_⟩
  rcases h.reflects.has_or_eq he
    (fun hk => by rw [hk] at hclass; cases hclass) with hc | ⟨-, heq, -⟩
  · exact .single (h.wellFormed.graph.toIndexed.mem_directEnds.mpr ⟨_, hc, hclass, rfl, rfl⟩)
  · rw [heq]

/-- A projection at a fixed offset has found the fields, whether it is still a constraint or not. -/
theorem exists_projected (hkind : e.kind = .field) {m : NodeId} (hm : m ∈ t.pointsTo e.src) :
    ∃ f ∈ t.facts.pointsTo (t.graph.rep e.dst), t.graph.contexts.Projects m e.offset f ∧
      (e.offset.isZero → t.graph.contexts.home m = m → t.graph.Linked m f) := by
  have hfield : ConstraintKind.ofEdge e.kind e.offset = .field e.offset := by rw [hkind]; rfl
  rcases h.reflects.has_or_eq he (by rw [hfield]; exact nofun) with hc | ⟨-, heq, -⟩
  · rw [hfield] at hc
    exact h.passes _ hc m hm
  · -- the edge was dropped, so it shifts and the objects have become whole
    have hnz : ¬ e.offset.isZero := fun hz => h.apart e he hkind hz heq
    have hshift : (ConstraintKind.ofEdge e.kind e.offset).isShifting := by
      rw [hfield]
      simpa [ConstraintKind.isShifting] using hnz
    rcases h.reflects.home_mem_of_shifting he h.folded h.whole hshift heq hm with
      ⟨hnone, hin⟩ | ⟨hw, hin⟩
    · exact ⟨m, hin, .self hnone rfl, fun hz => absurd hz hnz⟩
    · exact ⟨_, hin, h.wellFormed.contexts.projects_home hw _, fun hz => absurd hz hnz⟩

/-- A projection at an unknown offset has made its objects whole, whether it is still a
constraint or not. -/
theorem exists_widened (hkind : e.kind = .anyField) {m : NodeId} (hm : m ∈ t.pointsTo e.src) :
    (∀ mem, ¬ t.graph.contexts.PartOf m mem) ∧ m ∈ t.facts.pointsTo (t.graph.rep e.dst) ∨
      t.graph.contexts.WholeAt m ∧
        t.graph.contexts.home m ∈ t.facts.pointsTo (t.graph.rep e.dst) := by
  have hany : ConstraintKind.ofEdge e.kind e.offset = .anyField := by rw [hkind]; rfl
  rcases h.reflects.has_or_eq he (by rw [hany]; exact nofun) with hc | ⟨-, heq, -⟩
  · rw [hany] at hc
    refine (h.passes _ hc m hm).imp_right ?_
    rintro ⟨hw, f, hf, hfw, hhome⟩
    exact ⟨hw, hhome ▸ h.folded.home_mem hf hfw⟩
  · exact h.reflects.home_mem_of_shifting he h.folded h.whole (by rw [hany]; rfl) heq hm

theorem passes_field (hkind : e.kind = .field) :
    (valuation cg t).Passes cg (.inl e.src) (.inl e.dst) (.field e.offset) := by
  intro o ho
  obtain ⟨hsrc, hdst⟩ := h.grew.built.edges_lt e he
  obtain ⟨m, hom, hm⟩ := h.denotes_of_holds hsrc ho
  obtain ⟨f, hf, hproj, hlink⟩ := h.exists_projected he hkind hm
  have hlt := (h.wellFormed.target _ _ hm).1
  have hto := h.dst_keptAt he
  have hpart : ∀ mem, t.graph.contexts.PartOf m mem ↔ o.PartOf cg mem :=
    fun _ => hom.partOf_iff h.grew
  refine ⟨fun hnone => ?_, fun key hkey => ⟨trivial, ?_⟩⟩
  · have hnone : ∀ mem, ¬ t.graph.contexts.PartOf m mem := fun mem hmem =>
      hnone mem ((hpart mem).mp hmem)
    cases hproj with
    | self _ hfm => exact ⟨_, m, hto, hom, hfm ▸ hf⟩
    | whole hw _ _ => exact hw.elim fun mem hw => absurd hw.1 (hnone mem)
    | field key hkey _ => exact absurd hkey.partOf (hnone _)
  · by_cases hw : t.graph.contexts.IsWhole key.memObj
    · -- the object and all its fields are represented by the same node
      have hfield := hom.of_key h.grew hkey hw
      have hself := hom.home_eq h.grew hkey.partOf hw
      have hwm : t.graph.contexts.WholeAt m := ⟨_, (hpart _).mpr hkey.partOf, hw⟩
      obtain ⟨hwf, hhome⟩ := hproj.home_of_wholeAt h.wellFormed.contexts hwm
      have hin := h.folded.home_mem hf hwf
      rw [hhome, hself] at hin
      refine ⟨⟨_, m, hto, hfield, hin⟩, fun _ _ => ?_⟩
      exact h.flows_of_linked ⟨m, hom, rfl⟩ ⟨m, hfield, rfl⟩ (.inl rfl)
    · have hplace := hom.place_eq fun mem hmem hwhole => hw (hmem.unique hkey.partOf ▸ hwhole)
      rw [← hplace, h.grew.keyOf_iff hlt] at hkey
      cases hproj with
      | self hnone _ => exact absurd hkey.partOf (hnone _)
      | whole hwm _ _ =>
          obtain ⟨mem, hmem, hwhole⟩ := hwm
          exact absurd (hmem.unique hkey.partOf ▸ hwhole) hw
      | field key' hkey' hreg =>
          cases hkey.unique hkey'
          have hfpart := (h.wellFormed.contexts.home_of_keyOf hkey hreg).1
          have hfield : cg.Denotes t.graph.contexts (.ofKey cg key) f := by
            refine .self hfpart.lt ?_ (h.grew.place_field hreg)
            rintro ⟨mem, hmem, hwhole⟩
            exact hw (hmem.unique hfpart ▸ hwhole)
          refine ⟨⟨_, f, hto, hfield, hf⟩, fun hzero hbase => ?_⟩
          have hhome : t.graph.contexts.home m = m := by
            refine h.grew.place_inj (h.wellFormed.contexts.home_lt hlt) hlt ?_
            rw [h.grew.place_home hlt, hplace, hbase]
          exact h.flows_of_linked ⟨m, hom, rfl⟩ ⟨f, hfield, rfl⟩ (hlink hzero hhome)

theorem passes_anyField (hkind : e.kind = .anyField) :
    (valuation cg t).Passes cg (.inl e.src) (.inl e.dst) .anyField := by
  intro o ho
  obtain ⟨hsrc, hdst⟩ := h.grew.built.edges_lt e he
  obtain ⟨m, hom, hm⟩ := h.denotes_of_holds hsrc ho
  have hto := h.dst_keptAt he
  have hpart : ∀ mem, t.graph.contexts.PartOf m mem ↔ o.PartOf cg mem :=
    fun _ => hom.partOf_iff h.grew
  rcases h.exists_widened he hkind hm with ⟨hnone, hin⟩ | ⟨⟨mem, hmem, hw⟩, hin⟩
  · exact ⟨fun _ => ⟨_, m, hto, hom, hin⟩,
      fun mem hmem => absurd ((hpart mem).mpr hmem) (hnone mem)⟩
  · refine ⟨fun hnone => absurd ((hpart mem).mp hmem) (hnone mem), fun mem' hmem' => ?_⟩
    cases hmem.unique ((hpart mem').mpr hmem')
    rw [hom.home_eq h.grew hmem' hw] at hin
    exact ⟨hw, _, m, hto, hom.of_base h.grew hmem' hw, hin⟩

theorem passes_edge :
    (valuation cg t).Passes cg (.inl e.src) (.inl e.dst) (.ofEdge e.kind e.offset) := by
  obtain ⟨hsrc, hdst⟩ := h.grew.built.edges_lt e he
  have hto := h.dst_keptAt he
  have hpassed := h.passedBut fun _ => False
  cases hkind : ConstraintKind.ofEdge e.kind e.offset with
  | addr =>
      obtain ⟨k, hk, heq⟩ := h.grew.denotes (Nat.lt_of_lt_of_le hsrc h.grew.ext.size_le)
      rw [h.grew.place_of_lt hsrc] at hk
      have hin := h.seeded e he (ofEdge_eq_addr hkind)
      refine ⟨_, k, hto, hk, ?_⟩
      rcases heq with rfl | ⟨hw, rfl⟩
      · exact hin
      · exact h.folded.home_mem hin hw
  | copy => exact (h.flows_of_linked (h.src_keptAt he) hto (h.reflects.linked_of_copy he hkind)).2
  | load =>
      intro o ho hinert
      obtain ⟨m, hom, hm⟩ := h.denotes_of_holds hsrc ho
      have hinert : ¬ t.graph.contexts.Inert m := fun hm => hinert (hom.inert h.grew hm)
      have hlink := h.reflects.linked_of_load he h.wellFormed hpassed hkind hm hinert
      exact h.flows_of_linked ⟨m, hom, rfl⟩ hto hlink
  | store =>
      intro o ho hinert
      obtain ⟨m, hom, hm⟩ := h.denotes_of_holds hdst ho
      have hinert : ¬ t.graph.contexts.Inert m := fun hm => hinert (hom.inert h.grew hm)
      have hlink := h.reflects.linked_of_store he h.wellFormed hpassed hkind hm hinert
      exact h.flows_of_linked (h.src_keptAt he) ⟨m, hom, rfl⟩ hlink
  | field offset =>
      obtain ⟨hfield, rfl⟩ := ofEdge_eq_field hkind
      exact h.passes_field he hfield
  | anyField => exact h.passes_anyField he (ofEdge_eq_anyField hkind)

end edges

/-- The end of a run is a model. -/
theorem isModel : (valuation cg t).IsModel cg where
  below_refl x := .inl rfl
  below_trans := by
    rintro x y z (rfl | ⟨a, b, ha, hb, hab⟩) hyz
    · exact hyz
    · rcases hyz with rfl | ⟨b', c, hb', hc, hbc⟩
      · exact .inr ⟨a, b, ha, hb, hab⟩
      · cases hb.unique hb' h.grew
        exact .inr ⟨a, c, ha, hc, hab.trans hbc⟩
  holds_of_alike := by
    rintro x y o hxy ⟨r, m, hr, hm, hin⟩
    obtain ⟨rfl | ⟨a, b, ha, hb, hab⟩, -⟩ := id hxy
    · exact ⟨r, m, hr, hm, hin⟩
    · cases h.eq_of_alike hr hb hxy
      exact ⟨r, m, hb, hm, hin⟩
  fold_below x mem _ hpart hw := by
    cases hb : x.base cg with
    | inl b =>
        have hx : cg.Denotes t.graph.contexts x b := .base mem hpart hw hb
        have hbase := hx.of_base h.grew hpart hw
        rw [hb] at hbase
        exact ⟨(h.flows_of_linked ⟨b, hx, rfl⟩ ⟨b, hbase, rfl⟩ (.inl rfl)).1,
          (h.flows_of_linked ⟨b, hbase, rfl⟩ ⟨b, hx, rfl⟩ (.inl rfl)).1⟩
    | inr key =>
        rw [Place.eq_of_base_eq_inr hb]
        exact ⟨.inl rfl, .inl rfl⟩
  fold_holds := by
    rintro x o mem - hpart hw ⟨r, m, hr, hm, hin⟩
    exact ⟨r, m, hr, hm.of_base h.grew hpart hw, hin⟩
  real _ _ := trivial
  whole _ hw := h.grew.ext.isWhole hw
  edges e he := by
    refine ⟨h.below_of_direct he, fun hshift hback o ho mem hmem => ?_, h.passes_edge he⟩
    have hclass := ConstraintKind.edgeClass_of_isShifting hshift
    have heq :=
      h.eq_of_alike (h.src_keptAt he) (h.dst_keptAt he) ⟨h.below_of_direct he hclass, hback⟩
    obtain ⟨m, hom, hm⟩ := h.denotes_of_holds (h.grew.built.edges_lt e he).1 ho
    exact h.whole _ (h.reflects.isShifting_of_eq he hshift heq) m hm mem
      ((hom.partOf_iff h.grew).mpr hmem)

/-! ## Other runs -/

section other

variable (hs : s.WellFormed) (hsound : Sound (valuation cg t) cg s)

include hs hsound

/-- A sound run does not merge the ends of a projection at offset zero either. -/
theorem apart_of_sound : Apart cg s := by
  intro e he hkind hzero heq
  have hend : ∀ n, n < cg.nodes.size →
      (valuation cg t).Alike (.inl n) (s.graph.contexts.place (s.graph.rep n)) := fun n hn => by
    rw [← hsound.grew.place_of_lt hn]
    refine hsound.rep n ?_
    rw [hs.graph.size_eq]
    exact Nat.lt_of_lt_of_le hn hsound.grew.ext.size_le
  obtain ⟨hsrc, hdst⟩ := h.grew.built.edges_lt e he
  have halike := h.isModel.alike_trans (hend _ hsrc) (heq ▸ (hend _ hdst).symm)
  exact h.apart e he hkind hzero (h.eq_of_alike (h.src_keptAt he) (h.dst_keptAt he) halike)

/-- What a sound run finds, the other one has found under the same name. -/
theorem names_subset (hwhole : ∀ mem, s.graph.contexts.IsWhole mem ↔ t.graph.contexts.IsWhole mem)
    (hn : n < cg.nodes.size) : s.names n ⊆ t.names n := by
  rintro _ ⟨o, ho, rfl⟩
  have hlt : n < s.graph.slots.size := by
    rw [hs.graph.size_eq]
    exact Nat.lt_of_lt_of_le hn hsound.grew.ext.size_le
  have holds := hsound.holds_of_mem h.isModel hlt ho
  rw [hsound.grew.place_of_lt hn] at holds
  obtain ⟨m, hm, hin⟩ := h.denotes_of_holds hn holds
  exact ⟨m, hin, (hm.name_eq h.grew hsound.grew hwhole (hs.target _ _ ho).1).symm⟩

end other

end Final

/-! ## Programs whose projections at offset zero stay apart -/

/-- `q = &a; r = &q[0]; s = &q[1]; *r = q; t = *s`, with the node 4 for the object and 5, 6, 7 and 8
for the pointers. -/
def splitting : AssignmentGraph :=
  let g := (AssignmentGraph.empty.addObject .constant 2).2
  let g := (g.addValue .constant).2
  let g := (g.addValue .constant).2
  let g := (g.addValue .constant).2
  let g := (g.addValue .constant).2
  let g := (g.addEdge .addr 4 5).2
  let g := (g.addFieldEdge 5 6 0).2
  let g := (g.addFieldEdge 5 7 ⟨1⟩).2
  let g := (g.addEdge .store 5 6).2
  (g.addEdge .load 7 8).2

theorem built_splitting : splitting.Built :=
  have h := (AssignmentGraph.Built.empty.addObject .constant 2).addValue .constant
  have h := ((h.addValue .constant).addValue .constant).addValue .constant
  have h := (h.pushEdge .addr 4 5 0 none).pushEdge .field 5 6 0 none
  have h := (h.pushEdge .field 5 7 ⟨1⟩ none).pushEdge .store 5 6 0 none
  h.pushEdge .load 7 8 0 none

section solved

variable {g : ConstraintGraph C} {strategy : Strategy}

theorem Solved.final (h : Solved cg g strategy t) (hcg : cg.WellBuilt) (hapart : Apart cg t) :
    Final cg t where
  toComplete := h.complete fun _ n hn => by
    obtain ⟨e, he, ⟨hkind, hzero, hself⟩, -⟩ := h.exists_stutters hn
    exact hapart e he hkind hzero (congrArg t.graph.rep hself)
  grew := ⟨hcg, h.wellFormed.contexts, h.reflects.contexts⟩
  reflects := h.reflects
  seeded := h.seeded
  apart := hapart

end solved

section results

variable {p : AssignmentGraph} {policy : ContextPolicy C} {fieldSensitive : Bool}

/-- If one strategy ends without having merged the ends of a projection at offset zero, then so do
all, and all strategies end with the same objects that do not tell their fields apart and the same
points-to sets, but for the numbers of made fields. -/
theorem agree_of_apart (hp : p.Built) (hcheck : p.check = .ok ())
    (hbuild : ContextGraph.build policy p fieldSensitive = .ok cg) {strategy : Strategy}
    (ht : Outcome cg strategy t) (hapart : Apart cg t) (strategy' : Strategy) :
    ∃ s, Outcome cg strategy' s ∧ Apart cg s ∧
      (∀ mem, s.graph.contexts.IsWhole mem ↔ t.graph.contexts.IsWhole mem) ∧
      ∀ n < cg.nodes.size, s.names n = t.names n := by
  obtain ⟨hcg, -⟩ := ContextGraph.build_wellBuilt hp hcheck hbuild
  obtain ⟨_, t', ht', hsolved⟩ := exists_outcome hcg strategy
  obtain rfl := ht.unique ht'
  have hfinal := hsolved.final hcg hapart
  obtain ⟨_, s, hs, hsolved'⟩ := exists_outcome hcg strategy'
  have hsound := hsolved'.sound hcg hfinal.isModel
  have hfinal' := hsolved'.final hcg (hfinal.apart_of_sound hsolved'.wellFormed hsound)
  have hsound' := hsolved.sound hcg hfinal'.isModel
  have hwhole : ∀ mem, s.graph.contexts.IsWhole mem ↔ t.graph.contexts.IsWhole mem := fun mem =>
    ⟨hsound.whole mem, hsound'.whole mem⟩
  refine ⟨s, hs, hfinal'.apart, hwhole, fun n hn => Set.Subset.antisymm ?_ ?_⟩
  · exact hfinal.names_subset hsolved'.wellFormed hsound hwhole hn
  · exact hfinal'.names_subset hsolved.wellFormed hsound' (fun mem => (hwhole mem).symm) hn

theorem agree_of_apart_splitting :
    ∃ cg s t, ContextGraph.build insensitive splitting true = .ok cg ∧ Outcome cg .baseline t ∧
      Apart cg t ∧ Outcome cg .waveDiff s ∧ Apart cg s ∧
      (∀ mem, s.graph.contexts.IsWhole mem ↔ t.graph.contexts.IsWhole mem) ∧
      ∀ n < cg.nodes.size, s.names n = t.names n := by
  have hcheck : splitting.check = .ok () := by decide +kernel
  have hbuild : (outcome? insensitive splitting true .baseline).any
      (fun r => decide (Apart r.1 r.2)) = true := by
    decide +kernel
  obtain ⟨cg, t, hbuild, ht, hapart⟩ := exists_outcome_of_any hbuild
  have hapart := of_decide_eq_true hapart
  obtain ⟨s, hs⟩ := agree_of_apart built_splitting hcheck hbuild ht hapart .waveDiff
  exact ⟨cg, s, t, hbuild, ht, hapart, hs⟩

/-- The baseline strategy lets `y` point to the first field of `a`, the one that sweeps does not. -/
theorem not_agree_selfProjecting :
    ∃ cg s t, ContextGraph.build insensitive selfProjecting true = .ok cg ∧
      Outcome cg .baseline s ∧ Outcome cg .wave t ∧ s.names 8 ≠ t.names 8 := by
  have hs : (outcome? insensitive selfProjecting true .baseline).any (fun r =>
      (r.2.pointsTo 8).toList.any fun o => (r.2.graph.contexts.name o).isRight) = true := by
    decide +kernel
  have ht : (outcome? insensitive selfProjecting true .wave).any (fun r =>
      (r.2.pointsTo 8).toList.all fun o => (r.2.graph.contexts.name o).isLeft) = true := by
    decide +kernel
  obtain ⟨cg, s, hbuild, hs, hfirst⟩ := exists_outcome_of_any hs
  obtain ⟨cg', t, hbuild', ht, hnone⟩ := exists_outcome_of_any ht
  cases hbuild.symm.trans hbuild'
  refine ⟨cg, s, t, hbuild, hs, ht, fun heq => ?_⟩
  obtain ⟨o, ho, hright⟩ := List.any_eq_true.mp hfirst
  obtain ⟨o', ho', hname⟩ : s.graph.contexts.name o ∈ t.names 8 := heq ▸ ⟨o, ho, rfl⟩
  have hleft := List.all_eq_true.mp hnone o' ho'
  rw [hname] at hleft
  cases hn : s.graph.contexts.name o with
  | inl n => simp [hn] at hright
  | inr key => simp [hn] at hleft

end results

end Solver

end PointerAnalysis
