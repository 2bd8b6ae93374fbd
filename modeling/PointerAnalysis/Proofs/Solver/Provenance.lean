import PointerAnalysis.Proofs.ContextGraph.Copies
import PointerAnalysis.Proofs.Solver.Coarse
import PointerAnalysis.Proofs.Solver.Monotone
import PointerAnalysis.Proofs.Solver.Shown

/-!
Where pointees come from. An address edge brings its source into a points-to set; copies, loads and
stores move what is there; a projection or a fold replaces an object by another part of the same
copy of the same memory object. So in every state of a run whatever is pointed to is an object node
whose address is taken, or that lies in one copy of a memory object with such a node.
-/

namespace PointerAnalysis

namespace ContextGraph

variable {C : Type} [Context C] {cg g : ContextGraph C} {a b n : NodeId} {mem : MemObjId}

/-! ## Copies of memory objects -/

/-- Two nodes belong to the same memory object in the same context. -/
def SameCopy (g : ContextGraph C) (a b : NodeId) : Prop :=
  ∃ x y mem, g.nodes[a]? = some x ∧ g.nodes[b]? = some y ∧ x.memObj = some mem ∧
    y.memObj = some mem ∧ x.ctx = y.ctx

/-- Only the parts of one copy share a home. -/
theorem WellFormed.sameCopy_of_home_eq (hg : g.WellFormed) (h : g.home a = g.home b) :
    a = b ∨ g.SameCopy a b := by
  have hpart : ∀ mem, g.PartOf a mem ↔ g.PartOf b mem := by
    intro mem
    rw [← hg.partOf_home_iff, h, hg.partOf_home_iff]
  by_cases ha : ∃ mem, g.PartOf a mem
  · obtain ⟨mem, ha⟩ := ha
    obtain ⟨y, hy, hymem⟩ := (hpart mem).mp ha
    obtain ⟨x, hx, hxmem⟩ := ha
    obtain ⟨-, -, -, base, hbase, -, hxctx, -⟩ := hg.home_spec hx hxmem
    obtain ⟨-, -, -, base', hbase', -, hyctx, -⟩ := hg.home_spec hy hymem
    rw [h, hbase'] at hbase
    cases hbase
    exact .inr ⟨x, y, mem, hx, hy, hxmem, hymem, hxctx.symm.trans hyctx⟩
  · have hself : ∀ n, (∀ mem, g.PartOf n mem ↔ g.PartOf a mem) → g.home n = n := by
      intro n hn
      apply WellFormed.home_of_not_partOf
      intro mem hmem
      exact ha ⟨mem, (hn mem).mp hmem⟩
    rw [hself a fun _ => .rfl, hself b fun mem => (hpart mem).symm] at h
    exact .inl h

/-! ## Object nodes -/

/-- Parts of memory objects are object nodes, and addresses are taken of object nodes only. -/
structure Objective (cg : ContextGraph C) : Prop where
  part : ∀ n mem, cg.PartOf n mem → cg.isObject n
  addr : ∀ e ∈ cg.edges, e.kind = .addr → cg.isObject e.src

theorem isObject_iff : g.isObject n ↔ ∃ node, g.nodes[n]? = some node ∧ node.kind.isObject := by
  rw [isObject, Option.any_eq_true]

theorem objective_of_build {p : AssignmentGraph} {policy : ContextPolicy C} {fieldSensitive : Bool}
    (hp : p.Built) (hcheck : p.check = .ok ()) (hok : build policy p fieldSensitive = .ok cg) :
    cg.Objective := by
  have hcg := build_unfolds hp.layout hok
  constructor
  · rintro n mem ⟨node, hnode, hmem⟩
    obtain ⟨input, hinput, ctx, rfl⟩ := hcg.node n node hnode
    exact isObject_iff.mpr ⟨_, hnode, (hp.uniform _ input mem hinput hmem).1⟩
  · intro e he hkind
    obtain ⟨pe, hpe, _, -, ctxs, -, hjoins⟩ := hcg.edge e he
    obtain ⟨node, hnode, hinput, -⟩ := (hcg.copyIn?_iff _ _ _).mp hjoins.src
    obtain ⟨input, hfound, ctx, rfl⟩ := hcg.node _ node hnode
    obtain ⟨-, -, haddr⟩ := AssignmentGraph.check_edges hcheck hpe
    obtain ⟨source, hsource, hobject⟩ := haddr (hjoins.kind ▸ hkind)
    rw [← Option.some.inj hinput, hfound] at hsource
    cases hsource
    exact isObject_iff.mpr ⟨_, hnode, hobject⟩

theorem Grew.isObject_of_partOf (h : Grew cg g) (hcg : cg.Objective) (hpart : g.PartOf n mem) :
    g.isObject n := by
  rcases h.node_cases hpart.lt with ⟨hlt, -⟩ | ⟨node, _, hnode, hkind, -⟩
  · rw [isObject, h.ext.node_eq hlt]
    exact hcg.part n mem ((h.ext.partOf_iff hlt).mp hpart)
  · exact isObject_iff.mpr ⟨node, hnode, by rw [hkind]; rfl⟩

end ContextGraph

/-! ## What is rooted -/

namespace Valuation

variable {C : Type} [Context C] {cg : ContextGraph C}

/-- All places hold all parts of what addresses are taken of, and nothing else. -/
def rooted (cg : ContextGraph C) : Valuation C where
  holds _ o := ∃ e ∈ cg.edges, e.kind = .addr ∧ o.base cg = .inl (cg.home e.src)
  below _ _ := True
  whole _ := True
  real _ := True

/-- A part of an object can be replaced by another one without leaving what is rooted. -/
theorem isModel_rooted (hcg : cg.WellFormed) : (rooted cg).IsModel cg := by
  have hbase : ∀ {x o : Place C} {mem}, o.PartOf cg mem → (rooted cg).holds x o →
      (rooted cg).holds x (o.base cg) := by
    rintro x o mem hpart ⟨e, he, hkind, ho⟩
    exact ⟨e, he, hkind, (Place.base_base hcg hpart).trans ho⟩
  constructor
  case below_refl => exact fun _ => trivial
  case below_trans => exact fun _ _ _ _ _ => trivial
  case holds_of_alike => exact fun _ _ _ _ h => h
  case fold_below => exact fun _ _ _ _ _ => ⟨trivial, trivial⟩
  case fold_holds => exact fun _ _ _ _ hpart _ ho => hbase hpart ho
  case real => exact fun _ _ => trivial
  case whole => exact fun _ _ => trivial
  case edges =>
    intro e he
    refine ⟨fun _ => trivial, fun _ _ _ _ _ _ => trivial, ?_⟩
    cases hkind : ConstraintKind.ofEdge e.kind e.offset with
    | addr => exact ⟨e, he, Solver.ofEdge_eq_addr hkind, rfl⟩
    | copy => exact fun _ ho => ho
    | field offset =>
        intro o ho
        refine ⟨fun _ => ho, fun key hkey => ⟨trivial, ?_, fun _ _ => ⟨trivial, fun _ h => h⟩⟩⟩
        obtain ⟨e, he, haddr, ho⟩ := ho
        exact ⟨e, he, haddr, Place.base_ofKey hcg hkey ho⟩
    | anyField => exact fun o ho => ⟨fun _ => ho, fun mem hpart => ⟨trivial, hbase hpart ho⟩⟩
    | load => exact fun _ _ _ => ⟨trivial, fun _ h => h⟩
    | store => exact fun _ _ _ => ⟨trivial, fun _ h => h⟩

end Valuation

namespace Solver

variable {C : Type} [Context C] {s t : Solver C} {cg : ContextGraph C}

/-- Whatever is pointed to is an object node that an address edge of `cg` starts from, or that lies
in one copy of a memory object with such a node. -/
def Sourced (cg : ContextGraph C) (s : Solver C) : Prop :=
  ∀ n o, o ∈ s.facts.pointsTo n → s.graph.contexts.isObject o ∧
    ∃ e ∈ cg.edges, e.kind = .addr ∧ (o = e.src ∨ s.graph.contexts.SameCopy o e.src)

/-- What the model holds has a source. -/
theorem Sound.sourced (h : Sound (.rooted cg) cg s) (hs : s.WellFormed) (hcg : cg.Objective) :
    Sourced cg s := by
  have hgrew := h.grew
  intro n o ho
  obtain ⟨e, he, hkind, hbase⟩ := h.pointsTo n o ho
  have hsrc := (hgrew.built.edges_lt e he).1
  have hlt := (hs.target n o ho).1
  rw [← hgrew.place_home hlt] at hbase
  have hhome := hgrew.eq_of_place (hs.contexts.home_lt hlt) hbase
  rw [← hgrew.ext.home_eq hgrew.built.toWellFormed hs.contexts hsrc] at hhome
  have hsource := hs.contexts.sameCopy_of_home_eq hhome
  refine ⟨?_, e, he, hkind, hsource⟩
  rcases hsource with rfl | ⟨x, -, mem, hx, -, hmem, -⟩
  · rw [ContextGraph.isObject, hgrew.ext.node_eq hsrc]
    exact hcg.addr e he hkind
  · exact hgrew.isObject_of_partOf hcg ⟨x, hx, hmem⟩

/-- Merging gives a node nothing that no node pointed to. -/
theorem Sourced.merge (h : Sourced cg s) (hmerge : Merge s t) : Sourced cg t := by
  obtain ⟨r, subs, members, -, hfused⟩ := hmerge
  intro n o ho
  rw [hfused.graph.contexts]
  rcases ((hfused.pointsTo n o).mp ho).2 with ho | ⟨-, m, -, ho⟩
  · exact h n o ho
  · exact h m o ho

section new

variable {g : ConstraintGraph C} {strategy : Strategy} (hcg : cg.WellBuilt)
  (hobjects : cg.Objective) (hg : g.Spans cg cg.edges.toList)

include hcg hobjects hg

theorem Acts.sourced (h : Acts (new g strategy) s) : Sourced cg s := by
  have hmodel := Valuation.isModel_rooted hcg.toWellFormed
  have hnew := wellFormed_new hcg hg strategy
  exact ((sound_new hmodel hcg hg strategy).acts hmodel hnew h).sourced (h.wellFormed hnew) hobjects

theorem Seen.sourced (h : Seen (new g strategy) s) : Sourced cg s := by
  obtain ⟨u, hacts, hmerges⟩ := h
  induction hmerges with
  | refl => exact hacts.sourced hcg hobjects hg
  | tail _ hmerge ih => exact ih.merge hmerge

end new

/-! ## All programs -/

section results

variable {p : AssignmentGraph} {policy : ContextPolicy C} {fieldSensitive : Bool}

/-- Whatever is asked of a solver, nothing is pointed to out of thin air: not at the end, not in a
state that is shown on the way, and not in any state that the solver passes through step by step. -/
theorem sourced_throughout_requests (hp : p.Built) (hcheck : p.check = .ok ())
    (hbuild : ContextGraph.build policy p fieldSensitive = .ok cg) (strategy : Strategy)
    (requests : List Request) :
    ∃ g t, ConstraintGraph.ofContextGraph cg = .ok g ∧
      (requests.forM Traced.perform).run = requests.forM (perform : Request → SolverM C Unit) ∧
      requests.forM perform (new g strategy) = .ok () t ∧ Sourced cg t ∧
      (∀ shown ∈ (requests.forM Traced.perform).shown (new g strategy), Sourced cg shown.2) ∧
      Acts (new g strategy) t ∧ ∀ u, Acts (new g strategy) u → Sourced cg u := by
  obtain ⟨hcg, -⟩ := ContextGraph.build_wellBuilt hp hcheck hbuild
  obtain ⟨g, hok, hg⟩ := ConstraintGraph.ofContextGraph_spans hcg.edges_lt
  have hobjects := ContextGraph.objective_of_build hp hcheck hbuild
  obtain ⟨hshown, _, t, hrun, hacts, -⟩ := exhibits_performAll_new hcg hg strategy requests
  rw [Traced.run_performAll] at hrun
  refine ⟨g, t, hok, Traced.run_performAll requests, hrun, hacts.sourced hcg hobjects hg, ?_, hacts,
    ?_⟩
  · exact fun v hv => (hshown v hv).sourced hcg hobjects hg
  · exact fun u hu => hu.sourced hcg hobjects hg

/-- The address is taken of the field 5 only; a projection finds the field 9, which is made for it,
and a step by an unknown offset the whole object 4. -/
theorem sourced_throughout_requests_boxing :
    ∃ cg g t, ContextGraph.build insensitive boxing true = .ok cg ∧
      ConstraintGraph.ofContextGraph cg = .ok g ∧
      [Request.solve].forM perform (new g .wave) = .ok () t ∧
      (∀ e ∈ cg.edges.toList, e.kind = .addr → e.src = 5) ∧ 9 ∈ t.pointsTo 7 ∧ 4 ∈ t.pointsTo 8 ∧
      Sourced cg t ∧
      (∃ s, (Event.merged, s) ∈ ([Request.solve].forM Traced.perform).shown (new g .wave) ∧
        9 ∈ s.pointsTo 7 ∧ Sourced cg s) := by
  have hcheck : boxing.check = .ok () := by decide +kernel
  have hrun : (outcome? insensitive boxing true .wave).any (fun r =>
      decide ((∀ e ∈ r.1.edges.toList, e.kind = .addr → e.src = 5) ∧ 9 ∈ r.2.pointsTo 7 ∧
        4 ∈ r.2.pointsTo 8) &&
      (ConstraintGraph.ofContextGraph r.1).toOption.any fun g =>
        (([Request.solve].forM Traced.perform).shown (new g .wave)).any fun v =>
          v.1 = .merged ∧ 9 ∈ v.2.pointsTo 7) = true := by
    decide +kernel
  obtain ⟨cg, s, hbuild, ⟨g, hok, hsolve⟩, hs⟩ := exists_outcome_of_any hrun
  obtain ⟨g', t, hok', -, hrequests, ht, hshown, -⟩ :=
    sourced_throughout_requests built_boxing hcheck hbuild .wave [.solve]
  cases hok.symm.trans hok'
  cases (performAll_singleton .solve hsolve).symm.trans hrequests
  simp only [hok, Except.toOption, Option.any_some, Bool.and_eq_true, decide_eq_true_eq,
    List.any_eq_true] at hs
  obtain ⟨⟨hedges, hfield, hwhole⟩, ⟨_, u⟩, hu, rfl, hmade⟩ := hs
  exact ⟨cg, g, s, hbuild, hok, hrequests, hedges, hfield, hwhole, ht, u, hu, hmade, hshown _ hu⟩

end results

end Solver

end PointerAnalysis
