import PointerAnalysis.Proofs.ContextGraph.Coarsen
import PointerAnalysis.Proofs.Solver.Exact

/-!
The depth of call strings. Without projections, sets that satisfy the inclusions of a context graph
give such sets for every graph that is mapped to it; and a run finds the least ones. So longer call
strings find nothing that shorter ones do not find.
-/

namespace PointerAnalysis

variable {C D : Type} [Context C] [Context D] {cg : ContextGraph C} {cg' : ContextGraph D}
  {f : NodeId → NodeId}

/-! ## Inclusions along a map -/

theorem ContextGraph.Morphism.dereferenceable (hf : Morphism f cg cg') {n : NodeId}
    (hn : n < cg.nodes.size) (h : cg.Dereferenceable n) : cg'.Dereferenceable (f n) :=
  ⟨(hf.isConstant n hn).trans h.1, (hf.isPointerFree n hn).trans h.2⟩

/-- Sets that satisfy the inclusions of a graph, taken back to a graph that is mapped to it. -/
theorem Includes.comap (hf : cg.Morphism f cg') (hcg : cg.WellBuilt) {P : NodeId → Set NodeId}
    (hP : Includes cg' P) : Includes cg fun n => {o | o < cg.nodes.size ∧ f o ∈ P (f n)} := by
  constructor
  case addr =>
    intro e he hkind
    obtain ⟨e', he', hkind', hsrc, hdst⟩ := hf.edge e he
    refine ⟨(hcg.edges_lt e he).1, ?_⟩
    rw [← hsrc, ← hdst]
    exact hP.addr e' he' (hkind'.trans hkind)
  case copy =>
    rintro e he hkind o ⟨ho, hin⟩
    obtain ⟨e', he', hkind', hsrc, hdst⟩ := hf.edge e he
    rw [← hkind'] at hkind
    have hsub := hP.copy e' he' hkind
    rw [hsrc, hdst] at hsub
    exact ⟨ho, hsub hin⟩
  case load =>
    rintro e he hkind o ⟨ho, hin⟩ hderef o' ⟨ho', hin'⟩
    obtain ⟨e', he', hkind', hsrc, hdst⟩ := hf.edge e he
    have hsub := hP.load e' he' (hkind'.trans hkind)
    rw [hsrc, hdst] at hsub
    exact ⟨ho', hsub _ hin (hf.dereferenceable ho hderef) hin'⟩
  case store =>
    rintro e he hkind o ⟨ho, hin⟩ hderef o' ⟨ho', hin'⟩
    obtain ⟨e', he', hkind', hsrc, hdst⟩ := hf.edge e he
    have hsub := hP.store e' he' (hkind'.trans hkind)
    rw [hsrc, hdst] at hsub
    exact ⟨ho', hsub _ hin (hf.dereferenceable ho hderef) hin'⟩
  case fold_eq =>
    intro n hfield hwhole
    have heq := hP.fold_eq _ (hf.isField n hfield) (hf.wholeAt n hwhole)
    rw [hf.home n hwhole] at heq
    rw [heq]
  case fold_mem =>
    rintro o hfield hwhole n ⟨ho, hin⟩
    have hhome := hP.fold_mem _ (hf.isField o hfield) (hf.wholeAt o hwhole) _ hin
    rw [hf.home o hwhole] at hhome
    exact ⟨hcg.home_lt ho, hhome⟩

namespace Solver

/-- What a run finds is found by the runs on every graph to which its own is mapped. -/
theorem Solved.mem_of_morphism {g : ConstraintGraph C} {g' : ConstraintGraph D}
    {strategy strategy' : Strategy} {s : Solver C} {s' : Solver D} (h : Solved cg g strategy s)
    (h' : Solved cg' g' strategy' s') (hcg : cg.WellBuilt) (hcg' : cg'.WellBuilt)
    (hplain : ∀ e ∈ cg.edges, e.kind ≠ .field ∧ e.kind ≠ .anyField)
    (hplain' : ∀ e ∈ cg'.edges, e.kind ≠ .field ∧ e.kind ≠ .anyField) (hf : cg.Morphism f cg')
    {n o : NodeId} (ho : o ∈ s.pointsTo n) :
    n < cg.nodes.size ∧ o < cg.nodes.size ∧ f o ∈ s'.pointsTo (f n) := by
  have hP := (h'.includes hcg' hplain').comap hf hcg
  obtain ⟨hn, ho, -, hin⟩ := h.mem_of_includes hcg hplain hP ho
  exact ⟨hn, ho, hin⟩

/-- The input nodes of the objects that an input node points to in any of its contexts. -/
def targetsOf (s : Solver C) (input : NodeId) : Set NodeId :=
  {y | ∃ n ∈ s.graph.contexts.copiesOf input, ∃ o ∈ s.pointsTo n, ∃ node : ContextNode C,
    s.graph.contexts.nodes[o]? = some node ∧ node.input = some y}

section targets

variable {p : AssignmentGraph} {fieldSensitive : Bool} {policy : ContextPolicy C}
  {policy' : ContextPolicy D} {ρ : C → D}

open ContextGraph (carry)

/-- Carrying the nodes keeps the input nodes. -/
theorem targetsOf_subset (hg : cg.Unfolds policy p fieldSensitive)
    (hg' : cg'.Unfolds policy' p fieldSensitive) (hρ : ContextGraph.Coarsens ρ policy policy' p)
    {s : Solver C} {s' : Solver D} (hext : cg.Extends s.graph.contexts)
    (hext' : cg'.Extends s'.graph.contexts)
    (h : ∀ n o, o ∈ s.pointsTo n → n < cg.nodes.size ∧ o < cg.nodes.size ∧
      carry ρ cg cg' o ∈ s'.pointsTo (carry ρ cg cg' n)) (input : NodeId) :
    s.targetsOf input ⊆ s'.targetsOf input := by
  rintro y ⟨n, hn, o, ho, node, hnode, hinput⟩
  obtain ⟨-, hlt, hin⟩ := h n o ho
  have hcarried : ∀ (i x : NodeId) (node : ContextNode C), cg.nodes[i]? = some node →
      node.input = some x →
      ∃ node' : ContextNode D, cg'.nodes[carry ρ cg cg' i]? = some node' ∧
      node'.input = some x := by
    intro i x node hi hx
    have hcopy := (hg.copyIn?_iff x node.ctx i).mpr ⟨node, hi, hx, rfl⟩
    have hcarry := ContextGraph.copyIn?_carry hg hg' hρ hcopy
    obtain ⟨node', hi', hx', -⟩ := (hg'.copyIn?_iff x _ _).mp hcarry
    exact ⟨node', hi', hx'⟩
  rw [ContextGraph.copiesOf, hext.copies] at hn
  obtain ⟨nnode, hnn, hninput⟩ := (hg.mem_copiesOf input n).mp hn
  have hold : cg.nodes[o]? = some node := by
    have ho := Array.getElem?_eq_getElem hlt
    rw [ho, ← hnode, hext.nodes o _ ho]
  obtain ⟨nnode', hnn', hninput'⟩ := hcarried n input nnode hnn hninput
  obtain ⟨node', ho', hinput'⟩ := hcarried o y node hold hinput
  refine ⟨_, ?_, _, hin, node', hext'.nodes _ node' ho', hinput'⟩
  rw [ContextGraph.copiesOf, hext'.copies]
  exact (hg'.mem_copiesOf input _).mpr ⟨nnode', hnn', hninput'⟩

end targets

/-! ## Programs with functions -/

/-- `a() { p = &x; wrap(p) }  b() { q = &y; wrap(q) }  wrap(u) { v = id(u) }  id(w) { return w }`,
with the functions 1, 2, 3 and 4, the nodes 4 and 5 for the objects, and 6 to 11 for `p`, `q`, `u`,
`w`, the value that `id` returns and `v`. -/
def wrapping : AssignmentGraph :=
  let g := (AssignmentGraph.empty.addObject (.instruction 1) 1).2
  let g := (g.addObject (.instruction 2) 1).2
  let g := (g.addValue (.instruction 1)).2
  let g := (g.addValue (.instruction 2)).2
  let g := (g.addValue (.argument 3)).2
  let g := (g.addValue (.argument 4)).2
  let g := (g.addReturned 4).2
  let g := (g.addValue (.instruction 3)).2
  let g := (g.addEdge .addr 4 6).2
  let g := (g.addEdge .addr 5 7).2
  let g := (g.addSiteEdge .call 6 8 0).2
  let g := (g.addSiteEdge .call 7 8 1).2
  let g := (g.addSiteEdge .call 8 9 2).2
  let g := (g.addEdge .copy 9 10).2
  (g.addSiteEdge .ret 10 11 2).2

theorem built_wrapping : wrapping.Built :=
  have h := AssignmentGraph.Built.empty.addObject (.instruction 1) 1
  have h := ((h.addObject (.instruction 2) 1).addValue (.instruction 1)).addValue (.instruction 2)
  have h := ((h.addValue (.argument 3)).addValue (.argument 4)).addReturned 4
  have h := (h.addValue (.instruction 3)).pushEdge .addr 4 6 0 none
  have h := (h.pushEdge .addr 5 7 0 none).pushEdge .call 6 8 0 (some 0)
  have h := (h.pushEdge .call 7 8 0 (some 1)).pushEdge .call 8 9 0 (some 2)
  (h.pushEdge .copy 9 10 0 none).pushEdge .ret 10 11 0 (some 2)

/-- Who calls whom in `wrapping`. -/
def wrappingCalls : CallGraph := ((CallGraph.empty.addCall 1 3 0).addCall 2 3 1).addCall 3 4 2

section results

variable {p : AssignmentGraph} {fieldSensitive : Bool} {shallow deep : ContextGraph CallString}

/-- Without projections, whatever is found with longer call strings is found with shorter ones: if a
copy of a node points to a copy of an object, then so do their copies in the contexts that are cut
one caller earlier. And so an input node points to no more objects over all its contexts. -/
theorem deeper_finds_no_more (hp : p.Built) (hcheck : p.check = .ok ())
    (hplain : ∀ e ∈ p.edges, e.kind ≠ .field ∧ e.kind ≠ .anyField) (calls : CallGraph) (k : Nat)
    (hshallow : ContextGraph.build (CallStringPolicy.policy ⟨calls, k⟩) p fieldSensitive =
      .ok shallow)
    (hdeep : ContextGraph.build (CallStringPolicy.policy ⟨calls, k + 1⟩) p fieldSensitive =
      .ok deep)
    (strategy strategy' : Strategy) :
    ∃ s t, Outcome shallow strategy s ∧ Outcome deep strategy' t ∧
      (∀ n o, o ∈ t.pointsTo n →
        (∃ x c, deep.copyIn? x c = some n) ∧ ∃ y d, deep.copyIn? y d = some o) ∧
      (∀ x c n y d o, deep.copyIn? x c = some n → deep.copyIn? y d = some o → o ∈ t.pointsTo n →
        ∃ m q, shallow.copyIn? x (c.cut k) = some m ∧ shallow.copyIn? y (d.cut k) = some q ∧
          q ∈ s.pointsTo m) ∧
      ∀ x, t.targetsOf x ⊆ s.targetsOf x := by
  have hunfold := ContextGraph.build_unfolds hp.layout hshallow
  have hunfold' := ContextGraph.build_unfolds hp.layout hdeep
  obtain ⟨hcg, hedges⟩ := ContextGraph.build_wellBuilt hp hcheck hshallow
  obtain ⟨hcg', hedges'⟩ := ContextGraph.build_wellBuilt hp hcheck hdeep
  have hkinds : ∀ {cg : ContextGraph CallString},
      (∀ e ∈ cg.edges, ∃ pe ∈ p.edges, e.kind = pe.kind ∧ e.offset = pe.offset) →
      ∀ e ∈ cg.edges, e.kind ≠ .field ∧ e.kind ≠ .anyField := fun h e he => by
    obtain ⟨pe, hpe, hkind, -⟩ := h e he
    exact hkind ▸ hplain pe hpe
  have hcut := CallStringPolicy.coarsens_cut calls k p
  have hf := ContextGraph.morphism_carry hunfold' hunfold hcut hp.layout hcheck hcg'.toWellFormed
    hcg.toWellFormed
  obtain ⟨_, s, hs, hsolved⟩ := exists_outcome hcg strategy
  obtain ⟨_, t, ht, hsolved'⟩ := exists_outcome hcg' strategy'
  have hcarry : ∀ n o, o ∈ t.pointsTo n → n < deep.nodes.size ∧ o < deep.nodes.size ∧
      ContextGraph.carry (·.cut k) deep shallow o ∈
        s.pointsTo (ContextGraph.carry (·.cut k) deep shallow n) := fun n o =>
    hsolved'.mem_of_morphism hsolved hcg' hcg (hkinds hedges') (hkinds hedges) hf
  refine ⟨s, t, hs, ht, fun n o ho => ?_, fun x c n y d o hx hy ho => ?_, fun x => ?_⟩
  · obtain ⟨hn, ho, -⟩ := hcarry n o ho
    obtain ⟨x, c, -, -, hx, -⟩ := hunfold'.exists_input hn
    obtain ⟨y, d, -, -, hy, -⟩ := hunfold'.exists_input ho
    exact ⟨⟨x.id, c, hx⟩, y.id, d, hy⟩
  · exact ⟨_, _, ContextGraph.copyIn?_carry hunfold' hunfold hcut hx,
      ContextGraph.copyIn?_carry hunfold' hunfold hcut hy, (hcarry n o ho).2.2⟩
  · exact targetsOf_subset hunfold' hunfold hcut hsolved'.reflects.contexts
      hsolved.reflects.contexts hcarry x

/-- One caller does not tell the two ways into `id` apart, two callers do. -/
theorem deeper_finds_no_more_wrapping :
    ∃ shallow deep s t,
      ContextGraph.build (CallStringPolicy.policy ⟨wrappingCalls, 1⟩) wrapping true = .ok shallow ∧
      ContextGraph.build (CallStringPolicy.policy ⟨wrappingCalls, 2⟩) wrapping true = .ok deep ∧
      Outcome shallow .wave s ∧ Outcome deep .waveDiff t ∧
      (shallow.copyIn? 9 ⟨[3]⟩).map (fun n => (s.pointsTo n).toList) = some [4, 5] ∧
      (deep.copyIn? 9 ⟨[3, 1]⟩).map (fun n => (t.pointsTo n).toList) = some [4] ∧
      ∀ x, t.targetsOf x ⊆ s.targetsOf x := by
  have hcheck : wrapping.check = .ok () := by decide +kernel
  have hplain : ∀ e ∈ wrapping.edges, e.kind ≠ .field ∧ e.kind ≠ .anyField := by decide +kernel
  have hshallow : (outcome? (CallStringPolicy.policy ⟨wrappingCalls, 1⟩) wrapping true .wave).any
      (fun r => decide
        ((r.1.copyIn? 9 ⟨[3]⟩).map (fun n => (r.2.pointsTo n).toList) = some [4, 5])) = true := by
    decide +kernel
  have hdeep : (outcome? (CallStringPolicy.policy ⟨wrappingCalls, 2⟩) wrapping true .waveDiff).any
      (fun r => decide
        ((r.1.copyIn? 9 ⟨[3, 1]⟩).map (fun n => (r.2.pointsTo n).toList) = some [4])) = true := by
    decide +kernel
  obtain ⟨shallow, s, hshallow, hs, hmerged⟩ := exists_outcome_of_any hshallow
  obtain ⟨deep, t, hdeep, ht, hapart⟩ := exists_outcome_of_any hdeep
  obtain ⟨s', t', hs', ht', -, -, hsub⟩ := deeper_finds_no_more built_wrapping hcheck hplain
    wrappingCalls 1 hshallow hdeep .wave .waveDiff
  cases hs.unique hs'
  cases ht.unique ht'
  exact ⟨shallow, deep, s, t, hshallow, hdeep, hs, ht, of_decide_eq_true hmerged,
    of_decide_eq_true hapart, hsub⟩

end results

end Solver

end PointerAnalysis
