import PointerAnalysis.Proofs.ContextGraph.Composition

/-!
The nodes of fields. A program may have several nodes for one field of an object, and each of them
has a copy of its own. But for those a field has one node per context: no node is made for a field
that has one, and all projections to a field lead to the one node that is registered for it.
-/

namespace PointerAnalysis

namespace ContextGraph

variable {C : Type} [Context C] {p : AssignmentGraph} {policy : ContextPolicy C}
  {fieldSensitive : Bool}
  {cg g g' : ContextGraph C} {n f f' : NodeId} {offset : Offset} {key : FieldKey C}

/-! ## The field of a node -/

/-- A node is a field of an object, in a context and at an offset modulo the size of the object. -/
def IsFieldAt (g : ContextGraph C) (f : NodeId) (key : FieldKey C) : Prop :=
  ∃ node ∈ g.nodes[f]?, node.kind = .fieldObject ∧ node.memObj = some key.memObj ∧
    node.ctx = key.ctx ∧ ∃ obj ∈ g.memObjs[key.memObj]?, node.offset.reduce obj.modulus = key.offset

instance (g : ContextGraph C) (f : NodeId) (key : FieldKey C) : Decidable (g.IsFieldAt f key) :=
  inferInstanceAs (Decidable (∃ node ∈ g.nodes[f]?, _ ∧ _ ∧ _ ∧ ∃ obj ∈ g.memObjs[key.memObj]?, _))

theorem IsFieldAt.isField (h : g.IsFieldAt f key) : g.IsField f := by
  obtain ⟨node, hnode, hkind, hmem, -⟩ := h
  exact ⟨node, hnode, hkind, by simp [hmem]⟩

theorem IsFieldAt.keyOf (h : g.IsFieldAt f key) : g.KeyOf f 0 key := by
  obtain ⟨node, hnode, hkind, hmem, hctx, obj, hobj, hoffset⟩ := h
  exact ⟨node, obj, hnode, hmem, hobj, hctx.symm, by rw [if_pos hkind, Offset.add_zero, hoffset]⟩

/-- A registered node stands for the field it is registered for. -/
theorem WellFormed.isFieldAt (hg : g.WellFormed) (hf : g.fieldNodes[key]? = some f) :
    g.IsFieldAt f key := by
  obtain ⟨node, hnode, hkind, hmem, hctx, -⟩ := hg.fieldNodes key f hf
  have hobj := Array.getElem?_eq_getElem (hg.mem_lt f _ ⟨node, hnode, hmem⟩)
  exact ⟨node, hnode, hkind, hmem, hctx, _, hobj, hg.reduced key f node _ hf hnode hobj⟩

/-- Which field a node stands for does not change. -/
theorem Extends.isFieldAt_iff (h : Extends g g') (hf : f < g.nodes.size) :
    g'.IsFieldAt f key ↔ g.IsFieldAt f key := by
  rw [IsFieldAt, h.node_eq hf]
  constructor
  · rintro ⟨node, hnode, hkind, hmem, hctx, obj', hobj', hoffset⟩
    obtain ⟨obj, whole, hobj, rfl⟩ := h.memObj_eq hobj'
    exact ⟨node, hnode, hkind, hmem, hctx, obj, hobj, hoffset⟩
  · rintro ⟨node, hnode, hkind, hmem, hctx, obj, hobj, hoffset⟩
    obtain ⟨whole, hobj', -⟩ := h.memObjs _ obj hobj
    exact ⟨node, hnode, hkind, hmem, hctx, _, hobj', hoffset⟩

/-! ## Registered fields -/

/-- Registering a node registers its field, and all fields stay that were registered. -/
theorem mem_fieldNodes_registerField (hok : registerField p g n = .ok g') :
    g'.nodes = g.nodes ∧ g'.memObjs = g.memObjs ∧
      ∀ key, key ∈ g.fieldNodes ∨ g.IsFieldAt n key → key ∈ g'.fieldNodes := by
  obtain ⟨node, hnode, ⟨mem, -, obj, base, -, hmem, -, -, hobj, rfl⟩ | ⟨hother, rfl⟩⟩ :=
    registerField_ok hok
  · refine ⟨rfl, rfl, fun key h => Std.TreeMap.mem_insertIfNew.mpr ?_⟩
    rcases h with h | ⟨node', hnode', -, hmem', hctx, obj', hobj', hoffset⟩
    · exact .inr h
    · left
      cases hnode.symm.trans hnode'
      cases Option.some.inj (hmem.symm.trans hmem')
      cases hobj.symm.trans hobj'
      rw [hctx, hoffset]
      exact Std.ReflOrd.compare_self
  · refine ⟨rfl, rfl, fun key h => h.elim id ?_⟩
    rintro ⟨node', hnode', hkind, hmem, -⟩
    cases hnode.symm.trans hnode'
    exact absurd hmem (hother _ hkind)

/-- In a graph as it is built, every field that has a node is registered. -/
theorem mem_fieldNodes_of_build (hok : build policy p fieldSensitive = .ok g)
    (hf : g.IsFieldAt f key) : key ∈ g.fieldNodes := by
  obtain ⟨g₀, g₁, -, hfields, -, -, -, hg⟩ := exists_stages hok
  have hall : g₁.nodes = g₀.nodes ∧ g₁.memObjs = g₀.memObjs ∧
      ∀ f ∈ List.range g₀.nodes.size, ∀ key, g₀.IsFieldAt f key → key ∈ g₁.fieldNodes := by
    refine foldlM_ok_induction (fun done b => b.nodes = g₀.nodes ∧ b.memObjs = g₀.memObjs ∧
      ∀ f ∈ done, ∀ key, g₀.IsFieldAt f key → key ∈ b.fieldNodes) ⟨rfl, rfl, by simp⟩ ?_ hfields
    rintro done n b b' - ⟨hbnodes, hbobjs, hdone⟩ hstep
    obtain ⟨hnodes', hobjs', hkeys⟩ := mem_fieldNodes_registerField hstep
    refine ⟨hnodes'.trans hbnodes, hobjs'.trans hbobjs, fun f hf key hkey => hkeys key ?_⟩
    rcases List.mem_append.mp hf with hf | hf
    · exact .inl (hdone f hf key hkey)
    · rw [← List.mem_singleton.mp hf]
      simp only [IsFieldAt, hbnodes, hbobjs]
      exact .inr hkey
  rw [hg.fieldNodes]
  have hf₀ : g₀.IsFieldAt f key := by
    simpa only [IsFieldAt, hg.nodes, hg.memObjs, hall.1, hall.2.1] using hf
  exact hall.2.2 f (List.mem_range.mpr hf₀.keyOf.partOf.lt) key hf₀

/-- A node made on demand is registered for its field. -/
theorem IsFieldAt.registered_of_made (hf : g.IsFieldAt f key) (hg : g.WellFormed)
    {node : ContextNode C}
    (hnode : g.nodes[f]? = some node) (hmade : node.input = none) :
    g.fieldNodes[key]? = some f := by
  obtain ⟨mem, -, -, -, -, -, hfound⟩ := hg.made f node hnode hmade
  rw [← (hg.keyOf_zero hfound).unique hf.keyOf]
  exact hfound

/-- So is a field node that a projection leads to. -/
theorem IsFieldAt.registered_of_field (hf : g'.IsFieldAt f key) (hg : g.WellFormed)
    (hok : g.field n offset = .ok (f, g')) : g'.fieldNodes[key]? = some f := by
  rcases hg.field_cases hok with ⟨hnone, rfl, rfl⟩ | ⟨⟨mem, hpart, -⟩, rfl, rfl⟩ | ⟨key', -, -,
    hlands⟩
  · exact absurd hf.keyOf.partOf (hnone _)
  · exact absurd hf.isField (hg.not_isField_home hpart)
  · rw [← (hlands.wellFormed.keyOf_zero hlands.found).unique hf.keyOf]
    exact hlands.found

/-- Going on by nothing leads to one node from all nodes for a field. -/
theorem WellFormed.field_zero (hg : g.WellFormed) (hf : g.fieldNodes[key]? = some f) :
    ∃ found, ∀ {n : NodeId}, g.IsFieldAt n key → g.field n 0 = .ok (found, g) := by
  by_cases hw : g.IsWhole key.memObj
  · refine ⟨g.home f, fun {n} hn => ?_⟩
    rw [(hg.home_of_keyOf hn.keyOf hf).2.2]
    exact field_of_wholeAt hg ⟨_, hn.keyOf.partOf, hw⟩
  · refine ⟨f, fun {n} hn => field_of_registered hg hn.keyOf ?_ hf⟩
    rintro ⟨mem, hpart, hwhole⟩
    exact hw (hn.keyOf.partOf.unique hpart ▸ hwhole)

/-! ## Graphs in use -/

/-- A projection has led to the node. -/
def Reached (cg g : ContextGraph C) (f : NodeId) : Prop :=
  ∃ earlier found n offset, Evolves cg earlier ∧ earlier.field n offset = .ok (f, found) ∧
    Evolves found g

theorem Reached.registered (h : Reached cg g f) (hcg : cg.WellFormed) (hf : g.IsFieldAt f key) :
    g.fieldNodes[key]? = some f := by
  obtain ⟨earlier, found, n, offset, hearlier, hok, hfound⟩ := h
  obtain ⟨hwf, -⟩ := hearlier.grown hcg
  obtain ⟨hwf', -⟩ := hwf.of_field hok
  obtain ⟨hg, hext⟩ := hfound.grown hwf'
  have hnode := Array.getElem?_eq_getElem hf.keyOf.partOf.lt
  rcases hext.made f _ hnode with hold | hmade
  · exact hext.fieldNodes key f (((hext.isFieldAt_iff hold).mp hf).registered_of_field hwf hok)
  · exact hf.registered_of_made hg hnode hmade

/-- Two nodes are copies, in one context, of two different nodes of the program. -/
def CopiesApart (p : AssignmentGraph) (g : ContextGraph C) (f f' : NodeId) : Prop :=
  ∃ (n n' : Node) (ctx : C), n ≠ n' ∧ p.nodes[n.id]? = some n ∧ p.nodes[n'.id]? = some n' ∧
    g.nodes[f]? = some (copyOf n ctx) ∧ g.nodes[f']? = some (copyOf n' ctx)

section built

variable (hp : p.Built) (hcheck : p.check = .ok ())
  (hbuild : build policy p fieldSensitive = .ok cg) (hg : g.WellFormed) (hext : Extends cg g)

include hbuild hext

/-- Nodes for one field that were there from the start are copies in one context. -/
theorem IsFieldAt.eq_or_copiesApart_of_build (hp : p.Built) (hf : cg.IsFieldAt f key)
    (hf' : cg.IsFieldAt f' key) : f = f' ∨ CopiesApart p g f f' := by
  have hcopies := build_unfolds hp.layout hbuild
  obtain ⟨n, ctx, hn, -, hcopy, hnode⟩ := hcopies.exists_input hf.keyOf.partOf.lt
  obtain ⟨n', ctx', hn', -, hcopy', hnode'⟩ := hcopies.exists_input hf'.keyOf.partOf.lt
  have hctx : ctx = ctx' := by
    obtain ⟨node, hget, -, -, hkctx, -⟩ := hf
    obtain ⟨node', hget', -, -, hkctx', -⟩ := hf'
    cases hnode.symm.trans hget
    cases hnode'.symm.trans hget'
    exact hkctx.trans hkctx'.symm
  subst hctx
  by_cases hsame : n = n'
  · subst hsame
    exact .inl (Option.some.inj (hcopy.symm.trans hcopy'))
  · exact .inr ⟨n, n', ctx, hsame, hn, hn', hext.nodes f _ hnode, hext.nodes f' _ hnode'⟩

include hg

/-- Every field that has a node is registered. -/
theorem IsFieldAt.exists_registered (hf : g.IsFieldAt f key) :
    ∃ found, g.fieldNodes[key]? = some found := by
  have hnode := Array.getElem?_eq_getElem hf.keyOf.partOf.lt
  rcases hext.made f _ hnode with hold | hmade
  · have hkey := mem_fieldNodes_of_build hbuild ((hext.isFieldAt_iff hold).mp hf)
    exact ⟨_, hext.fieldNodes key _ (Std.TreeMap.getElem?_eq_some_getElem hkey)⟩
  · exact ⟨f, hf.registered_of_made hg hnode hmade⟩

include hp hcheck

/-- No node is made for a field that has one. -/
theorem IsFieldAt.eq_of_made (hf : g.IsFieldAt f key) (hf' : g.IsFieldAt f' key)
    {node : ContextNode C}
    (hnode : g.nodes[f]? = some node) (hmade : node.input = none) : f = f' := by
  obtain ⟨hcg, -⟩ := build_wellBuilt hp hcheck hbuild
  have hfound := hf.registered_of_made hg hnode hmade
  have hnode' := Array.getElem?_eq_getElem hf'.keyOf.partOf.lt
  rcases hext.made f' _ hnode' with hold | hmade'
  · -- the field was registered from the start, for a node that was there from the start
    have hkey := mem_fieldNodes_of_build hbuild ((hext.isFieldAt_iff hold).mp hf')
    have hfirst := Std.TreeMap.getElem?_eq_some_getElem hkey
    rw [hext.fieldNodes key _ hfirst] at hfound
    rw [Option.some.inj hfound] at hfirst
    obtain ⟨first, hfirst, -⟩ := hcg.fieldNodes key f hfirst
    cases hnode.symm.trans (hext.nodes f first hfirst)
    exact absurd hmade (hcg.input f node hfirst)
  · exact Option.some.inj (hfound.symm.trans (hf'.registered_of_made hg hnode' hmade'))

/-- Two nodes for one field are one node, unless the program itself has two nodes for it. -/
theorem IsFieldAt.eq_or_copiesApart (hf : g.IsFieldAt f key) (hf' : g.IsFieldAt f' key) :
    f = f' ∨ CopiesApart p g f f' := by
  have hnode := Array.getElem?_eq_getElem hf.keyOf.partOf.lt
  have hnode' := Array.getElem?_eq_getElem hf'.keyOf.partOf.lt
  rcases hext.made f _ hnode with hold | hmade
  · rcases hext.made f' _ hnode' with hold' | hmade'
    · exact ((hext.isFieldAt_iff hold).mp hf).eq_or_copiesApart_of_build hbuild hext hp
        ((hext.isFieldAt_iff hold').mp hf')
    · exact .inl (hf'.eq_of_made hp hcheck hbuild hg hext hf hnode' hmade').symm
  · exact .inl (hf.eq_of_made hp hcheck hbuild hg hext hf' hnode hmade)

end built

/-! ## The statement -/

/-- Two nodes for one field are one node, unless the program itself has two nodes for it.
Projections lead to one node only, and from any node for the field to that one. -/
theorem one_node_per_field (hp : p.Built) (hcheck : p.check = .ok ())
    (hbuild : build policy p fieldSensitive = .ok cg) (hg : Evolves cg g) (hf : g.IsFieldAt f key)
    (hf' : g.IsFieldAt f' key) :
    (f = f' ∨ CopiesApart p g f f') ∧ (Reached cg g f → Reached cg g f' → f = f') ∧
      ∃ found, g.field f 0 = .ok (found, g) ∧ g.field f' 0 = .ok (found, g) := by
  have hcg : cg.WellFormed := (build_wellBuilt hp hcheck hbuild).1.toWellFormed
  obtain ⟨hwf, hext⟩ := hg.grown hcg
  refine ⟨hf.eq_or_copiesApart hp hcheck hbuild hwf hext hf', fun hreached hreached' => ?_, ?_⟩
  · exact Option.some.inj ((hreached.registered hcg hf).symm.trans (hreached'.registered hcg hf'))
  · obtain ⟨first, hfirst⟩ := hf.exists_registered hbuild hwf hext
    obtain ⟨found, hfound⟩ := hwf.field_zero hfirst
    exact ⟨found, hfound hf, hfound hf'⟩

/-- `p = &a.x; q = &a.y`, with the node 4 for the object `a` of two fields, 5 and 6 for its fields
`x` at offset 1 and `y` at offset 3, which are one field, and 7 and 8 for the pointers. -/
def paired : AssignmentGraph :=
  let g := (AssignmentGraph.empty.addObject .constant 2).2
  let g := (g.pushNode .fieldObject (some .constant) (some 0) ⟨1⟩).2
  let g := (g.pushNode .fieldObject (some .constant) (some 0) ⟨3⟩).2
  let g := (g.addValue .constant).2
  let g := (g.addValue .constant).2
  let g := (g.addEdge .addr 5 7).2
  (g.addEdge .addr 6 8).2

theorem built_paired : paired.Built :=
  have h := AssignmentGraph.Built.empty.addObject .constant 2
  have hx : AssignmentGraph.addField _ 4 ⟨1⟩ = .ok (5, _) := rfl
  have hy : AssignmentGraph.addField _ 4 ⟨3⟩ = .ok (6, _) := rfl
  have h := (((h.addField hx).addField hy).addValue .constant).addValue .constant
  (h.pushEdge .addr 5 7 0 none).pushEdge .addr 6 8 0 none

/-- After a lookup of field 0, which makes a node, the nodes 5 and 6 for field 1 still lead to
the node 5. -/
theorem one_node_per_field_paired :
    ∃ cg g, build (CallStringPolicy.policy ⟨.empty, 1⟩) paired true = .ok cg ∧
      cg.field 4 ⟨2⟩ = .ok (9, g) ∧ g.IsFieldAt 5 ⟨0, ⟨1⟩, Context.empty⟩ ∧
      g.IsFieldAt 6 ⟨0, ⟨1⟩, Context.empty⟩ ∧ CopiesApart paired g 5 6 ∧
      ¬ (Reached cg g 5 ∧ Reached cg g 6) ∧ g.field 5 0 = .ok (5, g) ∧
      g.field 6 0 = .ok (5, g) := by
  have hrun : (build (CallStringPolicy.policy ⟨.empty, 1⟩) paired true).toOption.any (fun cg =>
      (cg.field 4 ⟨2⟩).toOption.any fun made => decide (made.1 = 9 ∧
        made.2.IsFieldAt 5 ⟨0, ⟨1⟩, Context.empty⟩ ∧ made.2.IsFieldAt 6 ⟨0, ⟨1⟩, Context.empty⟩) &&
        (made.2.field 5 0).toOption.any fun found => decide (found.1 = 5)) = true := by
    decide +kernel
  obtain ⟨cg, hbuild, hcg⟩ := exists_ok_of_any hrun
  obtain ⟨⟨n, g⟩, hfield, hg⟩ := exists_ok_of_any hcg
  simp only [Bool.and_eq_true, decide_eq_true_eq] at hg
  obtain ⟨⟨rfl, hx, hy⟩, hlookup⟩ := hg
  have hcheck : paired.check = .ok () := by decide +kernel
  obtain ⟨hcopies, hreached, found, hfx, hfy⟩ :=
    one_node_per_field built_paired hcheck hbuild (.field .refl hfield) hx hy
  rw [hfx] at hlookup
  cases of_decide_eq_true hlookup
  exact ⟨cg, g, hbuild, hfield, hx, hy, hcopies.resolve_left (by decide),
    fun h => absurd (hreached h.1 h.2) (by decide), hfx, hfy⟩

/-- The fields `x` and `y` are one field, but each has a node of its own. -/
theorem two_nodes_paired :
    paired.Built ∧ paired.check = .ok () ∧
    ∃ cg key, build (CallStringPolicy.policy ⟨.empty, 1⟩) paired true = .ok cg ∧
      cg.IsFieldAt 5 key ∧ cg.IsFieldAt 6 key ∧ (5 : NodeId) ≠ 6 := by
  have hrun : (build (CallStringPolicy.policy ⟨.empty, 1⟩) paired true).toOption.any (fun cg =>
      decide (cg.IsFieldAt 5 ⟨0, ⟨1⟩, Context.empty⟩ ∧ cg.IsFieldAt 6 ⟨0, ⟨1⟩, Context.empty⟩)) =
        true := by
    decide +kernel
  obtain ⟨cg, hbuild, hcg⟩ := exists_ok_of_any hrun
  obtain ⟨hx, hy⟩ := of_decide_eq_true hcg
  exact ⟨built_paired, by decide +kernel, cg, _, hbuild, hx, hy, by decide⟩

end ContextGraph

end PointerAnalysis
