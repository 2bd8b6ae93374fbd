import PointerAnalysis.Proofs.ContextGraph.Copies
import PointerAnalysis.Proofs.ContextGraph.Plain

/-!
When building cannot fail. It is enough that no node is to have two copies in one context, and that
the copies which an edge is to join are all there. The base node of a field then has a copy wherever
the field has one, since both belong to one function.
-/

namespace PointerAnalysis

namespace ContextGraph

variable {C : Type} [Context C] {p : AssignmentGraph} {policy : ContextPolicy C}
  {fieldSensitive : Bool} {g g₀ g₁ : ContextGraph C}

/-- All nodes of a program have their copies. -/
def Copied (policy : ContextPolicy C) (p : AssignmentGraph) (g : ContextGraph C) : Prop :=
  ∀ (input : NodeId) (n : Node), p.nodes[input]? = some n →
    g.contextsOf input = contextsFor policy n

/-- What a policy has to make sure of. -/
structure Buildable (policy : ContextPolicy C) (p : AssignmentGraph) : Prop where
  nodup : ∀ n ∈ p.nodes, (contextsFor policy n).Nodup
  pairs : ∀ g : ContextGraph C, Copied policy p g → ∀ pe ∈ p.edges,
    ∃ pairs, pairsFor policy p g pe = .ok pairs ∧
      ∀ ctxs ∈ pairs, ctxs.1 ∈ g.contextsOf pe.src ∧ ctxs.2 ∈ g.contextsOf pe.dst

theorem contextsFor_reserved {n : Node} (h : n.id < reservedCount) :
    contextsFor policy n = [Context.empty] := by
  rw [contextsFor, if_pos h]

/-! ## Nodes -/

theorem addCopies_total {n : Node} (hnodup : (contextsFor policy n).Nodup)
    (hnone : g.contextsOf n.id = []) (hid : n.id < reservedCount → g.nodes.size = n.id) :
    ∃ g', addCopies policy g n = .ok g' ∧
      g'.nodes.size = g.nodes.size + (contextsFor policy n).length := by
  have htotal : ∃ g', addCopies policy g n = .ok g' ∧ g'.contextsOf n.id = contextsFor policy n ∧
      g'.nodes.size = g.nodes.size + (contextsFor policy n).length := by
    apply foldlM_total fun ctxs (b : ContextGraph C) =>
      b.contextsOf n.id = ctxs ∧ b.nodes.size = g.nodes.size + ctxs.length
    · exact ⟨hnone, rfl⟩
    · intro done ctx rest b hctxs ⟨hdone, hsize⟩
      have hnew : b.copyIn? n.id ctx = none := by
        rw [Option.eq_none_iff_forall_ne_some]
        intro i hi
        have hmem : ctx ∈ done := hdone ▸ mem_contextsOf_iff.mpr ⟨i, hi⟩
        rw [hctxs] at hnodup
        exact (List.nodup_append.mp hnodup).2.2 ctx hmem ctx List.mem_cons_self rfl
      have hkept : n.id < reservedCount → b.nodes.size = n.id := by
        intro hlt
        have hone : done.length + (rest.length + 1) = 1 := by
          simpa [contextsFor_reserved hlt] using (congrArg List.length hctxs).symm
        rw [hsize, ← hid hlt]
        omega
      refine ⟨_, addCopy_eq_ok hnew hkept, ?_, ?_⟩
      · rw [contextsOf_addCopy (addCopy_eq_ok hnew hkept), hdone, if_pos rfl]
      · simp [hsize, Nat.add_assoc]
  obtain ⟨g', hok, -, hsize⟩ := htotal
  exact ⟨g', hok, hsize⟩

/-- The first nodes of a program have their copies, and as long as these are reserved nodes,
each has one. -/
structure CopiedFirst (policy : ContextPolicy C) (done : List Node) (g : ContextGraph C) :
    Prop where
  contextsOf : ∀ input, g.contextsOf input =
    (done.filter (·.id = input)).flatMap (contextsFor policy)
  size : done.length ≤ reservedCount → g.nodes.size = done.length

theorem CopiedFirst.addCopies {done rest : List Node} {n : Node} (hg : CopiedFirst policy done g)
    (hp : p.Layout) (hnodes : p.nodes.toList = done ++ n :: rest)
    (hnodup : (contextsFor policy n).Nodup) :
    ∃ g', addCopies policy g n = .ok g' ∧ CopiedFirst policy (done ++ [n]) g' := by
  have hat : ∀ j, j < (done ++ [n]).length → p.nodes[j]? = (done ++ [n])[j]? := by
    intro j hj
    rw [← Array.getElem?_toList, hnodes, List.append_cons, List.getElem?_append_left hj]
  have hid : n.id = done.length := by
    apply hp.id_eq
    rw [hat _ (by simp)]
    simp
  have hnone : g.contextsOf n.id = [] := by
    rw [hg.contextsOf, List.filter_eq_nil_iff.mpr, List.flatMap_nil]
    intro m hm heq
    obtain ⟨j, hj, rfl⟩ := List.getElem_of_mem hm
    have hget : p.nodes[j]? = some done[j] := by
      rw [hat j (by simp; omega), List.getElem?_append_left hj, List.getElem?_eq_getElem hj]
    have hidj := hp.id_eq j _ hget
    rw [of_decide_eq_true heq, hid] at hidj
    exact Nat.ne_of_gt hj hidj
  have hreserved : n.id < reservedCount → g.nodes.size = n.id := by
    intro hlt
    rw [hid] at hlt ⊢
    exact hg.size (Nat.le_of_lt hlt)
  obtain ⟨g', hok, hsize⟩ := addCopies_total hnodup hnone hreserved
  refine ⟨g', hok, ?_, ?_⟩
  · intro input
    rw [contextsOf_addCopies hok, hg.contextsOf, List.filter_append, List.flatMap_append]
    by_cases hinput : n.id = input <;> simp [hinput]
  · intro hle
    rw [List.length_append, List.length_singleton] at hle ⊢
    rw [hsize, hg.size (Nat.le_of_succ_le hle), contextsFor_reserved (hid ▸ hle),
      List.length_singleton]

theorem exists_copied (fieldSensitive : Bool) (hp : p.Layout)
    (hnodup : ∀ n ∈ p.nodes, (contextsFor policy n).Nodup) :
    ∃ g, p.nodes.toList.foldlM (addCopies policy) (start p fieldSensitive) = .ok g := by
  have hstart : CopiedFirst policy [] (start p fieldSensitive : ContextGraph C) :=
    ⟨fun input => by simp [contextsOf, start], fun _ => rfl⟩
  obtain ⟨g, hok, -⟩ := foldlM_total (CopiedFirst policy) hstart fun done n rest b hnodes hb =>
    hb.addCopies hp hnodes (hnodup n (by simp [← Array.mem_toList_iff, hnodes]))
  exact ⟨g, hok⟩

theorem copied_of_addCopies (hp : p.Layout)
    (hok : p.nodes.toList.foldlM (addCopies policy) (start p fieldSensitive) = .ok g) :
    Copied policy p g := by
  intro input n hn
  rw [contextsOf_of_addCopies hok, hp.filter_id hn]
  simp

theorem Copied.congr (h : Copied policy p g₀) (hcopies : g.copies = g₀.copies) :
    Copied policy p g := by
  intro input n hn
  rw [contextsOf, hcopies]
  exact h input n hn

theorem copyIn_of_mem {input : NodeId} {ctx : C} (h : ctx ∈ g.contextsOf input) :
    ∃ i, g.copyIn input ctx = .ok i := by
  obtain ⟨i, hi⟩ := mem_contextsOf_iff.mp h
  exact ⟨i, by rw [copyIn, hi]⟩

/-! ## Fields -/

section fields

variable (hp : p.Built) (hg₀ : CopiesOf p fieldSensitive p.nodes.toList g₀)
  (hcopied : Copied policy p g₀)

include hp

/-- A part of an object is copied for the same contexts as the base node. -/
theorem contextsFor_base (policy : ContextPolicy C) {n : Node} {mem : MemObjId}
    (hn : p.nodes[n.id]? = some n)
    (hmem : n.memObj = some mem) : ∃ (obj : MemObject) (base : Node), p.memObjs[mem]? = some obj ∧
      p.nodes[obj.baseNode]? = some base ∧ contextsFor policy base = contextsFor policy n := by
  have hreserved : ∀ m : Node, p.nodes[m.id]? = some m → m.memObj = some mem →
      ¬ m.id < reservedCount := by
    intro m hm hmmem hlt
    cases hmmem.symm.trans (hp.layout.reserved m.id m hm hlt).1
  obtain ⟨hobject, obj, base, hobj, hbase, hvalue⟩ := hp.uniform n.id n mem hn hmem
  obtain ⟨-, base', hbase', hbmem, -⟩ := hp.layout.objects mem obj hobj
  cases hbase.symm.trans hbase'
  have hbase'' : p.nodes[base.id]? = some base := by rw [hp.layout.id_eq _ _ hbase, hbase]
  have hbobject := (hp.uniform base.id base mem hbase'' hbmem).1
  have haffinity : base.affinity = n.affinity := by
    rw [Node.affinity_of_isObject hobject, Node.affinity_of_isObject hbobject, Node.localTo,
      Node.localTo, hvalue]
  refine ⟨obj, base, hobj, hbase, ?_⟩
  rw [contextsFor, contextsFor, if_neg (hreserved n hn hmem), if_neg (hreserved base hbase'' hbmem),
    haffinity]

include hg₀ hcopied

theorem registerField_total {i : NodeId} (hi : i < g₀.nodes.size) (hnodes : g.nodes = g₀.nodes)
    (hcopies : g.copies = g₀.copies) (hmemObjs : g.memObjs = g₀.memObjs) :
    ∃ g', registerField p g i = .ok g' := by
  have hnode := Array.getElem?_eq_getElem hi
  obtain ⟨n, ctx, hn, hcopy⟩ := hg₀.exists_input hp.layout hnode
  rw [hcopy] at hnode
  have hentry : entryAt g.nodes i = .ok (copyOf n ctx) := entryAt_eq_ok (hnodes ▸ hnode)
  simp only [registerField, hentry, bind, Except.bind, pure, Except.pure]
  split
  · rename_i mem hkind hmem
    obtain ⟨obj, base, hobj, hbase, hcontexts⟩ := contextsFor_base hp policy hn hmem
    obtain ⟨obj', hobj', -⟩ := hg₀.memObj hobj
    have hctx : ctx ∈ g.contextsOf obj.baseNode := by
      rw [hcopied.congr hcopies _ base hbase, hcontexts, ← hcopied n.id n hn, mem_contextsOf_iff]
      exact ⟨i, hg₀.copyIn?_eq_some.mpr ⟨_, hnode, rfl, rfl⟩⟩
    obtain ⟨b, hb⟩ := copyIn_of_mem hctx
    rw [hmemObjs]
    simp only [entryAt_eq_ok hobj, entryAt_eq_ok hobj', copyOf, hb]
    exact ⟨_, rfl⟩
  · exact ⟨g, rfl⟩

theorem exists_registered :
    ∃ g, (List.range g₀.nodes.size).foldlM (registerField p) g₀ = .ok g ∧ g.copies = g₀.copies := by
  have htotal : ∃ g, (List.range g₀.nodes.size).foldlM (registerField p) g₀ = .ok g ∧
      g.nodes = g₀.nodes ∧ g.copies = g₀.copies ∧ g.memObjs = g₀.memObjs := by
    apply foldlM_total fun _ (g : ContextGraph C) =>
      g.nodes = g₀.nodes ∧ g.copies = g₀.copies ∧ g.memObjs = g₀.memObjs
    · exact ⟨rfl, rfl, rfl⟩
    · intro done i rest g hrange ⟨hnodes, hcopies, hmemObjs⟩
      have hi : i ∈ List.range g₀.nodes.size := by
        rw [hrange]
        simp
      obtain ⟨g', hok⟩ :=
        registerField_total hp hg₀ hcopied (List.mem_range.mp hi) hnodes hcopies hmemObjs
      refine ⟨g', hok, ?_⟩
      obtain ⟨node, -, ⟨mem, obj, obj', base, -, -, -, -, -, rfl⟩ | ⟨-, rfl⟩⟩ :=
        registerField_ok hok
      · exact ⟨hnodes, hcopies, hmemObjs⟩
      · exact ⟨hnodes, hcopies, hmemObjs⟩
  obtain ⟨g, hok, -, hcopies, -⟩ := htotal
  exact ⟨g, hok, hcopies⟩

end fields

/-! ## Edges -/

section intra

variable (hcheck : p.check = .ok ()) {pe : Edge} {src dst : Node}
  (hsrc : p.nodes[pe.src]? = some src) (hdst : p.nodes[pe.dst]? = some dst)

include hcheck hsrc hdst

/-- Nodes of one function have the same contexts. -/
theorem contextsFor_eq_of_affinity (h : src.affinity = dst.affinity) :
    contextsFor policy src = contextsFor policy dst := by
  cases hf : src.affinity with
  | none => rw [contextsFor_of_affinity hf, contextsFor_of_affinity (h.symm.trans hf)]
  | some f =>
      have hid : ∀ (i : NodeId) (n : Node), p.nodes[i]? = some n → n.affinity = some f →
          ¬ n.id < reservedCount := by
        intro i n hn hnf hlt
        rw [Node.affinity, AssignmentGraph.check_reserved hcheck hn hlt] at hnf
        cases hnf
      rw [contextsFor, contextsFor, if_neg (hid _ src hsrc hf),
        if_neg (hid _ dst hdst (h.symm.trans hf)), h]

/-- An assignment within a function, or to or from what belongs to none, finds the copies it needs.
-/
theorem exists_intraPairs (hcopied : Copied policy p g)
    (haffinity : src.affinity = dst.affinity ∨ src.affinity = none ∨ dst.affinity = none) :
    ∃ pairs, g.intraPairs pe = .ok pairs ∧
      ∀ ctxs ∈ pairs, ctxs.1 ∈ g.contextsOf pe.src ∧ ctxs.2 ∈ g.contextsOf pe.dst := by
  have halone : ∀ (i : NodeId) (n : Node), p.nodes[i]? = some n → n.affinity = none →
      g.isContextInsensitive i = true := by
    intro i n hn hnone
    rw [isContextInsensitive, decide_eq_true_eq, hcopied i n hn, contextsFor_of_affinity hnone]
  have hsame : (g.isContextInsensitive pe.src || g.isContextInsensitive pe.dst) = true ∨
      g.contextsOf pe.src = g.contextsOf pe.dst := by
    rcases haffinity with h | h | h
    · right
      rw [hcopied _ src hsrc, hcopied _ dst hdst, contextsFor_eq_of_affinity hcheck hsrc hdst h]
    · left
      rw [halone _ src hsrc h, Bool.true_or]
    · left
      rw [halone _ dst hdst h, Bool.or_true]
  unfold intraPairs
  dsimp only
  split
  · refine ⟨_, rfl, fun ctxs h => ?_⟩
    obtain ⟨c, hc, h⟩ := List.mem_flatMap.mp h
    obtain ⟨d, hd, rfl⟩ := List.mem_map.mp h
    exact ⟨hc, hd⟩
  · rename_i hsensitive
    have hsame := hsame.resolve_left hsensitive
    rw [if_pos (congrArg List.length hsame)]
    refine ⟨_, rfl, fun ctxs h => ?_⟩
    obtain ⟨c, hc, rfl⟩ := List.mem_map.mp h
    exact ⟨hc, hsame ▸ hc⟩

end intra

theorem joinCopies_total {pe : Edge} {ctxs : C × C} (hsrc : ctxs.1 ∈ g.contextsOf pe.src)
    (hdst : ctxs.2 ∈ g.contextsOf pe.dst) :
    ∃ g', joinCopies pe g ctxs = .ok g' ∧ g'.copies = g.copies := by
  obtain ⟨src, hsrc⟩ := copyIn_of_mem hsrc
  obtain ⟨dst, hdst⟩ := copyIn_of_mem hdst
  refine ⟨g.withEdge (pe.between src dst), ?_, ?_⟩
  · simp [joinCopies_eq, hsrc, hdst, bind, Except.bind, pure, Except.pure]
  · unfold withEdge
    split <;> rfl

theorem copyEdge_total (hbuildable : Buildable policy p) (hcopied : Copied policy p g) {pe : Edge}
    (hpe : pe ∈ p.edges) : ∃ g', copyEdge policy p g pe = .ok g' ∧ g'.copies = g.copies := by
  obtain ⟨pairs, hpairs, hctxs⟩ := hbuildable.pairs g hcopied pe hpe
  rw [copyEdge, hpairs]
  apply foldlM_total fun _ (b : ContextGraph C) => b.copies = g.copies
  · rfl
  · intro done ctxs rest b hsplit hb
    obtain ⟨hsrc, hdst⟩ := hctxs ctxs (by simp [hsplit])
    rw [contextsOf, ← hb] at hsrc hdst
    obtain ⟨b', hok, hb'⟩ := joinCopies_total hsrc hdst
    exact ⟨b', hok, hb'.trans hb⟩

theorem exists_joined (hbuildable : Buildable policy p) (hcopied : Copied policy p g₁) :
    ∃ g, (EdgeKind.all.flatMap p.edgesOfKind).foldlM (copyEdge policy p) g₁ = .ok g := by
  have htotal : ∃ g, (EdgeKind.all.flatMap p.edgesOfKind).foldlM (copyEdge policy p) g₁ = .ok g ∧
      g.copies = g₁.copies := by
    apply foldlM_total fun _ (b : ContextGraph C) => b.copies = g₁.copies
    · rfl
    · intro done pe rest b hsplit hb
      have hpe : pe ∈ p.edges := mem_flatMap_edgesOfKind.mp (by simp [hsplit])
      obtain ⟨b', hok, hb'⟩ := copyEdge_total hbuildable (hcopied.congr hb) hpe
      exact ⟨b', hok, hb'.trans hb⟩
  exact htotal.imp fun _ => And.left

/-- What a policy makes sure of is enough for the graph to be built. -/
theorem Buildable.exists_build (hbuildable : Buildable policy p) (hp : p.Built)
    (fieldSensitive : Bool) : ∃ g, build policy p fieldSensitive = .ok g := by
  obtain ⟨g₀, hnodes⟩ := exists_copied fieldSensitive hp.layout hbuildable.nodup
  have hcopied := copied_of_addCopies hp.layout hnodes
  obtain ⟨g₁, hfields, hcopies⟩ := exists_registered hp (copiesOf_of_addCopies hnodes) hcopied
  obtain ⟨g, hedges⟩ := exists_joined hbuildable (hcopied.congr hcopies)
  exact ⟨g, by rw [build, hnodes]; simp only [bind, Except.bind, hfields, hedges]⟩

end ContextGraph

end PointerAnalysis
