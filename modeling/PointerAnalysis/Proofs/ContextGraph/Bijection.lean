import Mathlib.Data.List.Perm.Subperm
import Mathlib.Logic.Equiv.Basic
import PointerAnalysis.Proofs.ContextGraph.Coarsen

/-!
The copies are exact. The nodes of a context graph correspond one to one to the nodes of the program
with their contexts, and the lookup of copies is this correspondence. The edges inside functions
join exactly the copies that belong together: all copies of two nodes one of which exists in the
empty context only, and the copies in equal contexts otherwise. No edge is there twice.
-/

namespace PointerAnalysis

namespace ContextGraph

variable {C : Type} [Context C] {p : AssignmentGraph} {policy : ContextPolicy C}
  {fieldSensitive : Bool} {g g' : ContextGraph C}

/-! ## Contexts of nodes -/

/-- The contexts of a node are those of its function. A reserved node, a node without a function and
one whose function has no contexts are there in the empty context only. -/
inductive CopiedIn (policy : ContextPolicy C) (n : Node) : C → Prop where
  | own {f : FuncId} {ctx : C} (hid : reservedCount ≤ n.id) (hf : n.affinity = some f)
      (hctx : ctx ∈ policy.contexts f) : CopiedIn policy n ctx
  | alone (h : ∀ f, reservedCount ≤ n.id → n.affinity = some f → policy.contexts f = []) :
      CopiedIn policy n Context.empty

theorem mem_contextsFor_iff {n : Node} {ctx : C} :
    ctx ∈ contextsFor policy n ↔ CopiedIn policy n ctx := by
  by_cases hid : n.id < reservedCount
  · rw [contextsFor, if_pos hid, List.mem_singleton]
    constructor
    · rintro rfl
      exact .alone fun f hle => absurd hid (Nat.not_lt.mpr hle)
    · intro h
      cases h with
      | own hle => exact absurd hid (Nat.not_lt.mpr hle)
      | alone => rfl
  · have hle := Nat.le_of_not_lt hid
    rw [contextsFor, if_neg hid]
    cases hf : n.affinity with
    | none =>
        simp only [Option.map_none, Option.getD_none, List.mem_singleton]
        constructor
        · rintro rfl
          exact .alone fun f _ h => absurd (hf.symm.trans h) (by simp)
        · intro h
          cases h with
          | own _ h => exact absurd (hf.symm.trans h) (by simp)
          | alone => rfl
    | some f =>
        simp only [Option.map_some, Option.getD_some]
        split
        · rename_i hnil
          rw [List.mem_singleton]
          constructor
          · rintro rfl
            exact .alone fun f' _ h => Option.some.inj (hf.symm.trans h) ▸ hnil
          · intro h
            cases h with
            | own _ h hctx =>
                rw [← Option.some.inj (hf.symm.trans h), hnil] at hctx
                cases hctx
            | alone => rfl
        · rename_i hne
          constructor
          · exact .own hle hf
          · intro h
            cases h with
            | own _ h hctx => exact Option.some.inj (hf.symm.trans h) ▸ hctx
            | alone h => exact absurd (h f hle hf) hne

/-- A node that exists in the empty context only. -/
def Alone (policy : ContextPolicy C) (n : Node) : Prop :=
  ∀ ctx, CopiedIn policy n ctx ↔ ctx = Context.empty

/-- A node of a program in one of its contexts. -/
structure Placed (policy : ContextPolicy C) (p : AssignmentGraph) where
  node : Node
  ctx : C
  found : p.nodes[node.id]? = some node
  copied : CopiedIn policy node ctx

theorem Placed.ext {x y : Placed policy p} (hid : x.node.id = y.node.id) (hctx : x.ctx = y.ctx) :
    x = y := by
  obtain ⟨n, c, hn, hc⟩ := x
  obtain ⟨m, d, hm, hd⟩ := y
  dsimp only at hid hctx
  rw [hid, hm] at hn
  cases hn
  cases hctx
  rfl

/-! ## The order of the copies -/

theorem copiesOf_addCopy {n : Node} {ctx : C} (hok : addCopy n g ctx = .ok g') (input : NodeId) :
    g'.nodes.size = g.nodes.size + 1 ∧
      g'.copiesOf input = g.copiesOf input ++ if n.id = input then [g.nodes.size] else [] := by
  obtain ⟨-, -, rfl⟩ := addCopy_ok hok
  refine ⟨Array.size_push _, ?_⟩
  simp only [copiesOf, Std.TreeMap.getD_insert, Std.LawfulEqCmp.compare_eq_iff_eq]
  split
  · rename_i hi
    simp [hi]
  · simp

/-- The copies of each node are listed in the order of their ids. -/
def Ascending (g : ContextGraph C) : Prop :=
  ∀ input, (g.copiesOf input).Pairwise (· < ·) ∧ ∀ i ∈ g.copiesOf input, i < g.nodes.size

theorem Ascending.addCopy {n : Node} {ctx : C} (hg : Ascending g) (hok : addCopy n g ctx = .ok g') :
    Ascending g' := by
  intro input
  obtain ⟨hsorted, hlt⟩ := hg input
  obtain ⟨hsize, hcopies⟩ := copiesOf_addCopy hok input
  rw [hcopies, hsize]
  split
  · constructor
    · rw [List.pairwise_append]
      exact ⟨hsorted, List.pairwise_singleton _ _, by simpa using hlt⟩
    · intro i hi
      rcases List.mem_append.mp hi with hi | hi
      · exact Nat.lt_succ_of_lt (hlt i hi)
      · rw [List.mem_singleton.mp hi]
        exact Nat.lt_succ_self _
  · rw [List.append_nil]
    exact ⟨hsorted, fun i hi => Nat.lt_succ_of_lt (hlt i hi)⟩

theorem ascending_of_addCopies
    (hok : p.nodes.toList.foldlM (addCopies policy) (start p fieldSensitive) = .ok g) :
    Ascending g := by
  apply foldlM_ok_induction (fun _ g => Ascending g) _ _ hok
  · intro input
    simp [copiesOf, start]
  · intro _ n b b' _ hb hstep
    exact foldlM_ok_induction (fun _ g => Ascending g) hb
      (fun _ _ _ _ _ hb hok => hb.addCopy hok) hstep

/-- Later stages of building add no copies. -/
theorem exists_copies_of_build (hok : build policy p fieldSensitive = .ok g) :
    ∃ g₀, p.nodes.toList.foldlM (addCopies policy) (start p fieldSensitive) = .ok g₀ ∧
      g.copies = g₀.copies := by
  obtain ⟨g₀, g₁, hnodes, -, -, -, hg₁, hg⟩ := exists_stages hok
  exact ⟨g₀, hnodes, hg.copies.trans hg₁.copies⟩

theorem copiesOf_ascending (hok : build policy p fieldSensitive = .ok g) (input : NodeId) :
    (g.copiesOf input).Pairwise (· < ·) := by
  obtain ⟨g₀, hnodes, hcopies⟩ := exists_copies_of_build hok
  rw [copiesOf, hcopies]
  exact (ascending_of_addCopies hnodes input).1

/-- No node has two copies in one context. -/
theorem nodup_contextsOf (hok : build policy p fieldSensitive = .ok g) (input : NodeId) :
    (g.contextsOf input).Nodup := by
  obtain ⟨g₀, hnodes, hcopies⟩ := exists_copies_of_build hok
  have hunique := (copiesOf_of_addCopies hnodes).unique input
  have hsorted := copiesOf_ascending hok input
  rw [copiesOf, hcopies, List.pairwise_map] at hsorted
  rw [contextsOf, hcopies, List.Nodup, List.pairwise_map]
  refine hsorted.imp_of_mem fun {x y} hx hy hlt heq => Nat.ne_of_lt hlt ?_
  exact hunique x.1 x.2 y.2 hx (heq ▸ hy)

/-! ## The keys and kinds of the edges -/

/-- The records of keys and kinds are right, and no key is there twice. -/
structure KeyedOnce (g : ContextGraph C) : Prop where
  keys : ∀ key, key ∈ g.edgeKeys ↔ ∃ e ∈ g.edges, keyOf e = key
  nodup : (g.edges.toList.map keyOf).Nodup
  kinds : ∀ kind, g.edgesOfKind kind = (g.edges.toList.zipIdx.filter (·.1.kind = kind)).map (·.2)

theorem edgesOfKind_pushEdge (g : ContextGraph C) (e : ContextEdge) (kind : EdgeKind) :
    (g.pushEdge e).edgesOfKind kind =
      if e.kind = kind then g.edgesOfKind kind ++ [g.edges.size] else g.edgesOfKind kind := by
  simp only [pushEdge, edgesOfKind, Std.TreeMap.getD_insert, Std.LawfulEqCmp.compare_eq_iff_eq]
  split
  · rename_i hkind
    rw [hkind]
  · rfl

/-- An edge is added only if none has its key. -/
theorem KeyedOnce.withEdge (hg : KeyedOnce g) (e : ContextEdge) : KeyedOnce (g.withEdge e) := by
  unfold ContextGraph.withEdge
  split
  · exact hg
  · rename_i hnew
    refine ⟨mem_edgeKeys_pushEdge hg.keys e, ?_, fun kind => ?_⟩
    · simp only [pushEdge, Array.toList_push, List.map_append, List.map_cons, List.map_nil]
      rw [List.nodup_append]
      refine ⟨hg.nodup, List.nodup_singleton _, fun key hkey key' hkey' heq => hnew ?_⟩
      obtain ⟨e', he', rfl⟩ := List.mem_map.mp hkey
      refine Std.TreeSet.contains_iff_mem.mpr ((hg.keys _).mpr ⟨e', by simpa using he', ?_⟩)
      exact heq.trans (List.mem_singleton.mp hkey')
    · rw [edgesOfKind_pushEdge, hg.kinds]
      simp only [pushEdge, Array.toList_push, List.zipIdx_append, List.filter_append,
        List.map_append, Array.length_toList, Nat.zero_add]
      by_cases hkind : e.kind = kind
      · simp [hkind]
      · simp [hkind]

theorem KeyedOnce.joinCopies {pe : Edge} {ctxs : C × C} (hg : KeyedOnce g)
    (hok : joinCopies pe g ctxs = .ok g') : KeyedOnce g' := by
  rw [joinCopies_eq] at hok
  obtain ⟨src, -, hok⟩ := bind_eq_ok hok
  obtain ⟨dst, -, hok⟩ := bind_eq_ok hok
  cases hok
  exact hg.withEdge _

theorem keyedOnce_of_build (hok : build policy p fieldSensitive = .ok g) : KeyedOnce g := by
  obtain ⟨g₀, g₁, hnodes, hfields, hok, hg₀, hg₁, -⟩ := exists_stages hok
  obtain ⟨hkeys, hkinds⟩ := edgeRecords_of_addCopies hnodes
  obtain ⟨hkeys', hkinds'⟩ := edgeRecords_of_registerField hfields
  apply foldlM_ok_induction (fun _ g => KeyedOnce g) _ _ hok
  · constructor
    · intro key
      rw [hkeys', hkeys, hg₁.edges, hg₀.edges]
      simp [start]
    · simp [hg₁.edges, hg₀.edges]
    · intro kind
      rw [edgesOfKind, hkinds', hkinds, hg₁.edges, hg₀.edges]
      simp [start]
  · intro _ pe b b' _ hb hstep
    obtain ⟨pairs, -, hstep⟩ := bind_eq_ok hstep
    exact foldlM_ok_induction (fun _ g => KeyedOnce g) hb
      (fun _ _ _ _ _ hb hok => hb.joinCopies hok) hstep

theorem KeyedOnce.mem_edgesOfKind (hg : KeyedOnce g) {kind : EdgeKind} {i : EdgeId} :
    i ∈ g.edgesOfKind kind ↔ ∃ e, g.edges[i]? = some e ∧ e.kind = kind := by
  simp only [hg.kinds, List.mem_map, List.mem_filter, List.mem_zipIdx_iff_getElem?,
    Array.getElem?_toList, decide_eq_true_eq]
  constructor
  · rintro ⟨⟨e, i⟩, ⟨he, hkind⟩, rfl⟩
    exact ⟨e, he, hkind⟩
  · rintro ⟨e, he, hkind⟩
    exact ⟨(e, i), ⟨he, hkind⟩, rfl⟩

theorem KeyedOnce.edgesOfKind_ascending (hg : KeyedOnce g) (kind : EdgeKind) :
    (g.edgesOfKind kind).Pairwise (· < ·) := by
  have hsub : (g.edgesOfKind kind).Sublist (g.edges.toList.zipIdx.map (·.2)) := by
    rw [hg.kinds]
    exact List.filter_sublist.map _
  rw [List.zipIdx_map_snd] at hsub
  exact List.Pairwise.sublist hsub List.pairwise_lt_range'

/-! ## The correspondence -/

namespace Unfolds

variable (hg : g.Unfolds policy p fieldSensitive)

include hg

/-- Each node in each of its contexts has a copy, which the graph finds. -/
theorem exists_copy_of_placed (x : Placed policy p) :
    ∃ i, g.copyIn? x.node.id x.ctx = some i ∧ g.nodes[i]? = some (copyOf x.node x.ctx) :=
  hg.exists_copy x.found (mem_contextsFor_iff.mpr x.copied)

/-- The place of the copy of a node in a context. -/
def copy (x : Placed policy p) : Fin g.nodes.size :=
  ⟨(g.copyIn? x.node.id x.ctx).get (by
      obtain ⟨i, hi, -⟩ := hg.exists_copy_of_placed x
      rw [hi]
      rfl), hg.lt_of_copyIn? (Option.some_get _).symm⟩

theorem copyIn?_placed (x : Placed policy p) : g.copyIn? x.node.id x.ctx = some (hg.copy x : Nat) :=
  (Option.some_get _).symm

theorem nodes_copy (x : Placed policy p) :
    g.nodes[(hg.copy x : Nat)]? = some (copyOf x.node x.ctx) := by
  obtain ⟨i, hi, hnode⟩ := hg.exists_copy_of_placed x
  rw [hg.copyIn?_placed x] at hi
  cases hi
  exact hnode

/-- What the graph finds is the copy of a node in one of its contexts. -/
theorem copyIn?_eq_some_iff_placed {input : NodeId} {ctx : C} {i : NodeId} :
    g.copyIn? input ctx = some i ↔
      ∃ x : Placed policy p, x.node.id = input ∧ x.ctx = ctx ∧ (hg.copy x : Nat) = i := by
  constructor
  · intro h
    obtain ⟨n, ctx', hn, hctx', hcopy, hnode⟩ := hg.exists_input (hg.lt_of_copyIn? h)
    obtain ⟨node, hnode', hinput, rfl⟩ := (hg.copyIn?_iff input ctx i).mp h
    cases hnode.symm.trans hnode'
    refine ⟨⟨n, ctx', hn, mem_contextsFor_iff.mp hctx'⟩, Option.some.inj hinput, rfl, ?_⟩
    exact Option.some.inj ((hg.copyIn?_placed _).symm.trans hcopy)
  · rintro ⟨x, rfl, rfl, rfl⟩
    exact hg.copyIn?_placed x

theorem copy_bijective : Function.Bijective hg.copy := by
  constructor
  · intro x y h
    have hnode := hg.nodes_copy x
    rw [h, hg.nodes_copy y] at hnode
    simp only [copyOf, Option.some.injEq, ContextNode.mk.injEq] at hnode
    exact Placed.ext hnode.1.symm hnode.2.2.1.symm
  · intro i
    obtain ⟨n, ctx, -, -, hcopy, -⟩ := hg.exists_input i.isLt
    obtain ⟨x, -, -, hx⟩ := hg.copyIn?_eq_some_iff_placed.mp hcopy
    exact ⟨x, Fin.ext hx⟩

theorem mem_copiesOf_iff_placed {input i : NodeId} : i ∈ g.copiesOf input ↔
    ∃ x : Placed policy p, x.node.id = input ∧ (hg.copy x : Nat) = i := by
  rw [hg.mem_copiesOf]
  constructor
  · rintro ⟨node, hnode, hinput⟩
    obtain ⟨x, hid, -, hx⟩ :=
      hg.copyIn?_eq_some_iff_placed.mp
        ((hg.copyIn?_iff input node.ctx i).mpr ⟨node, hnode, hinput, rfl⟩)
    exact ⟨x, hid, hx⟩
  · rintro ⟨x, rfl, rfl⟩
    exact ⟨_, hg.nodes_copy x, rfl⟩

/-- The reserved nodes stand where they stand in the program. -/
theorem exists_placed_reserved (hp : p.Layout) {i : NodeId} (hi : i < reservedCount) :
    ∃ x : Placed policy p, x.node.id = i ∧ x.ctx = Context.empty ∧ (hg.copy x : Nat) = i := by
  obtain ⟨n, hn⟩ : ∃ n, p.nodes[i]? = some n :=
    ⟨_, Array.getElem?_eq_getElem (Nat.lt_of_lt_of_le hi hp.size)⟩
  obtain rfl := hp.id_eq i n hn
  have hcopied : CopiedIn policy n Context.empty :=
    .alone fun f hle => absurd hi (Nat.not_lt.mpr hle)
  refine ⟨⟨n, Context.empty, hn, hcopied⟩, rfl, rfl, ?_⟩
  exact hg.reserved _ _ _ (hg.copyIn?_placed ⟨n, Context.empty, hn, hcopied⟩) hi

/-- The contexts in which the copies of a node are found are its own. -/
theorem mem_contextsOf_iff_copiedIn {input : NodeId} {n : Node} (hn : p.nodes[input]? = some n)
    {ctx : C} : ctx ∈ g.contextsOf input ↔ CopiedIn policy n ctx := by
  rw [hg.contextsOf input n hn, mem_contextsFor_iff]

theorem isContextInsensitive_iff (hnodup : ∀ input, (g.contextsOf input).Nodup) {input : NodeId}
    {n : Node} (hn : p.nodes[input]? = some n) : g.isContextInsensitive input ↔ Alone policy n := by
  rw [isContextInsensitive, decide_eq_true_eq, ← List.perm_singleton,
    List.perm_ext_iff_of_nodup (hnodup input) (List.nodup_singleton _)]
  simp only [hg.mem_contextsOf_iff_copiedIn hn, List.mem_singleton]
  rfl

end Unfolds

/-! ## Edges inside functions -/

/-- Two placed nodes whose copies an edge inside a function joins: one of them exists in the empty
context only, or their contexts are equal. -/
def Placed.Meets (x y : Placed policy p) : Prop :=
  Alone policy x.node ∨ Alone policy y.node ∨ x.ctx = y.ctx

theorem pairsFor_of_isIntra {pe : Edge} (h : pe.kind.isIntra) :
    pairsFor policy p g pe = g.intraPairs pe := by
  unfold pairsFor
  cases hkind : pe.kind with
  | call | ret | fork | join => simp [hkind, EdgeKind.isIntra] at h
  | addr | copy | load | store | field | anyField => rfl

section intra

variable (hg : g.Unfolds policy p fieldSensitive) (hnodup : ∀ input, (g.contextsOf input).Nodup)
  {pe : Edge} {src dst : Node} (hsrc : p.nodes[pe.src]? = some src)
  (hdst : p.nodes[pe.dst]? = some dst)

include hg hnodup hsrc hdst

/-- Which pairs of contexts an edge inside a function joins. -/
theorem intraPairs_cases {pairs : List (C × C)} (hpairs : g.intraPairs pe = .ok pairs) :
    (Alone policy src ∨ Alone policy dst) ∧ pairs = allPairs (g.contextsOf pe.src)
    (g.contextsOf pe.dst) ∨
      ¬ (Alone policy src ∨ Alone policy dst) ∧ pairs = samePairs (g.contextsOf pe.src) ∧
        (g.contextsOf pe.src).length = (g.contextsOf pe.dst).length := by
  have halone : (g.isContextInsensitive pe.src || g.isContextInsensitive pe.dst) = true ↔
      Alone policy src ∨ Alone policy dst := by
    rw [Bool.or_eq_true, hg.isContextInsensitive_iff hnodup hsrc,
      hg.isContextInsensitive_iff hnodup hdst]
  unfold intraPairs at hpairs
  dsimp only at hpairs
  split at hpairs
  · rename_i hinsensitive
    exact .inl ⟨halone.mp hinsensitive, (Except.ok.inj hpairs).symm⟩
  · rename_i hsensitive
    split at hpairs
    · rename_i hlength
      exact .inr ⟨fun h => hsensitive (halone.mpr h), (Except.ok.inj hpairs).symm, hlength⟩
    · cases hpairs

/-- The end points of an edge inside a function have the same contexts, unless one of them exists in
the empty context only. -/
theorem copiedIn_iff_of_isIntra (hpe : pe ∈ p.edges) (hintra : pe.kind.isIntra) :
    Alone policy src ∨ Alone policy dst ∨ ∀ ctx, CopiedIn policy src ctx ↔
      CopiedIn policy dst ctx := by
  obtain ⟨pairs, hpairs, hjoined⟩ := hg.joined pe hpe
  rw [pairsFor_of_isIntra hintra] at hpairs
  rcases intraPairs_cases hg hnodup hsrc hdst hpairs with ⟨halone, -⟩ | ⟨-, rfl, hlength⟩
  · exact halone.imp_right .inl
  · -- every context of the source was found at the target, and there are as many of either
    have hsub : g.contextsOf pe.src ⊆ g.contextsOf pe.dst := by
      intro ctx hctx
      obtain ⟨e, -, hjoins⟩ := hjoined (ctx, ctx) (List.mem_map.mpr ⟨ctx, hctx, rfl⟩)
      exact mem_contextsOf_iff.mpr ⟨_, hjoins.dst⟩
    have hperm : (g.contextsOf pe.src).Perm (g.contextsOf pe.dst) :=
      ((hnodup pe.src).subperm hsub).perm_of_length_le (Nat.le_of_eq hlength.symm)
    refine .inr (.inr fun ctx => ?_)
    rw [← hg.mem_contextsOf_iff_copiedIn hsrc, ← hg.mem_contextsOf_iff_copiedIn hdst]
    exact hperm.mem_iff

/-- The pairs of contexts that an edge inside a function joins are those in which its end
points meet. -/
theorem mem_intraPairs_iff (hpe : pe ∈ p.edges) (hintra : pe.kind.isIntra) {pairs : List (C × C)}
    (hpairs : g.intraPairs pe = .ok pairs) {c d : C} :
    (c, d) ∈ pairs ↔ CopiedIn policy src c ∧ CopiedIn policy dst d ∧
      (Alone policy src ∨ Alone policy dst ∨ c = d) := by
  have hsame := copiedIn_iff_of_isIntra hg hnodup hsrc hdst hpe hintra
  rcases intraPairs_cases hg hnodup hsrc hdst hpairs with ⟨halone, rfl⟩ | ⟨hnot, rfl, -⟩
  · simp only [allPairs, List.mem_flatMap, List.mem_map, Prod.mk.injEq,
      hg.mem_contextsOf_iff_copiedIn hsrc, hg.mem_contextsOf_iff_copiedIn hdst]
    constructor
    · rintro ⟨_, hc, _, hd, rfl, rfl⟩
      exact ⟨hc, hd, halone.imp_right .inl⟩
    · rintro ⟨hc, hd, -⟩
      exact ⟨c, hc, d, hd, rfl, rfl⟩
  · have hsame : ∀ ctx, CopiedIn policy src ctx ↔ CopiedIn policy dst ctx :=
      (hsame.resolve_left fun h => hnot (.inl h)).resolve_left fun h => hnot (.inr h)
    simp only [samePairs, List.mem_map, Prod.mk.injEq, hg.mem_contextsOf_iff_copiedIn hsrc]
    constructor
    · rintro ⟨_, hc, rfl, rfl⟩
      exact ⟨hc, (hsame _).mp hc, .inr (.inr rfl)⟩
    · rintro ⟨hc, -, hmeet⟩
      obtain rfl := (hmeet.resolve_left fun h => hnot (.inl h)).resolve_left fun h => hnot (.inr h)
      exact ⟨c, hc, rfl, rfl⟩

end intra

/-- The edges inside functions are the copies of the program's between the nodes that meet. -/
theorem Unfolds.exists_edge_iff (hg : g.Unfolds policy p fieldSensitive)
    (hnodup : ∀ input, (g.contextsOf input).Nodup) {key : EdgeKey} (hintra : key.kind.isIntra) :
    (∃ e ∈ g.edges, keyOf e = key) ↔ ∃ pe ∈ p.edges, pe.kind = key.kind ∧ pe.offset = key.offset ∧
      ∃ x y : Placed policy p, x.node.id = pe.src ∧ y.node.id = pe.dst ∧ x.Meets y ∧
        (hg.copy x : Nat) = key.src ∧ (hg.copy y : Nat) = key.dst := by
  constructor
  · rintro ⟨e, he, rfl⟩
    obtain ⟨pe, hpe, pairs, hpairs, ⟨c, d⟩, hctxs, hjoins⟩ := hg.edge e he
    have hpintra : pe.kind.isIntra := hjoins.kind ▸ hintra
    rw [pairsFor_of_isIntra hpintra] at hpairs
    obtain ⟨x, hx, rfl, hsrc⟩ := hg.copyIn?_eq_some_iff_placed.mp hjoins.src
    obtain ⟨y, hy, rfl, hdst⟩ := hg.copyIn?_eq_some_iff_placed.mp hjoins.dst
    have hmeet :=
      ((mem_intraPairs_iff hg hnodup (hx ▸ x.found) (hy ▸ y.found) hpe hpintra hpairs).mp hctxs).2.2
    exact ⟨pe, hpe, hjoins.kind.symm, hjoins.offset.symm, x, y, hx, hy, hmeet, hsrc, hdst⟩
  · rintro ⟨pe, hpe, hkind, hoffset, x, y, hx, hy, hmeet, hsrc, hdst⟩
    have hpintra : pe.kind.isIntra := hkind ▸ hintra
    obtain ⟨pairs, hpairs, hjoined⟩ := hg.joined pe hpe
    rw [pairsFor_of_isIntra hpintra] at hpairs
    have hctxs :=
      (mem_intraPairs_iff hg hnodup (hx ▸ x.found) (hy ▸ y.found) hpe hpintra hpairs).mpr
      ⟨x.copied, y.copied, hmeet⟩
    obtain ⟨e, he, hjoins⟩ := hjoined _ hctxs
    refine ⟨e, he, ?_⟩
    have hesrc : some e.src = some key.src := by
      rw [← hjoins.src, ← hx, hg.copyIn?_placed x, hsrc]
    have hedst : some e.dst = some key.dst := by
      rw [← hjoins.dst, ← hy, hg.copyIn?_placed y, hdst]
    obtain ⟨ksrc, kdst, kkind, koffset⟩ := key
    simp only [keyOf, hjoins.kind, hjoins.offset, hkind, hoffset, Option.some.inj hesrc,
      Option.some.inj hedst]

/-! ## The statement -/

/-- A graph is the duplication of a program under a policy, where `copy` says which node is the copy
of which node in which context. -/
structure Duplicates (g : ContextGraph C) (copy : Placed policy p ≃ Fin g.nodes.size) : Prop where
  /-- a copy keeps what is known about the node and knows which node it is a copy of -/
  node : ∀ x, g.nodes[(copy x : Nat)]? = some (copyOf x.node x.ctx)
  reserved : ∀ i < reservedCount, ∃ x, x.node.id = i ∧ x.ctx = Context.empty ∧ (copy x : Nat) = i
  copyIn? : ∀ input ctx i, g.copyIn? input ctx = some i ↔
    ∃ x, x.node.id = input ∧ x.ctx = ctx ∧ (copy x : Nat) = i
  copiesOf : ∀ input, (g.copiesOf input).Pairwise (· < ·) ∧
    ∀ i, i ∈ g.copiesOf input ↔ ∃ x, x.node.id = input ∧ (copy x : Nat) = i
  /-- the edges inside functions -/
  edge : ∀ key : EdgeKey, key.kind.isIntra → ((∃ e ∈ g.edges, keyOf e = key) ↔
    ∃ pe ∈ p.edges, pe.kind = key.kind ∧ pe.offset = key.offset ∧
      ∃ x y, x.node.id = pe.src ∧ y.node.id = pe.dst ∧ x.Meets y ∧
        (copy x : Nat) = key.src ∧ (copy y : Nat) = key.dst)
  /-- the contexts in which nodes meet are common to both -/
  contexts : ∀ pe ∈ p.edges, pe.kind.isIntra → ∀ src dst, p.nodes[pe.src]? = some src →
    p.nodes[pe.dst]? = some dst → Alone policy src ∨ Alone policy dst ∨
      ∀ ctx, CopiedIn policy src ctx ↔ CopiedIn policy dst ctx
  keys : (g.edges.toList.map keyOf).Nodup
  edgesOfKind : ∀ kind, (g.edgesOfKind kind).Pairwise (· < ·) ∧
    ∀ i, i ∈ g.edgesOfKind kind ↔ ∃ e, g.edges[i]? = some e ∧ e.kind = kind

/-- Whatever the policy, a graph that can be built is the duplication of its program. -/
theorem build_duplicates (hp : p.Built) (hok : build policy p fieldSensitive = .ok g) :
    ∃ copy : Placed policy p ≃ Fin g.nodes.size, g.Duplicates copy := by
  have hg := build_unfolds hp.layout hok
  have hnodup := nodup_contextsOf hok
  refine ⟨.ofBijective hg.copy hg.copy_bijective, ?_⟩
  constructor
  case node => exact hg.nodes_copy
  case reserved => exact fun i hi => hg.exists_placed_reserved hp.layout hi
  case copyIn? => exact fun input ctx i => hg.copyIn?_eq_some_iff_placed
  case copiesOf => exact fun input =>
                     ⟨copiesOf_ascending hok input, fun i => hg.mem_copiesOf_iff_placed⟩
  case edge => exact fun key hintra => hg.exists_edge_iff hnodup hintra
  case contexts =>
    exact fun pe hpe hintra src dst hsrc hdst =>
      copiedIn_iff_of_isIntra hg hnodup hsrc hdst hpe hintra
  case keys => exact (keyedOnce_of_build hok).nodup
  case edgesOfKind =>
    have hkeyed := keyedOnce_of_build hok
    exact fun kind => ⟨hkeyed.edgesOfKind_ascending kind, fun i => hkeyed.mem_edgesOfKind⟩

theorem exists_ok_of_any {ε α : Type} {x : Except ε α} {P : α → Bool}
    (h : x.toOption.any P = true) : ∃ a, x = .ok a ∧ P a = true := by
  cases x with
  | error e => cases h
  | ok a => exact ⟨a, rfl, h⟩

/-- `a() { p = &x; r = keep(p) }  b() { q = &y; keep(q) }  keep(u) { last = u; last = u; return u
}`, with the functions 1, 2 and 3, the nodes 4 and 5 for the objects, 6, 7 and 8 for `p`, `q` and
`u`, 9 for what `keep` returns, 10 for `r` and 11 for the global variable `last`. -/
def keeping : AssignmentGraph :=
  let g := (AssignmentGraph.empty.addObject (.instruction 1) 1).2
  let g := (g.addObject (.instruction 2) 1).2
  let g := (g.addValue (.instruction 1)).2
  let g := (g.addValue (.instruction 2)).2
  let g := (g.addValue (.argument 3)).2
  let g := (g.addReturned 3).2
  let g := (g.addValue (.instruction 1)).2
  let g := (g.addValue .constant).2
  let g := (g.addEdge .addr 4 6).2
  let g := (g.addEdge .addr 5 7).2
  let g := (g.addSiteEdge .call 6 8 0).2
  let g := (g.addSiteEdge .call 7 8 1).2
  let g := (g.addEdge .copy 8 11).2
  let g := (g.addEdge .copy 8 11).2
  let g := (g.addEdge .copy 8 9).2
  (g.addSiteEdge .ret 9 10 0).2

theorem built_keeping : keeping.Built :=
  have h := AssignmentGraph.Built.empty.addObject (.instruction 1) 1
  have h := ((h.addObject (.instruction 2) 1).addValue (.instruction 1)).addValue (.instruction 2)
  have h := ((h.addValue (.argument 3)).addReturned 3).addValue (.instruction 1)
  have h := ((h.addValue .constant).pushEdge .addr 4 6 0 none).pushEdge .addr 5 7 0 none
  have h := (h.pushEdge .call 6 8 0 (some 0)).pushEdge .call 7 8 0 (some 1)
  have h := (h.pushEdge .copy 8 11 0 none).pushEdge .copy 8 11 0 none
  (h.pushEdge .copy 8 9 0 none).pushEdge .ret 9 10 0 (some 0)

/-- Who calls whom in `keeping`. -/
def keepingCalls : CallGraph := (CallGraph.empty.addCall 1 3 0).addCall 2 3 1

/-- The two copies of what `keep` is passed flow to its own two copies of what it returns, and to
the one copy of the global variable. -/
theorem build_duplicates_keeping :
    ∃ g, build (CallStringPolicy.policy ⟨keepingCalls, 1⟩) keeping true = .ok g ∧
      (g.copiesOf 8 = [8, 9] ∧ g.copiesOf 9 = [10, 11] ∧ g.copiesOf 11 = [13]) ∧
      (g.edgesOfKind .copy).map (fun i => g.edges[i]?.map keyOf) =
        [some ⟨8, 13, .copy, 0⟩, some ⟨9, 13, .copy, 0⟩, some ⟨8, 10, .copy, 0⟩,
          some ⟨9, 11, .copy, 0⟩] ∧
      ∃ copy : Placed (CallStringPolicy.policy ⟨keepingCalls, 1⟩) keeping ≃ Fin g.nodes.size,
        g.Duplicates copy := by
  have hbuild :
      (build (CallStringPolicy.policy ⟨keepingCalls, 1⟩) keeping true).toOption.any (fun g =>
      decide ((g.copiesOf 8 = [8, 9] ∧ g.copiesOf 9 = [10, 11] ∧ g.copiesOf 11 = [13]) ∧
        (g.edgesOfKind .copy).map (fun i => g.edges[i]?.map keyOf) =
          [some ⟨8, 13, .copy, 0⟩, some ⟨9, 13, .copy, 0⟩, some ⟨8, 10, .copy, 0⟩,
            some ⟨9, 11, .copy, 0⟩])) = true := by
    decide +kernel
  obtain ⟨g, hok, hg⟩ := exists_ok_of_any hbuild
  obtain ⟨hcopies, hedges⟩ := of_decide_eq_true hg
  exact ⟨g, hok, hcopies, hedges, build_duplicates built_keeping hok⟩

end ContextGraph

end PointerAnalysis
