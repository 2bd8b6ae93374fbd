import Mathlib.Data.List.Nodup
import PointerAnalysis.Proofs.ContextGraph.Build

/-!
What a context graph consists of. A node of the program has one copy in each of its contexts, an
edge has one copy for each pair of contexts that it joins, and there is nothing else.
-/

namespace PointerAnalysis

/-- The nodes of a program are told apart by their ids. -/
theorem AssignmentGraph.Layout.filter_id {p : AssignmentGraph} (hp : p.Layout) {i : NodeId}
    {n : Node} (hn : p.nodes[i]? = some n) : p.nodes.toList.filter (·.id = i) = [n] := by
  have hids : p.nodes.toList.map Node.id = List.range p.nodes.size := by
    refine List.ext_getElem (by simp) fun j hj _ => ?_
    have hj : j < p.nodes.size := by simpa using hj
    simpa using hp.id_eq j p.nodes[j] (Array.getElem?_eq_getElem hj)
  have hnodup : p.nodes.toList.Nodup := List.Nodup.of_map Node.id (hids ▸ List.nodup_range)
  refine List.perm_singleton.mp ((List.perm_ext_iff_of_nodup (hnodup.filter _) (by simp)).mpr ?_)
  intro m
  simp only [List.mem_filter, Array.mem_toList_iff, decide_eq_true_eq, List.mem_singleton]
  constructor
  · rintro ⟨hm, rfl⟩
    obtain ⟨j, hj⟩ := Array.mem_iff_getElem?.mp hm
    rw [hp.id_eq j m hj] at hn
    exact Option.some.inj (hj.symm.trans hn)
  · rintro rfl
    exact ⟨Array.mem_of_getElem? hn, hp.id_eq i m hn⟩

namespace ContextGraph

variable {C : Type} [Context C] {p : AssignmentGraph} {policy : ContextPolicy C}
  {fieldSensitive : Bool} {g g' g₁ : ContextGraph C}

/-! ## Contexts -/

theorem contextsOf_addCopy {n : Node} {ctx : C} (hok : addCopy n g ctx = .ok g') (input : NodeId) :
    g'.contextsOf input = g.contextsOf input ++ if n.id = input then [ctx] else [] := by
  obtain ⟨-, -, rfl⟩ := addCopy_ok hok
  simp only [contextsOf, Std.TreeMap.getD_insert, Std.LawfulEqCmp.compare_eq_iff_eq]
  split
  · rename_i hi
    simp [hi]
  · simp

theorem contextsOf_addCopies {n : Node} (hok : addCopies policy g n = .ok g') (input : NodeId) :
    g'.contextsOf input = g.contextsOf input ++
      if n.id = input then contextsFor policy n else [] := by
  refine foldlM_ok_induction
    (fun ctxs g' => g'.contextsOf input = g.contextsOf input ++ if n.id = input then ctxs else [])
    (by simp) ?_ hok
  intro ctxs ctx b b' _ hb hstep
  rw [contextsOf_addCopy hstep, hb]
  split <;> simp

theorem contextsOf_of_addCopies
    (hok : p.nodes.toList.foldlM (addCopies policy) (start p fieldSensitive) = .ok g)
    (input : NodeId) :
    g.contextsOf input = (p.nodes.toList.filter (·.id = input)).flatMap (contextsFor policy) := by
  refine foldlM_ok_induction
    (fun done g => g.contextsOf input = (done.filter (·.id = input)).flatMap (contextsFor policy))
    (by simp [contextsOf, start]) ?_ hok
  intro done n b b' _ hb hstep
  rw [contextsOf_addCopies hstep, hb, List.filter_append, List.flatMap_append]
  by_cases hn : n.id = input <;> simp [hn]

/-- A node has a copy in each of its contexts, and in no other. -/
theorem mem_contextsOf_iff {input : NodeId} {ctx : C} :
    ctx ∈ g.contextsOf input ↔ ∃ i, g.copyIn? input ctx = some i := by
  rw [contextsOf, copyIn?]
  cases hl : (g.copies.getD input []).lookup ctx with
  | none =>
      rw [List.lookup_eq_none_iff] at hl
      simp only [List.mem_map, reduceCtorEq, exists_false, iff_false]
      rintro ⟨copy, hcopy, rfl⟩
      simpa using hl copy hcopy
  | some i =>
      obtain ⟨before, after, heq, -⟩ := List.lookup_eq_some_iff.mp hl
      simp [heq]

/-! ## Edges -/

/-- An edge is the copy of an edge of the program for a pair of contexts. -/
structure Joins (g : ContextGraph C) (pe : Edge) (ctxs : C × C) (e : ContextEdge) : Prop where
  kind : e.kind = pe.kind
  offset : e.offset = pe.offset
  src : g.copyIn? pe.src ctxs.1 = some e.src
  dst : g.copyIn? pe.dst ctxs.2 = some e.dst

/-- The edges of `g` are those that some edges of the program ask for, over the copies in `g₁`. -/
structure JoinedFor (policy : ContextPolicy C) (p : AssignmentGraph) (g₁ : ContextGraph C)
    (done : List Edge) (g : ContextGraph C) : Prop where
  copies : g.copies = g₁.copies
  keys : ∀ key, key ∈ g.edgeKeys ↔ ∃ e ∈ g.edges, keyOf e = key
  edge : ∀ e ∈ g.edges, ∃ pe ∈ done, ∃ pairs, pairsFor policy p g₁ pe = .ok pairs ∧
    ∃ ctxs ∈ pairs, g₁.Joins pe ctxs e
  joined : ∀ pe ∈ done, ∃ pairs, pairsFor policy p g₁ pe = .ok pairs ∧
    ∀ ctxs ∈ pairs, ∃ e ∈ g.edges, g₁.Joins pe ctxs e

/-- The pairs of contexts that an edge joins depend on the copies only. -/
theorem pairsFor_congr (h : g.copies = g₁.copies) (e : Edge) :
    pairsFor policy p g e = pairsFor policy p g₁ e := by
  unfold pairsFor intraPairs isContextInsensitive contextsOf
  rw [h]

theorem copyIn?_of_copyIn {input : NodeId} {ctx : C} {i : NodeId} (h : g.copyIn input ctx = .ok i) :
    g.copyIn? input ctx = some i := by
  unfold copyIn at h
  split at h
  · rename_i hfound
    cases h
    exact hfound
  · cases h

/-- The keys on record stay those of the edges. -/
theorem mem_edgeKeys_pushEdge (hkeys : ∀ key, key ∈ g.edgeKeys ↔ ∃ e ∈ g.edges, keyOf e = key)
    (e : ContextEdge) (key : EdgeKey) :
    key ∈ (g.pushEdge e).edgeKeys ↔ ∃ e' ∈ (g.pushEdge e).edges, keyOf e' = key := by
  simp only [pushEdge, Std.TreeSet.mem_insert, Std.LawfulEqCmp.compare_eq_iff_eq, hkeys,
    Array.mem_push]
  constructor
  · rintro (rfl | ⟨e', he', rfl⟩)
    · exact ⟨_, .inr rfl, rfl⟩
    · exact ⟨e', .inl he', rfl⟩
  · rintro ⟨e', he' | rfl, rfl⟩
    · exact .inr ⟨e', he', rfl⟩
    · exact .inl rfl

/-- What joining two copies does: the edge between them is there, and no other is new. -/
theorem joinCopies_ok {pe : Edge} {ctxs : C × C} (hcopies : g.copies = g₁.copies)
    (hkeys : ∀ key, key ∈ g.edgeKeys ↔ ∃ e ∈ g.edges, keyOf e = key)
    (hok : joinCopies pe g ctxs = .ok g') :
    g'.copies = g₁.copies ∧ (∀ key, key ∈ g'.edgeKeys ↔ ∃ e ∈ g'.edges, keyOf e = key) ∧
      (∀ e ∈ g.edges, e ∈ g'.edges) ∧ (∀ e ∈ g'.edges, e ∈ g.edges ∨ g₁.Joins pe ctxs e) ∧
      ∃ e ∈ g'.edges, g₁.Joins pe ctxs e := by
  rw [joinCopies_eq] at hok
  obtain ⟨src, hsrc, hok⟩ := bind_eq_ok hok
  obtain ⟨dst, hdst, hok⟩ := bind_eq_ok hok
  have hsrc := copyIn?_of_copyIn hsrc
  have hdst := copyIn?_of_copyIn hdst
  rw [copyIn?, hcopies] at hsrc hdst
  cases hok
  unfold withEdge
  split
  · rename_i hhas
    obtain ⟨e, he, hkey⟩ := (hkeys _).mp (Std.TreeSet.contains_iff_mem.mp hhas)
    simp only [keyOf, Edge.between, EdgeKey.mk.injEq] at hkey
    obtain ⟨rfl, rfl, hkind, hoffset⟩ := hkey
    exact ⟨hcopies, hkeys, fun _ h => h, fun _ h => .inl h, e, he, hkind, hoffset, hsrc, hdst⟩
  · refine ⟨hcopies, mem_edgeKeys_pushEdge hkeys _, fun e he => ?_, fun e he => ?_, _,
      Array.mem_push_self, rfl, rfl, hsrc, hdst⟩
    · exact Array.mem_push_of_mem _ he
    · rcases Array.mem_push.mp he with he | rfl
      · exact .inl he
      · exact .inr ⟨rfl, rfl, hsrc, hdst⟩

theorem JoinedFor.copyEdge {done : List Edge} {pe : Edge} (h : JoinedFor policy p g₁ done g)
    (hok : copyEdge policy p g pe = .ok g') : JoinedFor policy p g₁ (done ++ [pe]) g' := by
  obtain ⟨pairs, hpairs, hok⟩ := bind_eq_ok hok
  rw [pairsFor_congr h.copies] at hpairs
  -- the pairs are joined one after the other
  obtain ⟨hcopies, hkeys, hmono, hnew, hjoined⟩ := foldlM_ok_induction
    (fun (ctxs : List (C × C)) (b : ContextGraph C) => b.copies = g₁.copies ∧
      (∀ key, key ∈ b.edgeKeys ↔ ∃ e ∈ b.edges, keyOf e = key) ∧ (∀ e ∈ g.edges, e ∈ b.edges) ∧
      (∀ e ∈ b.edges, e ∈ g.edges ∨ ∃ c ∈ pairs, g₁.Joins pe c e) ∧
      ∀ c ∈ ctxs, ∃ e ∈ b.edges, g₁.Joins pe c e)
    ⟨h.copies, h.keys, fun _ he => he, fun _ he => .inl he, by simp⟩
    (fun ctxs c b b' hc ⟨hcopies, hkeys, hmono, hnew, hjoined⟩ hstep => by
      obtain ⟨hcopies', hkeys', hmono', hnew', e, he, hj⟩ := joinCopies_ok hcopies hkeys hstep
      refine ⟨hcopies', hkeys', fun e he => hmono' e (hmono e he), fun e he => ?_, fun d hd => ?_⟩
      · rcases hnew' e he with he | hj
        · exact hnew e he
        · exact .inr ⟨c, hc, hj⟩
      · rcases List.mem_append.mp hd with hd | hd
        · obtain ⟨e', he', hj'⟩ := hjoined d hd
          exact ⟨e', hmono' e' he', hj'⟩
        · cases List.mem_singleton.mp hd
          exact ⟨e, he, hj⟩) hok
  refine ⟨hcopies, hkeys, fun e he => ?_, fun pe' hpe' => ?_⟩
  · rcases hnew e he with he | ⟨c, hc, hj⟩
    · obtain ⟨pe', hpe', rest⟩ := h.edge e he
      exact ⟨pe', List.mem_append_left _ hpe', rest⟩
    · exact ⟨pe, by simp, pairs, hpairs, c, hc, hj⟩
  · rcases List.mem_append.mp hpe' with hpe' | hpe'
    · obtain ⟨pairs', hpairs', hall⟩ := h.joined pe' hpe'
      refine ⟨pairs', hpairs', fun c hc => ?_⟩
      obtain ⟨e, he, hj⟩ := hall c hc
      exact ⟨e, hmono e he, hj⟩
    · cases List.mem_singleton.mp hpe'
      exact ⟨pairs, hpairs, hjoined⟩

/-! ## The graph -/

/-- The graph has the copies of the nodes and edges of a program that a policy asks for. -/
structure Unfolds (policy : ContextPolicy C) (p : AssignmentGraph) (fieldSensitive : Bool)
    (g : ContextGraph C) : Prop where
  memObjs : g.memObjs = (start p fieldSensitive : ContextGraph C).memObjs
  contextsOf : ∀ (input : NodeId) (n : Node), p.nodes[input]? = some n →
    g.contextsOf input = contextsFor policy n
  node : ∀ (i : NodeId) (node : ContextNode C), g.nodes[i]? = some node →
    ∃ n, p.nodes[n.id]? = some n ∧ ∃ ctx, node = copyOf n ctx
  copyIn?_iff : ∀ (input : NodeId) (ctx : C) (i : NodeId), g.copyIn? input ctx = some i ↔
    ∃ node : ContextNode C, g.nodes[i]? = some node ∧ node.input = some input ∧ node.ctx = ctx
  mem_copiesOf : ∀ (input i : NodeId), i ∈ g.copiesOf input ↔
    ∃ node : ContextNode C, g.nodes[i]? = some node ∧ node.input = some input
  reserved : ∀ (input : NodeId) (ctx : C) (i : NodeId), g.copyIn? input ctx = some i →
    input < reservedCount → i = input
  edge : ∀ e ∈ g.edges, ∃ pe ∈ p.edges, ∃ pairs, pairsFor policy p g pe = .ok pairs ∧
    ∃ ctxs ∈ pairs, g.Joins pe ctxs e
  joined : ∀ pe ∈ p.edges, ∃ pairs, pairsFor policy p g pe = .ok pairs ∧
    ∀ ctxs ∈ pairs, ∃ e ∈ g.edges, g.Joins pe ctxs e

theorem mem_flatMap_edgesOfKind {pe : Edge} :
    pe ∈ EdgeKind.all.flatMap p.edgesOfKind ↔ pe ∈ p.edges := by
  have hall : pe.kind ∈ EdgeKind.all := by cases pe.kind <;> decide
  simp [AssignmentGraph.edgesOfKind, List.mem_flatMap, hall]

/-- Adding copies leaves the records of the edges alone. -/
theorem edgeRecords_of_addCopies {nodes : List Node}
    (hok : nodes.foldlM (addCopies policy) g = .ok g') :
    g'.edgeKeys = g.edgeKeys ∧ g'.edgesByKind = g.edgesByKind := by
  refine foldlM_ok_induction
    (fun _ b => b.edgeKeys = g.edgeKeys ∧ b.edgesByKind = g.edgesByKind) ⟨rfl, rfl⟩
    (fun _ _ b _ _ hb hstep => ?_) hok
  refine foldlM_ok_induction
    (fun _ b' => b'.edgeKeys = g.edgeKeys ∧ b'.edgesByKind = g.edgesByKind) hb
    (fun _ _ _ _ _ hb hstep => ?_) hstep
  obtain ⟨-, -, rfl⟩ := addCopy_ok hstep
  exact hb

/-- Registering fields leaves the records of the edges alone. -/
theorem edgeRecords_of_registerField {nodes : List NodeId}
    (hok : nodes.foldlM (registerField p) g = .ok g') :
    g'.edgeKeys = g.edgeKeys ∧ g'.edgesByKind = g.edgesByKind := by
  refine foldlM_ok_induction
    (fun _ b => b.edgeKeys = g.edgeKeys ∧ b.edgesByKind = g.edgesByKind) ⟨rfl, rfl⟩
    (fun _ _ b _ _ hb hstep => ?_) hok
  obtain ⟨-, -, ⟨-, -, -, -, -, -, -, -, -, rfl⟩ | ⟨-, rfl⟩⟩ := registerField_ok hstep
  · exact hb
  · exact hb

/-- What is built has exactly the copies that the policy asks for. -/
theorem build_unfolds (hp : p.Layout) (hok : build policy p fieldSensitive = .ok g) :
    g.Unfolds policy p fieldSensitive := by
  obtain ⟨g₀, g₁, hnodes, hfields, hok, hg₀, hg₁, hg⟩ := exists_stages hok
  have hcopies : g.copies = g₀.copies := hg.copies.trans hg₁.copies
  have hcopyIn : ∀ input ctx i, g.copyIn? input ctx = some i ↔
      ∃ node : ContextNode C, g.nodes[i]? = some node ∧ node.input = some input ∧
        node.ctx = ctx := by
    intro input ctx i
    rw [copyIn?, hcopies, hg.nodes, hg₁.nodes]
    exact hg₀.copyIn?_eq_some
  have hjoined : JoinedFor policy p g₁ (EdgeKind.all.flatMap p.edgesOfKind) g := by
    refine foldlM_ok_induction (JoinedFor policy p g₁) ⟨rfl, fun key => ?_, ?_, by simp⟩
      (fun _ _ _ _ _ h hstep => h.copyEdge hstep) hok
    · rw [(edgeRecords_of_registerField hfields).1, (edgeRecords_of_addCopies hnodes).1, hg₁.edges,
        hg₀.edges]
      simp [start]
    · simp [hg₁.edges, hg₀.edges]
  have hjoins : ∀ pe ctxs e, g₁.Joins pe ctxs e → g.Joins pe ctxs e := fun pe ctxs e h =>
    ⟨h.kind, h.offset, by rw [copyIn?, hg.copies]; exact h.src,
      by rw [copyIn?, hg.copies]; exact h.dst⟩
  have hpairs : ∀ pe, pairsFor policy p g pe = pairsFor policy p g₁ pe := pairsFor_congr hg.copies
  refine ⟨?_, ?_, ?_, hcopyIn, ?_, ?_, ?_, ?_⟩
  · rw [hg.memObjs, hg₁.memObjs, hg₀.memObjs]
  · intro input n hn
    have h := contextsOf_of_addCopies hnodes input
    rw [hp.filter_id hn] at h
    rw [contextsOf] at h ⊢
    rw [hcopies]
    simpa using h
  · intro i node hi
    rw [hg.nodes, hg₁.nodes] at hi
    obtain ⟨n, hn, ctx, rfl⟩ := hg₀.node i node hi
    obtain ⟨j, hj⟩ := Array.mem_iff_getElem?.mp hn
    exact ⟨n, by rw [hp.id_eq j n hj, hj], ctx, rfl⟩
  · intro input i
    rw [ContextGraph.copiesOf, hcopies, hg.nodes, hg₁.nodes]
    simp [hg₀.copyIn]
  · intro input ctx i hi hlt
    obtain ⟨node, hnode, hinput, -⟩ := (hcopyIn input ctx i).mp hi
    rw [hg.nodes, hg₁.nodes] at hnode
    exact hg₀.reserved i node input hnode hinput hlt
  · intro e he
    obtain ⟨pe, hpe, pairs, hok, ctxs, hctxs, hj⟩ := hjoined.edge e he
    exact ⟨pe, mem_flatMap_edgesOfKind.mp hpe,
      pairs, by rw [hpairs, hok], ctxs, hctxs, hjoins _ _ _ hj⟩
  · intro pe hpe
    obtain ⟨pairs, hok, hall⟩ := hjoined.joined pe (mem_flatMap_edgesOfKind.mpr hpe)
    refine ⟨pairs, by rw [hpairs, hok], fun ctxs hctxs => ?_⟩
    obtain ⟨e, he, hj⟩ := hall ctxs hctxs
    exact ⟨e, he, hjoins _ _ _ hj⟩

namespace Unfolds

variable (hg : g.Unfolds policy p fieldSensitive)

include hg

/-- A node of the program has a copy in each of its contexts. -/
theorem exists_copy {n : Node} (hn : p.nodes[n.id]? = some n) {ctx : C}
    (hctx : ctx ∈ contextsFor policy n) :
    ∃ i, g.copyIn? n.id ctx = some i ∧ g.nodes[i]? = some (copyOf n ctx) := by
  rw [← hg.contextsOf n.id n hn, mem_contextsOf_iff] at hctx
  obtain ⟨i, hi⟩ := hctx
  obtain ⟨node, hnode, hinput, rfl⟩ := (hg.copyIn?_iff _ _ i).mp hi
  obtain ⟨m, hm, ctx, rfl⟩ := hg.node i node hnode
  have hid : m.id = n.id := Option.some.inj hinput
  rw [hid, hn] at hm
  cases hm
  exact ⟨i, hi, hnode⟩

/-- The copies of the reserved nodes come first. -/
theorem reserved_lt (hp : p.Layout) {i : NodeId} (hi : i < reservedCount) : i < g.nodes.size := by
  obtain ⟨n, hn⟩ : ∃ n, p.nodes[i]? = some n :=
    ⟨_, Array.getElem?_eq_getElem (Nat.lt_of_lt_of_le hi hp.size)⟩
  obtain rfl := hp.id_eq i n hn
  have hctx : Context.empty ∈ contextsFor policy n := by simp [contextsFor, hi]
  obtain ⟨j, hj, hnode⟩ := hg.exists_copy hn hctx
  rw [hg.reserved _ _ j hj hi] at hnode
  exact (Array.getElem?_eq_some_iff.mp hnode).1

end Unfolds

end ContextGraph

end PointerAnalysis
