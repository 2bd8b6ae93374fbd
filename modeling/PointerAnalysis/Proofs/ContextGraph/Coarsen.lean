import PointerAnalysis.Proofs.CallerChains
import PointerAnalysis.Proofs.ContextGraph.Copies

/-!
Two context graphs of one program. If the contexts of one policy are mapped to those of another one
such that what a call, a return or an assignment joins is still joined, then the graph of the first
policy is mapped to that of the second one, copy by copy. Call strings that are cut one caller
earlier are such a case.
-/

namespace PointerAnalysis

namespace ContextGraph

variable {C D : Type} [Context C] [Context D]

/-- A map from the nodes of a graph to those of another one that respects the edges and what is
known about the nodes. -/
structure Morphism (f : NodeId → NodeId) (g : ContextGraph C) (g' : ContextGraph D) : Prop where
  edge : ∀ e ∈ g.edges, ∃ e' ∈ g'.edges, e'.kind = e.kind ∧ e'.src = f e.src ∧ e'.dst = f e.dst
  isConstant : ∀ n < g.nodes.size, g'.isConstant (f n) = g.isConstant n
  isPointerFree : ∀ n < g.nodes.size, g'.isPointerFree (f n) = g.isPointerFree n
  isField : ∀ n, g.IsField n → g'.IsField (f n)
  wholeAt : ∀ n, g.WholeAt n → g'.WholeAt (f n)
  home : ∀ n, g.WholeAt n → g'.home (f n) = f (g.home n)

/-- What a policy asks for is asked for by another one, too, once the contexts are mapped. -/
structure Coarsens (ρ : C → D) (policy : ContextPolicy C) (policy' : ContextPolicy D)
    (p : AssignmentGraph) : Prop where
  contexts : ∀ n ∈ p.nodes, ∀ ctx ∈ contextsFor policy n, ρ ctx ∈ contextsFor policy' n
  insensitive : ∀ n ∈ p.nodes, contextsFor policy n = [Context.empty] →
    contextsFor policy' n = [Context.empty]
  call : ∀ e srcs dsts srcs' dsts' pairs pairs', policy.callPairs p e srcs dsts = .ok pairs →
    policy'.callPairs p e srcs' dsts' = .ok pairs' → ∀ c ∈ pairs, (ρ c.1, ρ c.2) ∈ pairs'
  ret : ∀ e srcs dsts srcs' dsts' pairs pairs', policy.returnPairs p e srcs dsts = .ok pairs →
    policy'.returnPairs p e srcs' dsts' = .ok pairs' → ∀ c ∈ pairs, (ρ c.1, ρ c.2) ∈ pairs'

/-- The node of `g'` for the same input node as a node of `g`, in the context that its own is mapped
to. -/
def carry (ρ : C → D) (g : ContextGraph C) (g' : ContextGraph D) (i : NodeId) : NodeId :=
  (g.nodes[i]?.bind fun node => node.input.bind fun input => g'.copyIn? input (ρ node.ctx)).getD i

section carry

variable {p : AssignmentGraph} {fieldSensitive : Bool} {policy : ContextPolicy C}
  {policy' : ContextPolicy D} {g : ContextGraph C} {g' : ContextGraph D} {ρ : C → D} {i : NodeId}
  (hg : g.Unfolds policy p fieldSensitive) (hg' : g'.Unfolds policy' p fieldSensitive)

include hg

/-- Every node is the copy of a node of the program in one of its contexts. -/
theorem Unfolds.exists_input (hi : i < g.nodes.size) : ∃ n ctx, p.nodes[n.id]? = some n ∧
    ctx ∈ contextsFor policy n ∧ g.copyIn? n.id ctx = some i ∧
    g.nodes[i]? = some (copyOf n ctx) := by
  obtain ⟨n, hn, ctx, hnode⟩ := hg.node i _ (Array.getElem?_eq_getElem hi)
  have hi : g.nodes[i]? = some (copyOf n ctx) := by rw [Array.getElem?_eq_getElem hi, hnode]
  have hcopy : g.copyIn? n.id ctx = some i := (hg.copyIn?_iff _ _ i).mpr ⟨_, hi, rfl, rfl⟩
  refine ⟨n, ctx, hn, ?_, hcopy, hi⟩
  rw [← hg.contextsOf n.id n hn, mem_contextsOf_iff]
  exact ⟨i, hcopy⟩

theorem Unfolds.lt_of_copyIn? {input : NodeId} {ctx : C} (h : g.copyIn? input ctx = some i) :
    i < g.nodes.size := by
  obtain ⟨node, hnode, -⟩ := (hg.copyIn?_iff input ctx i).mp h
  exact (Array.getElem?_eq_some_iff.mp hnode).1

/-- Where the reserved nodes stand there is no copy of another node. -/
theorem Unfolds.input_eq (hp : p.Layout) {input : NodeId} {ctx : C}
    (h : g.copyIn? input ctx = some i) (hi : i < reservedCount) : input = i := by
  obtain ⟨n, hn⟩ : ∃ n, p.nodes[i]? = some n :=
    ⟨_, Array.getElem?_eq_getElem (Nat.lt_of_lt_of_le hi hp.size)⟩
  obtain rfl := hp.id_eq i n hn
  have hctx : Context.empty ∈ contextsFor policy n := by simp [contextsFor, hi]
  obtain ⟨j, hj, hnode⟩ := hg.exists_copy hn hctx
  obtain rfl := hg.reserved _ _ j hj hi
  obtain ⟨node, hnode', hinput, -⟩ := (hg.copyIn?_iff input ctx n.id).mp h
  cases hnode.symm.trans hnode'
  exact (Option.some.inj hinput).symm

include hg' in
theorem memObjs_eq : g'.memObjs = g.memObjs := by
  rw [hg.memObjs, hg'.memObjs]
  rfl

variable (hρ : Coarsens ρ policy policy' p)

include hg' hρ

/-- A node is carried to the copy of the same node in the context that its own is mapped to. -/
theorem copyIn?_carry {input : NodeId} {ctx : C} (h : g.copyIn? input ctx = some i) :
    g'.copyIn? input (ρ ctx) = some (carry ρ g g' i) := by
  obtain ⟨n, ctx', hn, hctx, hcopy, hnode⟩ := hg.exists_input (hg.lt_of_copyIn? h)
  obtain ⟨node, hnode', hinput, rfl⟩ := (hg.copyIn?_iff input ctx i).mp h
  cases hnode.symm.trans hnode'
  obtain rfl := Option.some.inj hinput
  obtain ⟨j, hj, -⟩ := hg'.exists_copy hn (hρ.contexts n (Array.mem_of_getElem? hn) ctx' hctx)
  have hcarry : carry ρ g g' i = j := by simp [carry, hnode, copyOf, hj]
  rw [hcarry]
  exact hj

/-- Carrying changes nothing but the context. -/
theorem nodes_carry (hi : i < g.nodes.size) : ∃ n ctx, g.nodes[i]? = some (copyOf n ctx) ∧
    g'.nodes[carry ρ g g' i]? = some (copyOf n (ρ ctx)) := by
  obtain ⟨n, ctx, hn, hctx, hcopy, hnode⟩ := hg.exists_input hi
  obtain ⟨j, hj, hnode'⟩ := hg'.exists_copy hn (hρ.contexts n (Array.mem_of_getElem? hn) ctx hctx)
  cases hj.symm.trans (copyIn?_carry hg hg' hρ hcopy)
  exact ⟨n, ctx, hnode, hnode'⟩

theorem memObjOf_carry (hi : i < g.nodes.size) : g'.memObjOf (carry ρ g g' i) = g.memObjOf i := by
  obtain ⟨n, ctx, hnode, hnode'⟩ := nodes_carry hg hg' hρ hi
  simp only [memObjOf, hnode, hnode', Option.bind_some, copyOf, memObjs_eq hg hg']

theorem partOf_carry {mem : MemObjId} (h : g.PartOf i mem) : g'.PartOf (carry ρ g g' i) mem := by
  obtain ⟨n, ctx, hnode, hnode'⟩ := nodes_carry hg hg' hρ h.lt
  obtain ⟨node, hi, hmem⟩ := h
  cases hnode.symm.trans hi
  exact ⟨_, hnode', hmem⟩

theorem carry_eq_constantData_iff (hp : p.Layout) (hi : i < g.nodes.size) :
    carry ρ g g' i = constantData ↔ i = constantData := by
  obtain ⟨n, ctx, -, -, hcopy, -⟩ := hg.exists_input hi
  have hcarry := copyIn?_carry hg hg' hρ hcopy
  have hreserved : constantData < reservedCount := by decide
  constructor
  · intro heq
    rw [heq] at hcarry
    have hid := hg'.input_eq hp hcarry hreserved
    rw [hid] at hcopy
    exact hg.reserved _ _ i hcopy hreserved
  · rintro rfl
    have hid := hg.input_eq hp hcopy hreserved
    rw [hid] at hcarry
    exact hg'.reserved _ _ _ hcarry hreserved

theorem baseIn?_carry {mem : MemObjId} {ctx : C} (h : g.baseIn? mem ctx = .ok (some i)) :
    g'.baseIn? mem (ρ ctx) = .ok (some (carry ρ g g' i)) := by
  obtain ⟨obj, hobj, h⟩ := bind_eq_ok h
  have hcopy : g.copyIn? obj.baseNode ctx = some i := Except.ok.inj h
  rw [baseIn?, memObjs_eq hg hg', hobj]
  exact congrArg Except.ok (copyIn?_carry hg hg' hρ hcopy)

/-! ## Edges -/

/-- The contexts that an edge inside one function joins are still joined once they are mapped. -/
theorem mem_intraPairs_carry {pe : Edge} {src dst : Node} (hsrc : p.nodes[pe.src]? = some src)
    (hdst : p.nodes[pe.dst]? = some dst) {pairs : List (C × C)} {pairs' : List (D × D)}
    (hpairs : g.intraPairs pe = .ok pairs) (hpairs' : g'.intraPairs pe = .ok pairs') {c : C × C}
    (hc : c ∈ pairs) (hcsrc : ρ c.1 ∈ g'.contextsOf pe.src) (hcdst : ρ c.2 ∈ g'.contextsOf pe.dst) :
    (ρ c.1, ρ c.2) ∈ pairs' := by
  have hctxs : ∀ (input : NodeId) (n : Node), p.nodes[input]? = some n →
      g.isContextInsensitive input → g'.isContextInsensitive input := by
    intro input n hn h
    rw [isContextInsensitive, decide_eq_true_eq, hg.contextsOf input n hn] at h
    rw [isContextInsensitive, decide_eq_true_eq, hg'.contextsOf input n hn]
    exact hρ.insensitive n (Array.mem_of_getElem? hn) h
  unfold intraPairs at hpairs hpairs'
  dsimp only at hpairs hpairs'
  split at hpairs'
  · cases hpairs'
    simp only [allPairs, List.mem_flatMap, List.mem_map]
    exact ⟨_, hcsrc, _, hcdst, rfl⟩
  · rename_i hsensitive
    split at hpairs'
    · cases hpairs'
      have hnot : ¬ (g.isContextInsensitive pe.src || g.isContextInsensitive pe.dst) := by
        intro h
        rcases Bool.or_eq_true_iff.mp h with h | h
        · exact hsensitive (Bool.or_eq_true_iff.mpr (.inl (hctxs _ src hsrc h)))
        · exact hsensitive (Bool.or_eq_true_iff.mpr (.inr (hctxs _ dst hdst h)))
      rw [if_neg hnot] at hpairs
      split at hpairs
      · cases hpairs
        obtain ⟨x, -, rfl⟩ := List.mem_map.mp hc
        exact List.mem_map.mpr ⟨_, hcsrc, rfl⟩
      · cases hpairs
    · cases hpairs'

theorem mem_pairsFor_carry {pe : Edge} {src dst : Node} (hsrc : p.nodes[pe.src]? = some src)
    (hdst : p.nodes[pe.dst]? = some dst) {pairs : List (C × C)} {pairs' : List (D × D)}
    (hpairs : pairsFor policy p g pe = .ok pairs) (hpairs' : pairsFor policy' p g' pe = .ok pairs')
    {c : C × C} (hc : c ∈ pairs) (hcsrc : ρ c.1 ∈ g'.contextsOf pe.src)
    (hcdst : ρ c.2 ∈ g'.contextsOf pe.dst) : (ρ c.1, ρ c.2) ∈ pairs' := by
  unfold pairsFor at hpairs hpairs'
  cases hkind : pe.kind with
  | call =>
      rw [hkind] at hpairs hpairs'
      exact hρ.call pe _ _ _ _ pairs pairs' hpairs hpairs' c hc
  | ret =>
      rw [hkind] at hpairs hpairs'
      exact hρ.ret pe _ _ _ _ pairs pairs' hpairs hpairs' c hc
  | fork | join =>
      rw [hkind] at hpairs
      cases hpairs
      cases hc
  | addr | copy | load | store | field | anyField =>
      rw [hkind] at hpairs hpairs'
      exact mem_intraPairs_carry hg hg' hρ hsrc hdst hpairs hpairs' hc hcsrc hcdst

/-- Carrying the nodes maps one graph of a program to the other. -/
theorem morphism_carry (hp : p.Layout) (hcheck : p.check = .ok ()) (hwf : g.WellFormed)
    (hwf' : g'.WellFormed) : Morphism (carry ρ g g') g g' where
  edge e he := by
    obtain ⟨pe, hpe, pairs, hpairs, ctxs, hctxs, hjoins⟩ := hg.edge e he
    obtain ⟨pairs', hpairs', hall⟩ := hg'.joined pe hpe
    obtain ⟨hsrc, hdst, -⟩ := AssignmentGraph.check_edges hcheck hpe
    have hcsrc := copyIn?_carry hg hg' hρ hjoins.src
    have hcdst := copyIn?_carry hg hg' hρ hjoins.dst
    have hpair := mem_pairsFor_carry hg hg' hρ (Array.getElem?_eq_getElem hsrc)
      (Array.getElem?_eq_getElem hdst) hpairs hpairs' hctxs (mem_contextsOf_iff.mpr ⟨_, hcsrc⟩)
      (mem_contextsOf_iff.mpr ⟨_, hcdst⟩)
    obtain ⟨e', he', hjoins'⟩ := hall _ hpair
    refine ⟨e', he', hjoins'.kind.trans hjoins.kind.symm, ?_, ?_⟩
    · exact Option.some.inj (hjoins'.src.symm.trans hcsrc)
    · exact Option.some.inj (hjoins'.dst.symm.trans hcdst)
  isConstant n hn := by
    have hconst := carry_eq_constantData_iff hg hg' hρ hp hn
    simp only [ContextGraph.isConstant, hconst, memObjOf_carry hg hg' hρ hn]
  isPointerFree n hn := by
    simp only [ContextGraph.isPointerFree, memObjOf_carry hg hg' hρ hn]
  isField n h := by
    obtain ⟨m, ctx, hnode, hnode'⟩ := nodes_carry hg hg' hρ (h.partOf.elim fun _ => PartOf.lt)
    obtain ⟨node, hn, hkind, hmem⟩ := h
    cases hnode.symm.trans hn
    exact ⟨_, hnode', hkind, hmem⟩
  wholeAt n h := by
    obtain ⟨mem, hpart, hwhole⟩ := h
    refine ⟨mem, partOf_carry hg hg' hρ hpart, ?_⟩
    rw [IsWhole, memObjs_eq hg hg']
    exact hwhole
  home n h := by
    obtain ⟨mem, ⟨node, hn, hmem⟩, -⟩ := h
    obtain ⟨m, ctx, hnode, hnode'⟩ :=
      nodes_carry hg hg' hρ (Array.getElem?_eq_some_iff.mp hn).1
    cases hnode.symm.trans hn
    have hbase := baseIn?_carry hg hg' hρ (hwf.home_spec hnode hmem).2.1
    have hbase' := (hwf'.home_spec hnode' hmem).2.1
    exact Option.some.inj (Except.ok.inj (hbase'.symm.trans hbase))

end carry

end ContextGraph

/-! ## Call strings -/

/-- The most recent `k` callers. -/
def CallString.cut (c : CallString) (k : Nat) : CallString := ⟨c.frames.take k⟩

@[simp] theorem CallString.cut_empty (k : Nat) : CallString.empty.cut k = .empty := by
  simp [cut, empty]

/-- It does not matter whether a chain is cut before or after a call. -/
theorem CallString.cut_enter (c : CallString) (f : FuncId) (k : Nat) :
    (c.enter f (k + 1)).cut k = (c.cut k).enter f k := by
  simp only [cut, enter, List.take_succ_cons]

namespace CallStringPolicy

variable {calls : CallGraph} {k : Nat}

theorem cut_mem_callerContexts {f : FuncId} {c : CallString}
    (h : c ∈ callerContexts ⟨calls, k + 1⟩ f) : c.cut k ∈ callerContexts ⟨calls, k⟩ f := by
  rw [callerContexts_eq] at h ⊢
  split at h
  · rename_i hcontains
    rw [if_pos hcontains]
    exact CallGraph.mem_callStrings.mpr
      (calls.take_mem_callerChains (CallGraph.mem_callStrings.mp h))
  · rename_i hcontains
    rw [if_neg hcontains]
    cases List.mem_singleton.mp h
    simp

theorem callerContexts_eq_of_succ {f : FuncId} (h : callerContexts ⟨calls, k + 1⟩ f = [.empty]) :
    callerContexts ⟨calls, k⟩ f = [.empty] := by
  rw [callerContexts_eq] at h ⊢
  split
  · rename_i hcontains
    rw [if_pos hcontains, CallGraph.callStrings_eq] at h
    obtain ⟨chain, hchain, heq⟩ := List.map_eq_singleton_iff.mp h
    obtain rfl : chain = [] := congrArg CallString.frames heq
    rw [CallGraph.callStrings_eq, calls.callerChains_eq_of_succ hchain]
    rfl
  · rfl

theorem cut_mem_transitions {f : FuncId} {c : CallString × CallString}
    (h : c ∈ transitions ⟨calls, k + 1⟩ f) : (c.1.cut k, c.2.cut k) ∈ transitions ⟨calls, k⟩ f := by
  obtain ⟨ctx, hctx, rfl⟩ := List.mem_map.mp h
  refine List.mem_map.mpr ⟨_, cut_mem_callerContexts hctx, ?_⟩
  rw [CallString.cut_enter]

/-- The contexts of a node: those of its function. -/
theorem contextsFor_eq (q : CallStringPolicy) (n : Node) : ContextGraph.contextsFor q.policy n =
    if n.id < reservedCount then [.empty] else n.affinity.elim [.empty] q.callerContexts := by
  unfold ContextGraph.contextsFor
  split
  · rfl
  · cases n.affinity with
    | none => rfl
    | some f =>
        simp only [Option.map_some, Option.getD_some, Option.elim_some, policy, callerContexts]
        cases q.contexts f with
        | nil => rfl
        | cons c cs => rfl

/-- Call strings that are cut one caller earlier tell less apart. -/
theorem coarsens_cut (calls : CallGraph) (k : Nat) (p : AssignmentGraph) :
    ContextGraph.Coarsens (·.cut k) (policy ⟨calls, k + 1⟩) (policy ⟨calls, k⟩) p where
  contexts n _ ctx h := by
    rw [contextsFor_eq] at h ⊢
    split at h
    · rename_i hreserved
      rw [if_pos hreserved]
      cases List.mem_singleton.mp h
      simp
    · rename_i hreserved
      rw [if_neg hreserved]
      cases hn : n.affinity with
      | none =>
          rw [hn] at h
          cases List.mem_singleton.mp h
          simp
      | some f =>
          rw [hn] at h
          exact cut_mem_callerContexts h
  insensitive n _ h := by
    rw [contextsFor_eq] at h ⊢
    split
    · rfl
    · rename_i hreserved
      rw [if_neg hreserved] at h
      cases hn : n.affinity with
      | none => rfl
      | some f =>
          rw [hn] at h
          exact callerContexts_eq_of_succ h
  call e _ _ _ _ pairs pairs' h h' c hc := by
    obtain ⟨src, hsrc, h⟩ := bind_eq_ok h
    obtain ⟨dst, hdst, h⟩ := bind_eq_ok h
    simp only [policy, callPairs, hsrc, hdst, bind, Except.bind, pure, Except.pure] at h h'
    split at h
    · rename_i caller hvalues hlocal
      cases h
      rw [hvalues, hlocal] at h'
      cases h'
      exact cut_mem_transitions hc
    · cases h
      cases hc
  ret e _ _ _ _ pairs pairs' h h' c hc := by
    obtain ⟨src, hsrc, h⟩ := bind_eq_ok h
    obtain ⟨dst, hdst, h⟩ := bind_eq_ok h
    simp only [policy, returnPairs, hsrc, hdst, bind, Except.bind, pure, Except.pure] at h h'
    split at h
    · rename_i caller hvalues hlocal
      cases h
      rw [hvalues, hlocal] at h'
      cases h'
      obtain ⟨d, hd, rfl⟩ := List.mem_map.mp hc
      exact List.mem_map.mpr ⟨_, cut_mem_transitions hd, rfl⟩
    · cases h
      cases hc

end CallStringPolicy

end PointerAnalysis
