import PointerAnalysis.Proofs.ContextGraph.Build
import PointerAnalysis.Proofs.ContextGraph.Grounded

/-!
Programs whose nodes belong to no function. Every node has one copy, in the empty context and with
the node's own id. If the program has no defect and its memory objects refer to no object outside
the table, building its context graph cannot fail, and the graph is grounded.
-/

namespace PointerAnalysis

/-- A fold succeeds if each step does as long as an invariant holds, which then holds at the end. -/
theorem foldlM_total {α β ε : Type} {f : β → α → Except ε β} (P : List α → β → Prop) {xs : List α}
    {b : β} (hstart : P [] b)
    (hstep : ∀ done x rest b, xs = done ++ x :: rest → P done b →
      ∃ b', f b x = .ok b' ∧ P (done ++ [x]) b') :
    ∃ b', xs.foldlM f b = .ok b' ∧ P xs b' := by
  have hgen : ∀ (todo done : List α) (b : β), xs = done ++ todo → P done b →
      ∃ b', todo.foldlM f b = .ok b' ∧ P xs b' := by
    intro todo
    induction todo with
    | nil =>
        intro done b hxs hP
        rw [List.append_nil] at hxs
        exact ⟨b, rfl, hxs ▸ hP⟩
    | cons x todo ih =>
        intro done b hxs hP
        obtain ⟨b₁, hx, hP₁⟩ := hstep done x todo b hxs hP
        obtain ⟨b', hok, hP'⟩ := ih (done ++ [x]) b₁ (by simp [hxs]) hP₁
        exact ⟨b', by rw [List.foldlM_cons, hx]; exact hok, hP'⟩
  exact hgen xs [] b rfl hstart

namespace AssignmentGraph

/-- The reserved object nodes and the memory objects refer to objects of the table only. Of the
other object nodes the check makes sure. -/
structure Closed (g : AssignmentGraph) : Prop where
  reserved_lt : ∀ n ∈ g.nodes, n.id < reservedCount → n.kind.isObject →
    ∀ mem ∈ n.memObj, mem < g.memObjs.size
  id_lt : ∀ m ∈ g.memObjs, m.id < g.memObjs.size

theorem Closed.memObj_lt {g : AssignmentGraph} (hg : g.Closed) (hcheck : g.check = .ok ()) {i : Nat}
    {n : Node} (hn : g.nodes[i]? = some n) (hobject : n.kind.isObject) {mem : MemObjId}
    (hmem : n.memObj = some mem) : mem < g.memObjs.size := by
  by_cases hres : n.id < reservedCount
  · exact hg.reserved_lt n (Array.mem_of_getElem? hn) hres hobject mem hmem
  · obtain ⟨mem', hmem', hlt⟩ := (check_node hcheck hn).2 hobject (Nat.le_of_not_lt hres)
    cases hmem.symm.trans hmem'
    exact hlt

end AssignmentGraph

namespace ContextGraph

variable {C : Type} [Context C] {p : AssignmentGraph} {policy : ContextPolicy C}
  {fieldSensitive : Bool} {g : ContextGraph C}

/-! ## One copy each -/

/-- Each of the first input nodes has one copy, in the empty context and with the same id, and the
others have none. -/
def OneCopyEach (count : Nat) (g : ContextGraph C) : Prop :=
  ∀ i, g.copies.getD i [] = if i < count then [(Context.empty, i)] else []

theorem OneCopyEach.copyIn? {count i : Nat} (hg : OneCopyEach count g) (hi : i < count) :
    g.copyIn? i Context.empty = some i := by
  simp [ContextGraph.copyIn?, hg i, hi]

theorem OneCopyEach.copyIn {count i : Nat} (hg : OneCopyEach count g) (hi : i < count) :
    g.copyIn i Context.empty = .ok i := by
  simp [ContextGraph.copyIn, hg.copyIn? hi]

theorem OneCopyEach.mem_copiesOf {count i b : Nat} (hg : OneCopyEach count g)
    (hb : b ∈ g.copiesOf i) : b = i := by
  rw [copiesOf, hg i] at hb
  split at hb
  · simpa using hb
  · simp at hb

/-- An edge inside a function joins the only copies of its end points. -/
theorem OneCopyEach.intraPairs {count : Nat} (hg : OneCopyEach count g) {e : Edge}
    (hsrc : e.src < count)
    (hdst : e.dst < count) : g.intraPairs e = .ok [(Context.empty, Context.empty)] := by
  have hctxs : ∀ i, i < count → g.contextsOf i = [Context.empty] := by
    intro i hi
    simp [contextsOf, hg i, hi]
  simp [ContextGraph.intraPairs, isContextInsensitive, hctxs _ hsrc, hctxs _ hdst, allPairs]

/-- The nodes of the graph are the copies of the nodes `done`, in their order. -/
structure CopiedOnce (done : List Node) (g : ContextGraph C) : Prop where
  nodes : g.nodes.toList = done.map (copyOf · Context.empty)
  copies : OneCopyEach done.length g

theorem contextsFor_of_affinity {n : Node} (h : n.affinity = none) :
    contextsFor policy n = [Context.empty] := by
  unfold contextsFor
  split
  · rfl
  · simp [h]

theorem addCopy_eq_ok {n : Node} {ctx : C} (hnew : g.copyIn? n.id ctx = none)
    (hid : n.id < reservedCount → g.nodes.size = n.id) :
    addCopy n g ctx = .ok { g with
      nodes := g.nodes.push (copyOf n ctx)
      copies := g.copies.insert n.id (g.copies.getD n.id [] ++ [(ctx, g.nodes.size)]) } := by
  have hkept : ¬ (n.id < reservedCount ∧ g.nodes.size ≠ n.id) := fun h => h.2 (hid h.1)
  simp only [addCopy, hnew, Option.isSome_none, Bool.false_eq_true, if_false, hkept, bind,
    Except.bind, pure, Except.pure]
  rfl

theorem CopiedOnce.addCopies {done : List Node} {n : Node} (hg : CopiedOnce done g)
    (hid : n.id = done.length) (haffinity : n.affinity = none) :
    ∃ g', addCopies policy g n = .ok g' ∧ CopiedOnce (done ++ [n]) g' := by
  have hsize : g.nodes.size = n.id := by
    rw [hid, ← Array.length_toList, hg.nodes, List.length_map]
  have hnone : g.copies.getD n.id [] = [] := by
    rw [hg.copies, hid, if_neg (Nat.lt_irrefl _)]
  let g' : ContextGraph C := { g with
    nodes := g.nodes.push (copyOf n Context.empty)
    copies := g.copies.insert n.id (g.copies.getD n.id [] ++ [(Context.empty, g.nodes.size)]) }
  have hok : addCopy n g Context.empty = .ok g' :=
    addCopy_eq_ok (by simp [copyIn?, hnone]) fun _ => hsize
  refine ⟨g', ?_, ?_, ?_⟩
  · rw [ContextGraph.addCopies, contextsFor_of_affinity haffinity, List.foldlM_cons, hok]
    rfl
  · simp [g', hg.nodes]
  · intro i
    change (g.copies.insert n.id _).getD i [] = _
    rw [Std.TreeMap.getD_insert, List.length_append, List.length_singleton, hnone, hsize, ← hid]
    by_cases hi : i = n.id
    · subst hi
      simp
    · have hi' : ¬ n.id = i := fun h => hi h.symm
      have hlt : i < n.id + 1 ↔ i < n.id :=
        ⟨fun h => Nat.lt_of_le_of_ne (Nat.le_of_lt_succ h) hi, Nat.lt_succ_of_lt⟩
      simp only [compare_eq_iff_eq, hi', if_false, hg.copies i, hlt, ← hid]

/-! ## The three stages -/

theorem exists_copies (policy : ContextPolicy C) (fieldSensitive : Bool) (hcheck : p.check = .ok ())
    (haffinity : ∀ n ∈ p.nodes, n.affinity = none) :
    ∃ g, p.nodes.toList.foldlM (addCopies policy) (start p fieldSensitive) = .ok g ∧
      CopiedOnce p.nodes.toList g := by
  apply foldlM_total CopiedOnce
  · exact ⟨by simp [start], fun i => by simp [start]⟩
  · intro done n rest g hxs hg
    have hn : p.nodes[done.length]? = some n := by
      rw [← Array.getElem?_toList, hxs]
      simp
    exact hg.addCopies (AssignmentGraph.check_node hcheck hn).1
      (haffinity n (Array.mem_of_getElem? hn))

section copied

variable {g₀ : ContextGraph C} (hg₀ : CopiesOf p fieldSensitive p.nodes.toList g₀)
  (honce : CopiedOnce p.nodes.toList g₀) (hcheck : p.check = .ok ())

include honce

theorem CopiedOnce.node_eq (i : Nat) :
    g₀.nodes[i]? = p.nodes[i]?.map (copyOf · Context.empty) := by
  rw [← Array.getElem?_toList, honce.nodes, List.getElem?_map, Array.getElem?_toList]

theorem CopiedOnce.size_eq : g₀.nodes.size = p.nodes.size := by
  rw [← Array.length_toList, honce.nodes, List.length_map, Array.length_toList]

theorem CopiedOnce.oneCopyEach : OneCopyEach p.nodes.size g₀ := by
  have h := honce.copies
  rwa [Array.length_toList] at h

include hg₀ hcheck

/-- The base of an object of the table is found. -/
theorem CopiedOnce.baseIn? {mem : MemObjId} (hmem : mem < p.memObjs.size) :
    ∃ base, g₀.baseIn? mem Context.empty = .ok (some base) := by
  have hobj := Array.getElem?_eq_getElem hmem
  obtain ⟨obj', hobj', hbase, -⟩ := hg₀.memObj hobj
  obtain ⟨n, hn, -⟩ := AssignmentGraph.check_base hcheck (Array.mem_of_getElem? hobj)
  have hcopy := honce.oneCopyEach.copyIn? (Array.getElem?_eq_some_iff.mp hn).1
  refine ⟨p.memObjs[mem].baseNode, ?_⟩
  simp [ContextGraph.baseIn?, entryAt_eq_ok hobj', hbase, hcopy, bind, Except.bind, pure,
    Except.pure]

/-- The copy of a node is anchored if the node's object is in the table. -/
theorem CopiedOnce.anchored {i : NodeId} {n : Node} (hn : p.nodes[i]? = some n)
    (hmem : ∀ mem, n.memObj = some mem → mem < p.memObjs.size) : g₀.Anchored i := by
  refine ⟨copyOf n Context.empty, by rw [honce.node_eq, hn]; rfl, fun mem hnmem => ?_⟩
  exact honce.baseIn? hg₀ hcheck (hmem mem hnmem)

/-- A field node can be registered, since its object and the copy of its base node exist. -/
theorem CopiedOnce.registerField (hclosed : p.Closed) {i : NodeId} (hi : i < p.nodes.size)
    (hnodes : g.nodes = g₀.nodes) (hcopies : g.copies = g₀.copies)
    (hmemObjs : g.memObjs = g₀.memObjs) : ∃ g', registerField p g i = .ok g' := by
  obtain ⟨n, hn⟩ : ∃ n, p.nodes[i]? = some n := ⟨_, Array.getElem?_eq_getElem hi⟩
  have hentry : entryAt g.nodes i = .ok (copyOf n Context.empty) := by
    apply entryAt_eq_ok
    rw [hnodes, honce.node_eq, hn]
    rfl
  simp only [ContextGraph.registerField, hentry, bind, Except.bind, pure, Except.pure]
  split
  · rename_i mem hkind hmem
    have hkind : n.kind = .fieldObject := hkind
    have hobj := Array.getElem?_eq_getElem (hclosed.memObj_lt hcheck hn (by rw [hkind]; rfl) hmem)
    obtain ⟨obj', hobj', -⟩ := hg₀.memObj hobj
    obtain ⟨base, hbase, -⟩ := AssignmentGraph.check_base hcheck (Array.mem_of_getElem? hobj)
    have hcopy := honce.oneCopyEach.copyIn (Array.getElem?_eq_some_iff.mp hbase).1
    simp only [copyIn, copyIn?, hcopies] at hcopy ⊢
    rw [hmemObjs]
    simp only [entryAt_eq_ok hobj, entryAt_eq_ok hobj', copyOf, hcopy]
    exact ⟨_, rfl⟩
  · exact ⟨g, rfl⟩

theorem CopiedOnce.exists_registered (hclosed : p.Closed) :
    ∃ g, (List.range g₀.nodes.size).foldlM (ContextGraph.registerField p) g₀ = .ok g ∧
      g.nodes = g₀.nodes ∧ g.copies = g₀.copies ∧ g.memObjs = g₀.memObjs := by
  apply foldlM_total fun _ (g : ContextGraph C) =>
    g.nodes = g₀.nodes ∧ g.copies = g₀.copies ∧ g.memObjs = g₀.memObjs
  · exact ⟨rfl, rfl, rfl⟩
  · intro done i rest g hxs ⟨hnodes, hcopies, hmemObjs⟩
    have hi : i ∈ List.range g₀.nodes.size := by
      rw [hxs]
      simp
    rw [honce.size_eq, List.mem_range] at hi
    obtain ⟨g', hok⟩ := honce.registerField hg₀ hcheck hclosed hi hnodes hcopies hmemObjs
    refine ⟨g', hok, ?_⟩
    obtain ⟨node, -, ⟨mem, obj, obj', base, -, -, -, -, -, rfl⟩ | ⟨-, rfl⟩⟩ := registerField_ok hok
    · exact ⟨hnodes, hcopies, hmemObjs⟩
    · exact ⟨hnodes, hcopies, hmemObjs⟩

end copied

/-- The policy lets calls and returns of a program without functions join nothing. -/
structure JoinsNothing (policy : ContextPolicy C) (p : AssignmentGraph) : Prop where
  call : ∀ e ∈ p.edges, ∀ srcs dsts, policy.callPairs p e srcs dsts = .ok []
  ret : ∀ e ∈ p.edges, ∀ srcs dsts, policy.returnPairs p e srcs dsts = .ok []

theorem OneCopyEach.pairsFor (hg : OneCopyEach p.nodes.size g) (hpolicy : JoinsNothing policy p)
    (hcheck : p.check = .ok ()) {e : Edge} (he : e ∈ p.edges) :
    ∃ pairs, pairsFor policy p g e = .ok pairs ∧
      ∀ q ∈ pairs, q = (Context.empty, Context.empty) := by
  obtain ⟨hsrc, hdst, -⟩ := AssignmentGraph.check_edges hcheck he
  unfold ContextGraph.pairsFor
  split
  · exact ⟨[], hpolicy.call e he _ _, by simp⟩
  · exact ⟨[], hpolicy.ret e he _ _, by simp⟩
  · exact ⟨[], rfl, by simp⟩
  · exact ⟨[], rfl, by simp⟩
  · exact ⟨_, hg.intraPairs hsrc hdst, by simp⟩

theorem OneCopyEach.copyEdge (hg : OneCopyEach p.nodes.size g) (hpolicy : JoinsNothing policy p)
    (hcheck : p.check = .ok ()) {e : Edge} (he : e ∈ p.edges) :
    ∃ g', copyEdge policy p g e = .ok g' ∧ OneCopyEach p.nodes.size g' := by
  obtain ⟨hsrc, hdst, -⟩ := AssignmentGraph.check_edges hcheck he
  obtain ⟨pairs, hpairs, hempty⟩ := hg.pairsFor hpolicy hcheck he
  rw [ContextGraph.copyEdge, hpairs]
  apply foldlM_total (fun _ g => OneCopyEach p.nodes.size g) hg
  intro done q rest g hq hg
  obtain rfl : q = (Context.empty, Context.empty) := hempty q (by simp [hq])
  refine ⟨g.withEdge (e.between e.src e.dst), ?_, ?_⟩
  · simp [joinCopies_eq, hg.copyIn hsrc, hg.copyIn hdst, bind, Except.bind, pure, Except.pure]
  · unfold withEdge
    split
    · exact hg
    · exact hg

theorem OneCopyEach.exists_joined (hg : OneCopyEach p.nodes.size g)
    (hpolicy : JoinsNothing policy p) (hcheck : p.check = .ok ()) :
    ∃ g', (EdgeKind.all.flatMap p.edgesOfKind).foldlM (ContextGraph.copyEdge policy p) g = .ok g' ∧
      OneCopyEach p.nodes.size g' := by
  apply foldlM_total (fun _ g => OneCopyEach p.nodes.size g) hg
  intro done e rest g hxs hg
  have he : e ∈ EdgeKind.all.flatMap p.edgesOfKind := by
    rw [hxs]
    simp
  obtain ⟨kind, -, he⟩ := List.mem_flatMap.mp he
  exact hg.copyEdge hpolicy hcheck (by simpa using (List.mem_filter.mp he).1)

/-! ## The graph -/

section joined

variable {g₀ g₁ : ContextGraph C} (hg₀ : CopiesOf p fieldSensitive p.nodes.toList g₀)
  (honce : CopiedOnce p.nodes.toList g₀) (hg₁ : Registered g₀ (List.range g₀.nodes.size) g₁)
  (hg : Joined p g₁ g) (hcheck : p.check = .ok ())

include hg₀ honce hg₁ hg hcheck

theorem Joined.anchored {i : NodeId} {n : Node} (hn : p.nodes[i]? = some n)
    (hmem : ∀ mem, n.memObj = some mem → mem < p.memObjs.size) : g.Anchored i := by
  obtain ⟨node, hnode, hbase⟩ := honce.anchored hg₀ hcheck hn hmem
  have hbaseIn : ∀ mem ctx, g.baseIn? mem ctx = g₀.baseIn? mem ctx := by
    intro mem ctx
    simp only [baseIn?, copyIn?, hg.memObjs, hg.copies, hg₁.memObjs, hg₁.copies]
  refine ⟨node, by rw [hg.nodes, hg₁.nodes, hnode], fun mem hnmem => ?_⟩
  rw [hbaseIn]
  exact hbase mem hnmem

theorem Joined.grounded (hclosed : p.Closed) : g.Grounded := by
  have hnodes : g.nodes = g₀.nodes := hg.nodes.trans hg₁.nodes
  have hmemObj : ∀ (mem : MemObjId) (obj' : MemObject), g.memObjs[mem]? = some obj' →
      ∃ obj ∈ p.memObjs, obj'.baseNode = obj.baseNode ∧ obj'.id = obj.id := by
    intro mem obj' hobj'
    rw [hg.memObjs, hg₁.memObjs] at hobj'
    obtain ⟨obj, hobj, hbase, hid⟩ := hg₀.exists_memObj hobj'
    exact ⟨obj, Array.mem_of_getElem? hobj, hbase, hid⟩
  have hsize : g.memObjs.size = p.memObjs.size := by
    rw [hg.memObjs, hg₁.memObjs, hg₀.memObj_size]
  constructor
  case id_lt =>
    intro mem obj' hobj'
    obtain ⟨obj, hobj, -, hid⟩ := hmemObj mem obj' hobj'
    rw [hid, hsize]
    exact hclosed.id_lt obj hobj
  case base =>
    intro mem obj' b hobj' hb
    obtain ⟨obj, hobj, hbase, -⟩ := hmemObj mem obj' hobj'
    have honce₁ : OneCopyEach p.nodes.size g := by
      rw [OneCopyEach, hg.copies, hg₁.copies]
      exact honce.oneCopyEach
    obtain rfl := honce₁.mem_copiesOf hb
    obtain ⟨n, hn, hmem, -⟩ := AssignmentGraph.check_base hcheck hobj
    rw [hbase]
    apply hg.anchored hg₀ honce hg₁ hcheck hn
    intro mem hnmem
    cases hmem.symm.trans hnmem
    exact hclosed.id_lt obj hobj
  case fieldsAt_lt =>
    intro b f hf
    rw [fieldsAt, hg.fieldsOf] at hf
    obtain ⟨-, node, mem, hnode, -⟩ := (hg₁.mem_fieldsAt b f).mp hf
    rw [hnodes]
    exact (Array.getElem?_eq_some_iff.mp hnode).1
  case fieldNodes =>
    intro key f hf
    rw [hg.fieldNodes] at hf
    obtain ⟨node, hnode, hkind, -⟩ := hg₁.fieldNodes key f hf
    rw [honce.node_eq] at hnode
    obtain ⟨n, hn, rfl⟩ := Option.map_eq_some_iff.mp hnode
    have hkind : n.kind = .fieldObject := hkind
    apply hg.anchored hg₀ honce hg₁ hcheck hn
    intro mem hmem
    exact hclosed.memObj_lt hcheck hn (by rw [hkind]; rfl) hmem
  case keyed =>
    intro i node hnode hinput
    rw [hnodes] at hnode
    exact absurd hinput (hg₀.input_ne_none hnode)

/-- An address is taken of a copy of an object node. -/
theorem Joined.anchored_src (hclosed : p.Closed) {e : ContextEdge} (he : e ∈ g.edges)
    (hkind : e.kind = .addr) : g.Anchored e.src := by
  obtain ⟨pe, hpe, hk, -, ⟨src, hsrc, hinput⟩, -⟩ := hg.edges e he
  obtain ⟨-, -, haddr⟩ := AssignmentGraph.check_edges hcheck hpe
  obtain ⟨n, hn, hobject⟩ := haddr (hk ▸ hkind)
  rw [hg₁.nodes, honce.node_eq] at hsrc
  obtain ⟨m, hm, rfl⟩ := Option.map_eq_some_iff.mp hsrc
  have hid : m.id = pe.src := Option.some.inj hinput
  have hsame : e.src = pe.src := (AssignmentGraph.check_node hcheck hm).1.symm.trans hid
  rw [hsame]
  apply hg.anchored hg₀ honce hg₁ hcheck hn
  intro mem hmem
  exact hclosed.memObj_lt hcheck hn hobject hmem

end joined

/-- Building the context graph of a closed program without defects whose nodes belong to no function
succeeds. The graph is grounded, its edges join nodes that exist, and addresses are taken of
anchored nodes only. -/
theorem exists_build (hcheck : p.check = .ok ()) (haffinity : ∀ n ∈ p.nodes, n.affinity = none)
    (hclosed : p.Closed) (hpolicy : JoinsNothing policy p) (fieldSensitive : Bool) :
    ∃ g, build policy p fieldSensitive = .ok g ∧ g.Grounded ∧
      (∀ e ∈ g.edges, e.src < g.nodes.size ∧ e.dst < g.nodes.size) ∧
      ∀ e ∈ g.edges, e.kind = .addr → g.Anchored e.src := by
  obtain ⟨g₀, hok₀, honce⟩ := exists_copies policy fieldSensitive hcheck haffinity
  have hg₀ := copiesOf_of_addCopies hok₀
  obtain ⟨g₁, hok₁, -, hcopies, -⟩ := honce.exists_registered hg₀ hcheck hclosed
  have hg₁ := registered_of_registerField hg₀ hok₁
  have honce₁ : OneCopyEach p.nodes.size g₁ := by
    rw [OneCopyEach, hcopies]
    exact honce.oneCopyEach
  obtain ⟨g, hok, -⟩ := honce₁.exists_joined hpolicy hcheck
  have hg := joined_of_copyEdge hg₀ hg₁ hok
  refine ⟨g, ?_, hg.grounded hg₀ honce hg₁ hcheck hclosed, fun e he => ?_, fun e he hkind => ?_⟩
  · simp only [build, hok₀, hok₁, hok, bind, Except.bind]
  · obtain ⟨-, -, -, -, ⟨src, hsrc, -⟩, dst, hdst, -⟩ := hg.edges e he
    rw [hg.nodes]
    exact ⟨(Array.getElem?_eq_some_iff.mp hsrc).1, (Array.getElem?_eq_some_iff.mp hdst).1⟩
  · exact hg.anchored_src hg₀ honce hg₁ hcheck hclosed he hkind

end ContextGraph

end PointerAnalysis
