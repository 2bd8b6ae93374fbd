import PointerAnalysis.ContextGraph.Build
import PointerAnalysis.Proofs.AssignmentGraph.Built
import PointerAnalysis.Proofs.ContextGraph.WellFormed

/-!
Building a context graph. The graph that is built for a properly made program, under any
policy, is well-formed: its nodes are copies of the program's nodes, its field nodes are
registered at the copies of their base nodes, and its edges are copies of the program's edges
between nodes that exist.
-/

namespace PointerAnalysis

/-- What each step of a fold that succeeds preserves holds at its end. -/
theorem foldlM_ok_induction {α β ε : Type} {f : β → α → Except ε β} (P : List α → β → Prop)
    {xs : List α} {b b' : β} (hstart : P [] b)
    (hstep : ∀ done x b b', x ∈ xs → P done b → f b x = .ok b' → P (done ++ [x]) b')
    (hok : xs.foldlM f b = .ok b') : P xs b' := by
  have hgen : ∀ (todo done : List α) (b : β), (∀ x ∈ todo, x ∈ xs) → P done b →
      todo.foldlM f b = .ok b' → P (done ++ todo) b' := by
    intro todo
    induction todo with
    | nil =>
        intro done b _ hP hok
        cases hok
        simpa using hP
    | cons x todo ih =>
        intro done b hmem hP hok
        rw [List.foldlM_cons] at hok
        obtain ⟨b₁, hx, hok⟩ := bind_eq_ok hok
        have hrest := ih (done ++ [x]) b₁ (fun y hy => hmem y (List.mem_cons_of_mem x hy))
          (hstep done x b b₁ (hmem x List.mem_cons_self) hP hx) hok
        simpa using hrest
  simpa using hgen xs [] b (fun _ h => h) hstart hok

namespace ContextGraph

variable {C : Type} [Context C] {p : AssignmentGraph}

/-! ## Copies of nodes -/

/-- The copy of a node in a context. -/
def copyOf (n : Node) (ctx : C) : ContextNode C := ⟨some n.id, n.kind, ctx, n.memObj, n.offset⟩

/-- The nodes of the graph are copies of the nodes `done`, one per context, found by the node and
the context. -/
structure CopiesOf (p : AssignmentGraph) (fieldSensitive : Bool) (done : List Node)
    (g : ContextGraph C) : Prop where
  memObjs : g.memObjs = (start p fieldSensitive : ContextGraph C).memObjs
  fieldNodes : g.fieldNodes = ∅
  fieldsOf : g.fieldsOf = ∅
  edges : g.edges = #[]
  node : ∀ (i : NodeId) (node : ContextNode C), g.nodes[i]? = some node →
    ∃ n ∈ p.nodes, ∃ ctx, node = copyOf n ctx
  copyIn : ∀ (input : NodeId) (ctx : C) (i : NodeId), (ctx, i) ∈ g.copies.getD input [] ↔
    ∃ node : ContextNode C, g.nodes[i]? = some node ∧ node.input = some input ∧ node.ctx = ctx
  unique : ∀ (input : NodeId) (ctx : C) (i j : NodeId), (ctx, i) ∈ g.copies.getD input [] →
    (ctx, j) ∈ g.copies.getD input [] → i = j
  reserved : ∀ (i : NodeId) (node : ContextNode C) (input : NodeId), g.nodes[i]? = some node →
    node.input = some input → input < reservedCount → i = input
  copied : ∀ n ∈ done, ∃ (i : NodeId) (ctx : C), g.nodes[i]? = some (copyOf n ctx)

theorem contextsFor_ne_nil (policy : ContextPolicy C) (n : Node) : contextsFor policy n ≠ [] := by
  unfold contextsFor
  split
  · simp
  · split
    · simp
    · assumption

/-- What it takes to add a copy, and what the graph is then. -/
theorem addCopy_ok {n : Node} {g g' : ContextGraph C} {ctx : C} (hok : addCopy n g ctx = .ok g') :
    g.copyIn? n.id ctx = none ∧ (n.id < reservedCount → g.nodes.size = n.id) ∧
      g' = { g with
        nodes := g.nodes.push (copyOf n ctx)
        copies := g.copies.insert n.id (g.copies.getD n.id [] ++ [(ctx, g.nodes.size)]) } := by
  unfold addCopy at hok
  split at hok
  · simp [bind, Except.bind, throw, throwThe, MonadExceptOf.throw] at hok
  · rename_i hnew
    simp only [bind, Except.bind, pure, Except.pure] at hok
    split at hok
    · simp [throw, throwThe, MonadExceptOf.throw] at hok
    · rename_i hmoved
      refine ⟨by simpa using hnew, fun hlt => ?_, (Except.ok.inj hok).symm⟩
      by_contra hne
      exact hmoved ⟨hlt, hne⟩

theorem addCopy_copiesOf {fieldSensitive : Bool} {done : List Node} {n : Node} (hn : n ∈ p.nodes)
    {g g' : ContextGraph C} {ctx : C} (hg : CopiesOf p fieldSensitive done g)
    (hok : addCopy n g ctx = .ok g') :
    CopiesOf p fieldSensitive done g' ∧ ∃ i : NodeId, g'.nodes[i]? = some (copyOf n ctx) := by
  obtain ⟨hnew, hmoved, hg'⟩ := addCopy_ok hok
  have hnodes : ∀ i : NodeId, g'.nodes[i]? =
      if i = g.nodes.size then some (copyOf n ctx) else g.nodes[i]? := by
    intro i
    rw [hg']
    exact Array.getElem?_push
  have hfresh : ∀ i, (ctx, i) ∉ g.copies.getD n.id [] := by
    intro i hi
    rw [copyIn?, List.lookup_eq_none_iff] at hnew
    simpa using hnew (ctx, i) hi
  have hcopies : ∀ input c i, (c, i) ∈ g'.copies.getD input [] ↔
      (c, i) ∈ g.copies.getD input [] ∨ input = n.id ∧ c = ctx ∧ i = g.nodes.size := by
    intro input c i
    rw [hg', Std.TreeMap.getD_insert]
    by_cases hi : input = n.id
    · subst hi
      simp
    · have hi' : ¬ n.id = input := fun h => hi h.symm
      simp [hi, hi']
  refine ⟨⟨?_, ?_, ?_, ?_, ?_, ?_, ?_, ?_, ?_⟩, g.nodes.size, ?_⟩
  · rw [hg']
    exact hg.memObjs
  · rw [hg']
    exact hg.fieldNodes
  · rw [hg']
    exact hg.fieldsOf
  · rw [hg']
    exact hg.edges
  · intro i node hi
    rw [hnodes] at hi
    split at hi
    · cases Option.some.inj hi
      exact ⟨n, hn, ctx, rfl⟩
    · exact hg.node i node hi
  · intro input c i
    rw [hcopies, hg.copyIn, hnodes]
    constructor
    · rintro (⟨node, hnode, rest⟩ | ⟨rfl, rfl, rfl⟩)
      · have hi := (Array.getElem?_eq_some_iff.mp hnode).1
        exact ⟨node, by rw [if_neg (Nat.ne_of_lt hi), hnode], rest⟩
      · exact ⟨copyOf n c, if_pos rfl, rfl, rfl⟩
    · rintro ⟨node, hnode, hinput, hctx⟩
      split at hnode
      · rename_i hi
        cases Option.some.inj hnode
        exact .inr ⟨(Option.some.inj hinput).symm, hctx.symm, hi⟩
      · exact .inl ⟨node, hnode, hinput, hctx⟩
  · intro input c i j hi hj
    rw [hcopies] at hi hj
    rcases hi with hi | ⟨rfl, rfl, rfl⟩ <;> rcases hj with hj | ⟨hj₁, hj₂, hj₃⟩
    · exact hg.unique input c i j hi hj
    · subst hj₁ hj₂
      exact absurd hi (hfresh i)
    · exact absurd hj (hfresh j)
    · exact hj₃.symm
  · intro i node input hnode hinput hlt
    rw [hnodes] at hnode
    split at hnode
    · rename_i hi
      cases Option.some.inj hnode
      cases Option.some.inj hinput
      exact hi.trans (hmoved hlt)
    · exact hg.reserved i node input hnode hinput hlt
  · intro m hm
    obtain ⟨i, c, hi⟩ := hg.copied m hm
    have hlt := (Array.getElem?_eq_some_iff.mp hi).1
    exact ⟨i, c, by rw [hnodes, if_neg (Nat.ne_of_lt hlt), hi]⟩
  · rw [hnodes, if_pos rfl]

theorem addCopies_copiesOf {fieldSensitive : Bool} {policy : ContextPolicy C} {done : List Node}
    {n : Node} (hn : n ∈ p.nodes) {g g' : ContextGraph C} (hg : CopiesOf p fieldSensitive done g)
    (hok : addCopies policy g n = .ok g') : CopiesOf p fieldSensitive (done ++ [n]) g' := by
  obtain ⟨hg', hcopied⟩ := foldlM_ok_induction
    (fun ctxs g => CopiesOf p fieldSensitive done g ∧
      (ctxs ≠ [] → ∃ (i : NodeId) (ctx : C), g.nodes[i]? = some (copyOf n ctx)))
    ⟨hg, fun h => absurd rfl h⟩ (fun ctxs ctx g g' _ hP hstep => by
      obtain ⟨hg', i, hi⟩ := addCopy_copiesOf hn hP.1 hstep
      exact ⟨hg', fun _ => ⟨i, ctx, hi⟩⟩) hok
  refine { hg' with copied := fun m hm => ?_ }
  rcases List.mem_append.mp hm with hm | hm
  · exact hg'.copied m hm
  · cases List.mem_singleton.mp hm
    exact hcopied (contextsFor_ne_nil policy n)

theorem start_copiesOf (p : AssignmentGraph) (fieldSensitive : Bool) :
    CopiesOf p fieldSensitive [] (start p fieldSensitive : ContextGraph C) where
  memObjs := rfl
  fieldNodes := rfl
  fieldsOf := rfl
  edges := rfl
  node i node h := by simp [start] at h
  copyIn input ctx i := by simp [start]
  unique input ctx i j h := by simp [start] at h
  reserved i node input h := by simp [start] at h
  copied n h := by simp at h

/-! ## Objects and bases -/

/-- An object of the graph is the program's, up to whether its fields are told apart. -/
theorem CopiesOf.memObj {fieldSensitive : Bool} {done : List Node} {g : ContextGraph C}
    (hg : CopiesOf p fieldSensitive done g) {mem : MemObjId} {obj : MemObject} :
    p.memObjs[mem]? = some obj →
      ∃ obj' : MemObject, g.memObjs[mem]? = some obj' ∧ obj'.baseNode = obj.baseNode ∧
        obj'.id = obj.id := by
  intro hobj
  rw [hg.memObjs, start]
  cases fieldSensitive with
  | true => exact ⟨obj, by simpa using hobj, rfl, rfl⟩
  | false => exact ⟨{ obj with fieldInsensitive := true }, by simp [hobj], rfl, rfl⟩

theorem CopiesOf.memObj_size {fieldSensitive : Bool} {done : List Node} {g : ContextGraph C}
    (hg : CopiesOf p fieldSensitive done g) : g.memObjs.size = p.memObjs.size := by
  rw [hg.memObjs, start]
  cases fieldSensitive <;> simp

/-- Whether the node in a context was found. -/
theorem CopiesOf.copyIn?_eq_some {fieldSensitive : Bool} {done : List Node} {g : ContextGraph C}
    (hg : CopiesOf p fieldSensitive done g) {input : NodeId} {ctx : C} {i : NodeId} :
    g.copyIn? input ctx = some i ↔
      ∃ node : ContextNode C, g.nodes[i]? = some node ∧ node.input = some input ∧
        node.ctx = ctx := by
  rw [← hg.copyIn, copyIn?]
  constructor
  · intro h
    obtain ⟨l₁, l₂, heq, -⟩ := List.lookup_eq_some_iff.mp h
    simp [heq]
  · intro h
    cases hl : (g.copies.getD input []).lookup ctx with
    | none =>
        rw [List.lookup_eq_none_iff] at hl
        simpa using hl (ctx, i) h
    | some j =>
        obtain ⟨l₁, l₂, heq, -⟩ := List.lookup_eq_some_iff.mp hl
        rw [hg.unique input ctx j i (by simp [heq]) h]

/-! ## Fields -/

/-- The field nodes among `done` are registered at their bases. -/
structure Registered (g₀ : ContextGraph C) (done : List NodeId) (g : ContextGraph C) : Prop where
  nodes : g.nodes = g₀.nodes
  copies : g.copies = g₀.copies
  memObjs : g.memObjs = g₀.memObjs
  edges : g.edges = g₀.edges
  based : ∀ (f : NodeId) (node : ContextNode C) (mem : MemObjId), f ∈ done →
  g₀.nodes[f]? = some node →
    node.kind = .fieldObject → node.memObj = some mem → ∃ b, g₀.baseIn? mem node.ctx = .ok (some b)
  mem_fieldsAt : ∀ b f, f ∈ g.fieldsAt b ↔ f ∈ done ∧ ∃ (node : ContextNode C) (mem : MemObjId),
    g₀.nodes[f]? = some node ∧ node.kind = .fieldObject ∧ node.memObj = some mem ∧
    g₀.baseIn? mem node.ctx = .ok (some b)
  fieldNodes : ∀ (key : FieldKey C) f, g.fieldNodes[key]? = some f → ∃ node : ContextNode C,
    g₀.nodes[f]? = some node ∧ node.kind = .fieldObject ∧ node.memObj = some key.memObj ∧
    node.ctx = key.ctx ∧ ∃ obj : MemObject, g₀.memObjs[key.memObj]? = some obj ∧
      key.offset = node.offset.reduce obj.modulus

/-- What registering a node does: a field node gets its place at the base node, and its key, unless
that is taken; any other node is passed over. -/
theorem registerField_ok {g g' : ContextGraph C} {n : NodeId} (hok : registerField p g n = .ok g') :
    ∃ node : ContextNode C, g.nodes[n]? = some node ∧
      ((∃ (mem : MemObjId) (obj obj' : MemObject) (base : NodeId),
          node.kind = .fieldObject ∧ node.memObj = some mem ∧ p.memObjs[mem]? = some obj ∧
          g.copyIn? obj.baseNode node.ctx = some base ∧ g.memObjs[mem]? = some obj' ∧
          g' = { g with
            fieldNodes := g.fieldNodes.insertIfNew
              ⟨mem, node.offset.reduce obj'.modulus, node.ctx⟩ n }.attachField base n) ∨
        (∀ mem, node.kind = .fieldObject → node.memObj ≠ some mem) ∧ g' = g) := by
  unfold registerField at hok
  obtain ⟨node, hentry, hok⟩ := bind_eq_ok hok
  refine ⟨node, AssignmentGraph.entryAt_ok hentry, ?_⟩
  split at hok
  · rename_i mem hkind hmem
    obtain ⟨obj, hobj, hok⟩ := bind_eq_ok hok
    obtain ⟨base, hbase, hok⟩ := bind_eq_ok hok
    obtain ⟨obj', hobj', hok⟩ := bind_eq_ok hok
    refine .inl ⟨mem, obj, obj', base, hkind, hmem, AssignmentGraph.entryAt_ok hobj, ?_,
      AssignmentGraph.entryAt_ok hobj', (Except.ok.inj hok).symm⟩
    unfold ContextGraph.copyIn at hbase
    split at hbase
    · rename_i hfound
      cases hbase
      exact hfound
    · simp at hbase
  · rename_i hother
    exact .inr ⟨hother, (Except.ok.inj hok).symm⟩

theorem registerField_registered {fieldSensitive : Bool} {all : List Node}
    {g₀ g g' : ContextGraph C}
    (hg₀ : CopiesOf p fieldSensitive all g₀) {done : List NodeId} {n : NodeId}
    (hg : Registered g₀ done g) (hok : registerField p g n = .ok g') :
    Registered g₀ (done ++ [n]) g' := by
  obtain ⟨node, hnode, ⟨mem, obj, whole, base, hkind, hmem, hobj, hcopy, hwhole, rfl⟩ |
    ⟨hother, rfl⟩⟩ := registerField_ok hok
  · rw [hg.nodes] at hnode
    rw [hg.memObjs] at hwhole
    have hbase : g₀.baseIn? mem node.ctx = .ok (some base) := by
      obtain ⟨obj', hobj', hbaseNode, -⟩ := hg₀.memObj hobj
      simp only [baseIn?, entryAt_eq_ok hobj', bind, Except.bind, pure, Except.pure, hbaseNode]
      rw [copyIn?, ← hg.copies]
      exact congrArg _ hcopy
    refine ⟨hg.nodes, hg.copies, hg.memObjs, hg.edges, ?_, ?_, ?_⟩
    · intro f fnode fmem hf hfnode hfkind hfmem
      rcases List.mem_append.mp hf with hf | hf
      · exact hg.based f fnode fmem hf hfnode hfkind hfmem
      · cases List.mem_singleton.mp hf
        cases hnode.symm.trans hfnode
        cases Option.some.inj (hmem.symm.trans hfmem)
        exact ⟨base, hbase⟩
    · intro b f
      have hat : f ∈ (g.fieldsOf.insert base (g.fieldsAt base ++ [n])).getD b [] ↔
          f ∈ g.fieldsAt b ∨ b = base ∧ f = n := by
        rw [Std.TreeMap.getD_insert]
        by_cases hb : b = base
        · subst hb
          simp
        · have hb' : ¬ base = b := fun h => hb h.symm
          simp [hb, hb', fieldsAt]
      refine hat.trans ?_
      rw [hg.mem_fieldsAt, List.mem_append, List.mem_singleton]
      constructor
      · rintro (⟨hf, rest⟩ | ⟨rfl, rfl⟩)
        · exact ⟨.inl hf, rest⟩
        · exact ⟨.inr rfl, node, mem, hnode, hkind, hmem, hbase⟩
      · rintro ⟨hf | rfl, fnode, fmem, hfnode, hfkind, hfmem, hb⟩
        · exact .inl ⟨hf, fnode, fmem, hfnode, hfkind, hfmem, hb⟩
        · cases hnode.symm.trans hfnode
          cases Option.some.inj (hmem.symm.trans hfmem)
          exact .inr ⟨by simpa using (hb.symm.trans hbase), rfl⟩
    · intro key f hf
      have hins :
          (g.fieldNodes.insertIfNew ⟨mem, node.offset.reduce whole.modulus, node.ctx⟩ n)[key]? =
          some f := hf
      rw [Std.TreeMap.getElem?_insertIfNew] at hins
      split at hins
      · rename_i hkey
        obtain rfl := Std.LawfulEqOrd.eq_of_compare hkey.1
        cases Option.some.inj hins
        exact ⟨node, hnode, hkind, hmem, rfl, whole, hwhole, rfl⟩
      · exact hg.fieldNodes key f hins
  · rw [hg.nodes] at hnode
    refine ⟨hg.nodes, hg.copies, hg.memObjs, hg.edges, ?_, ?_, hg.fieldNodes⟩
    · intro f fnode fmem hf hfnode hfkind hfmem
      rcases List.mem_append.mp hf with hf | hf
      · exact hg.based f fnode fmem hf hfnode hfkind hfmem
      · cases List.mem_singleton.mp hf
        cases hnode.symm.trans hfnode
        exact absurd hfmem (hother fmem hfkind)
    · intro b f
      rw [hg.mem_fieldsAt, List.mem_append, List.mem_singleton]
      constructor
      · rintro ⟨hf, rest⟩
        exact ⟨.inl hf, rest⟩
      · rintro ⟨hf | rfl, fnode, fmem, hfnode, hfkind, hfmem, hb⟩
        · exact ⟨hf, fnode, fmem, hfnode, hfkind, hfmem, hb⟩
        · cases hnode.symm.trans hfnode
          exact absurd hfmem (hother fmem hfkind)

/-! ## The graph -/

/-- A well-formed context graph as it is built: every node is a copy, and every edge joins nodes
that exist and takes addresses only of what may be pointed to. -/
structure WellBuilt (g : ContextGraph C) : Prop extends WellFormed g where
  input : ∀ (n : NodeId) (node : ContextNode C), g.nodes[n]? = some node → node.input ≠ none
  edges_lt : ∀ e ∈ g.edges, e.src < g.nodes.size ∧ e.dst < g.nodes.size
  addr_target : ∀ e ∈ g.edges, e.kind = .addr → g.IsTarget e.src
  threads : ∀ e ∈ g.edges, e.kind ≠ .fork ∧ e.kind ≠ .join

section registered

variable {fieldSensitive : Bool} {g₀ g : ContextGraph C}
  (hg₀ : CopiesOf p fieldSensitive p.nodes.toList g₀)

include hg₀

/-- An object of the graph is one of the program's. -/
theorem CopiesOf.exists_memObj {mem : MemObjId} {obj' : MemObject}
    (hobj' : g₀.memObjs[mem]? = some obj') :
    ∃ obj : MemObject, p.memObjs[mem]? = some obj ∧ obj'.baseNode = obj.baseNode ∧
      obj'.id = obj.id := by
  have hlt := (Array.getElem?_eq_some_iff.mp hobj').1
  rw [hg₀.memObj_size] at hlt
  have hobj := Array.getElem?_eq_getElem hlt
  obtain ⟨obj'', hobj'', hbase, hid⟩ := hg₀.memObj hobj
  cases hobj'.symm.trans hobj''
  exact ⟨_, hobj, hbase, hid⟩

theorem CopiesOf.input_ne_none {i : NodeId} {node : ContextNode C} (hi : g₀.nodes[i]? = some node) :
    node.input ≠ none := by
  obtain ⟨n, -, ctx, rfl⟩ := hg₀.node i node hi
  simp [copyOf]

variable (hp : p.Layout)

include hp

/-- A node of the graph is a copy of the program's node that it names. -/
theorem CopiesOf.exists_input {i : NodeId} {node : ContextNode C} (hi : g₀.nodes[i]? = some node) :
    ∃ (n : Node) (ctx : C), p.nodes[n.id]? = some n ∧ node = copyOf n ctx := by
  obtain ⟨n, hn, ctx, rfl⟩ := hg₀.node i node hi
  obtain ⟨k, hk, hget⟩ := Array.getElem_of_mem hn
  have hn' : p.nodes[k]? = some n := by rw [Array.getElem?_eq_getElem hk, hget]
  exact ⟨n, ctx, hp.id_eq k n hn' ▸ hn', rfl⟩

/-- What is found as a base is a copy of the base node. -/
theorem CopiesOf.exists_base {mem : MemObjId} {ctx : C} {b : NodeId}
    (hb : g₀.baseIn? mem ctx = .ok (some b)) :
    ∃ base : ContextNode C, g₀.nodes[b]? = some base ∧ base.memObj = some mem ∧ base.ctx = ctx ∧
      base.kind ≠ .fieldObject := by
  cases hobj' : g₀.memObjs[mem]? with
  | none => simp [baseIn?, entryAt, hobj', bind, Except.bind] at hb
  | some obj' =>
      obtain ⟨obj, hobj, hbase, -⟩ := hg₀.exists_memObj hobj'
      obtain ⟨-, n, hn, hnmem, hnkind⟩ := hp.objects mem obj hobj
      simp only [baseIn?, entryAt_eq_ok hobj', bind, Except.bind, pure, Except.pure,
        Except.ok.injEq, hg₀.copyIn?_eq_some, hbase] at hb
      obtain ⟨base, hbnode, hinput, hctx⟩ := hb
      obtain ⟨m, ctx', hm, rfl⟩ := hg₀.exists_input hp hbnode
      have hid : m.id = obj.baseNode := Option.some.inj hinput
      cases hn.symm.trans (hid ▸ hm)
      exact ⟨_, hbnode, hnmem, hctx, hnkind⟩

/-- A node of an object that is no field is found as the base of the object. -/
theorem CopiesOf.baseIn?_self {i : NodeId} {node : ContextNode C} {mem : MemObjId}
    (hi : g₀.nodes[i]? = some node) (hmem : node.memObj = some mem)
    (hkind : node.kind ≠ .fieldObject) : g₀.baseIn? mem node.ctx = .ok (some i) := by
  obtain ⟨n, ctx, hn, rfl⟩ := hg₀.exists_input hp hi
  obtain ⟨obj, hobj, hbase⟩ := hp.parts n.id n mem hn hmem
  obtain ⟨obj', hobj', hbase', -⟩ := hg₀.memObj hobj
  simp only [baseIn?, entryAt_eq_ok hobj', bind, Except.bind, pure, Except.pure,
    Except.ok.injEq, hg₀.copyIn?_eq_some]
  exact ⟨_, hi, by rw [hbase', hbase hkind]; rfl, rfl⟩

/-- The reserved node `i` has a copy, which can only be the node `i`. -/
theorem CopiesOf.not_partOf_special {i : NodeId} {node : ContextNode C}
    (hi : g₀.nodes[i]? = some node) (hspecial : isSpecial i) : node.memObj = none := by
  have hres : i < reservedCount := by
    simp only [isSpecial, blackHole, constantData, Bool.or_eq_true, beq_iff_eq] at hspecial
    rcases hspecial with rfl | rfl <;> decide
  have hlt : i < p.nodes.size := Nat.lt_of_lt_of_le hres hp.size
  have hget : p.nodes[i]? = some p.nodes[i] := Array.getElem?_eq_getElem hlt
  obtain ⟨j, ctx, hj⟩ := hg₀.copied p.nodes[i] (by simp)
  have hji : j = i := by
    have hid := hp.id_eq i _ hget
    exact (hg₀.reserved j _ p.nodes[i].id hj rfl (hid ▸ hres)).trans hid
  subst hji
  cases hj.symm.trans hi
  exact (hp.reserved j _ hget hres).1

/-- With all field nodes registered the graph is well-formed. -/
theorem wellFormed_of_registered (hg : Registered g₀ (List.range g₀.nodes.size) g) :
    WellFormed g := by
  have hbaseIn : ∀ mem ctx, g.baseIn? mem ctx = g₀.baseIn? mem ctx := by
    intro mem ctx
    simp only [baseIn?, copyIn?, hg.memObjs, hg.copies]
  constructor
  case special =>
    rintro i mem hspecial ⟨node, hnode, hmem⟩
    rw [hg.nodes] at hnode
    simp [hg₀.not_partOf_special hp hnode hspecial] at hmem
  case mem_lt =>
    rintro i mem ⟨node, hnode, hmem⟩
    rw [hg.nodes] at hnode
    obtain ⟨n, ctx, hn, rfl⟩ := hg₀.exists_input hp hnode
    obtain ⟨obj, hobj, -⟩ := hp.parts n.id n mem hn hmem
    rw [hg.memObjs, hg₀.memObj_size]
    exact (Array.getElem?_eq_some_iff.mp hobj).1
  case id_eq =>
    intro mem obj' hobj'
    rw [hg.memObjs] at hobj'
    obtain ⟨obj, hobj, -, hid⟩ := hg₀.exists_memObj hobj'
    rw [hid, (hp.objects mem obj hobj).1]
  case base =>
    intro i node mem hnode hmem
    rw [hg.nodes] at hnode
    simp only [hbaseIn, hg.nodes]
    by_cases hfield : node.kind = .fieldObject
    · have hi : i ∈ List.range g₀.nodes.size :=
        List.mem_range.mpr (Array.getElem?_eq_some_iff.mp hnode).1
      obtain ⟨b, hb⟩ := hg.based i node mem hi hnode hfield hmem
      obtain ⟨base, hbnode, hbmem, hbctx, hbkind⟩ := hg₀.exists_base hp hb
      exact ⟨b, base, hb, hbnode, hbmem, hbctx, hbkind, fun h => absurd hfield h⟩
    · exact ⟨i, node, hg₀.baseIn?_self hp hnode hmem hfield, hnode, hmem, rfl, hfield, fun _ => rfl⟩
  case mem_fieldsAt =>
    intro b f
    rw [hg.mem_fieldsAt, hg.nodes]
    simp only [hbaseIn, List.mem_range]
    constructor
    · exact fun h => h.2
    · rintro ⟨node, mem, hnode, rest⟩
      exact ⟨(Array.getElem?_eq_some_iff.mp hnode).1, node, mem, hnode, rest⟩
  case copies_base =>
    intro mem obj' b hobj' hb
    rw [hg.memObjs] at hobj'
    rw [copiesOf, hg.copies, List.mem_map] at hb
    obtain ⟨⟨ctx, i⟩, hmem, rfl⟩ := hb
    have hcopy : g₀.copyIn? obj'.baseNode ctx = some i :=
      hg₀.copyIn?_eq_some.mpr ((hg₀.copyIn _ ctx i).mp hmem)
    have hb : g₀.baseIn? mem ctx = .ok (some i) := by
      simp [baseIn?, entryAt_eq_ok hobj', bind, Except.bind, pure, Except.pure, hcopy]
    obtain ⟨base, hbnode, hbmem, -, hbkind⟩ := hg₀.exists_base hp hb
    exact ⟨base, by rw [hg.nodes]; exact hbnode, hbmem, hbkind⟩
  case fieldNodes =>
    intro key f hf
    obtain ⟨node, hnode, hkind, hmem, hctx, -⟩ := hg.fieldNodes key f hf
    refine ⟨node, by rw [hg.nodes]; exact hnode, hkind, hmem, hctx, fun hinput => ?_⟩
    exact absurd hinput (hg₀.input_ne_none hnode)
  case made =>
    intro i node hnode hinput
    rw [hg.nodes] at hnode
    exact absurd hinput (hg₀.input_ne_none hnode)
  case reduced =>
    intro key f node obj hf hnode hobj
    obtain ⟨node', hnode', -, -, -, obj', hobj', hoffset⟩ := hg.fieldNodes key f hf
    rw [hg.nodes] at hnode
    rw [hg.memObjs] at hobj
    cases hnode.symm.trans hnode'
    cases hobj.symm.trans hobj'
    exact hoffset.symm

end registered

/-- The graph with more edges, each a copy of an edge of the program. -/
structure Joined (p : AssignmentGraph) (g₀ g : ContextGraph C) : Prop where
  nodes : g.nodes = g₀.nodes
  copies : g.copies = g₀.copies
  memObjs : g.memObjs = g₀.memObjs
  fieldNodes : g.fieldNodes = g₀.fieldNodes
  fieldsOf : g.fieldsOf = g₀.fieldsOf
  threads : ∀ e ∈ g.edges, e.kind ≠ .fork ∧ e.kind ≠ .join
  edges : ∀ e ∈ g.edges, ∃ pe ∈ p.edges, e.kind = pe.kind ∧ e.offset = pe.offset ∧
    (∃ src : ContextNode C, g₀.nodes[e.src]? = some src ∧ src.input = some pe.src) ∧
    ∃ dst : ContextNode C, g₀.nodes[e.dst]? = some dst ∧ dst.input = some pe.dst

/-- The graph together with an edge, if none has the key of that one yet. -/
def withEdge (g : ContextGraph C) (e : ContextEdge) : ContextGraph C :=
  if g.hasEdge (keyOf e) then g else g.pushEdge e

/-- An edge that is added because none has its key cannot be a duplicate. -/
theorem joinCopies_eq (e : Edge) (g : ContextGraph C) (ctxs : C × C) :
    joinCopies e g ctxs = do
      let src ← g.copyIn e.src ctxs.1
      let dst ← g.copyIn e.dst ctxs.2
      return g.withEdge (e.between src dst) := by
  have hconnect : ∀ src dst, (do return (← g.connect e src dst).2) =
      (.ok (g.withEdge (e.between src dst)) : Except Fault (ContextGraph C)) := by
    intro src dst
    unfold connect addEdge withEdge
    by_cases hhas : g.hasEdge (keyOf (e.between src dst))
    · simp [hhas, bind, Except.bind, pure, Except.pure]
    · simp [hhas, bind, Except.bind, pure, Except.pure]
  simp only [joinCopies, hconnect]
  rfl

theorem joinCopies_joined {fieldSensitive : Bool} {all : List Node} {g₀ g₁ g g' : ContextGraph C}
    (hg₀ : CopiesOf p fieldSensitive all g₀) (hnodes : g₁.nodes = g₀.nodes)
    (hcopies : g₁.copies = g₀.copies) {pe : Edge} (hpe : pe ∈ p.edges)
    (hthreads : pe.kind ≠ .fork ∧ pe.kind ≠ .join) {ctxs : C × C} (hg : Joined p g₁ g)
    (hok : joinCopies pe g ctxs = .ok g') : Joined p g₁ g' := by
  have hcopy : ∀ (input : NodeId) (ctx : C) (i : NodeId), g.copyIn input ctx = .ok i →
      ∃ node : ContextNode C, g₁.nodes[i]? = some node ∧ node.input = some input := by
    intro input ctx i hi
    unfold ContextGraph.copyIn at hi
    split at hi
    · rename_i hfound
      cases hi
      rw [copyIn?, hg.copies, hcopies] at hfound
      obtain ⟨node, hnode, hinput, -⟩ := hg₀.copyIn?_eq_some.mp hfound
      exact ⟨node, by rw [hnodes, hnode], hinput⟩
    · simp at hi
  rw [joinCopies_eq] at hok
  obtain ⟨src, hsrc, hok⟩ := bind_eq_ok hok
  obtain ⟨dst, hdst, hok⟩ := bind_eq_ok hok
  cases Except.ok.inj hok
  unfold withEdge
  split
  · exact hg
  · refine { hg with threads := fun e he => ?_, edges := fun e he => ?_ }
    · rcases Array.mem_push.mp he with he | rfl
      · exact hg.threads e he
      · exact hthreads
    · rcases Array.mem_push.mp he with he | rfl
      · exact hg.edges e he
      · exact ⟨pe, hpe, rfl, rfl, hcopy _ _ src hsrc, hcopy _ _ dst hdst⟩

theorem Joined.wellFormed {g₁ g : ContextGraph C} (hg : Joined p g₁ g) (hwf : g₁.WellFormed) :
    g.WellFormed := by
  obtain ⟨nodes, edges, edgeKeys, edgesByKind, copies, fieldNodes, fieldsOf, memObjs, lazyFields⟩ :=
    g
  obtain ⟨rfl, rfl, rfl, rfl, rfl, -, -⟩ := hg
  exact ⟨hwf.1, hwf.2, hwf.3, hwf.4, hwf.5, hwf.6, hwf.7, hwf.8, hwf.9⟩

/-! ## The three stages -/

section stages

variable {policy : ContextPolicy C} {fieldSensitive : Bool} {g₀ g₁ g : ContextGraph C}

theorem copiesOf_of_addCopies
    (hok : p.nodes.toList.foldlM (addCopies policy) (start p fieldSensitive) = .ok g₀) :
    CopiesOf p fieldSensitive p.nodes.toList g₀ :=
  foldlM_ok_induction (CopiesOf p fieldSensitive) (start_copiesOf p fieldSensitive)
    (fun _ _ _ _ hn hP hstep => addCopies_copiesOf (by simpa using hn) hP hstep) hok

variable (hg₀ : CopiesOf p fieldSensitive p.nodes.toList g₀)

include hg₀

theorem registered_of_registerField
    (hok : (List.range g₀.nodes.size).foldlM (registerField p) g₀ = .ok g₁) :
    Registered g₀ (List.range g₀.nodes.size) g₁ := by
  refine foldlM_ok_induction (Registered g₀) ⟨rfl, rfl, rfl, rfl, ?_, ?_, ?_⟩
    (fun _ _ _ _ _ hP hstep => registerField_registered hg₀ hP hstep) hok
  · simp
  · simp [fieldsAt, hg₀.fieldsOf]
  · simp [hg₀.fieldNodes]

theorem joined_of_copyEdge (hg₁ : Registered g₀ (List.range g₀.nodes.size) g₁)
    (hok : (EdgeKind.all.flatMap p.edgesOfKind).foldlM (copyEdge policy p) g₁ = .ok g) :
    Joined p g₁ g := by
  refine foldlM_ok_induction (fun _ g => Joined p g₁ g) ⟨rfl, rfl, rfl, rfl, rfl, ?_, ?_⟩ ?_ hok
  · simp [hg₁.edges, hg₀.edges]
  · simp [hg₁.edges, hg₀.edges]
  · intro _ pe b b' hpe hP hstep
    unfold copyEdge at hstep
    obtain ⟨pairs, hpairs, hstep⟩ := bind_eq_ok hstep
    have hpe : pe ∈ p.edges := by
      obtain ⟨kind, -, hpe⟩ := List.mem_flatMap.mp hpe
      simpa using (List.mem_filter.mp hpe).1
    refine foldlM_ok_induction (fun _ g => Joined p g₁ g) hP (fun _ _ _ _ hctxs hQ hs => ?_) hstep
    refine joinCopies_joined hg₀ hg₁.nodes hg₁.copies hpe ⟨fun hkind => ?_, fun hkind => ?_⟩ hQ hs
    all_goals
      rw [pairsFor, hkind] at hpairs
      cases hpairs
      simp at hctxs

/-- A copy of an object of a program without defects may be pointed to. -/
theorem CopiesOf.isTarget (hp : p.Layout) (hcheck : p.check = .ok ()) {i : NodeId}
    {node : ContextNode C} {n : Node} (hi : g₀.nodes[i]? = some node)
    (hinput : node.input = some n.id) (hn : p.nodes[n.id]? = some n) (hobject : n.kind.isObject) :
    g₀.IsTarget i := by
  refine ⟨(Array.getElem?_eq_some_iff.mp hi).1, ?_⟩
  obtain ⟨m, ctx, hm, rfl⟩ := hg₀.exists_input hp hi
  have hid : m.id = n.id := Option.some.inj hinput
  cases hn.symm.trans (hid ▸ hm)
  by_cases hres : n.id < reservedCount
  · -- the copy of a reserved node has the node's own id
    have heq := hg₀.reserved i _ n.id hi rfl hres
    exact .inl (heq ▸ (hp.reserved n.id n hn hres).2 hobject)
  · obtain ⟨mem, hmem, -⟩ :=
      (AssignmentGraph.check_node hcheck hn).2 hobject (Nat.le_of_not_lt hres)
    exact .inr ⟨mem, copyOf n ctx, hi, hmem⟩

end stages

/-- The stages in which a graph is built: the copies, the fields among them, and the edges. -/
structure Stages (policy : ContextPolicy C) (p : AssignmentGraph) (fieldSensitive : Bool)
    (g₀ g₁ g : ContextGraph C) : Prop where
  added : p.nodes.toList.foldlM (addCopies policy) (start p fieldSensitive) = .ok g₀
  attached : (List.range g₀.nodes.size).foldlM (registerField p) g₀ = .ok g₁
  linked : (EdgeKind.all.flatMap p.edgesOfKind).foldlM (copyEdge policy p) g₁ = .ok g
  copiesOf : CopiesOf p fieldSensitive p.nodes.toList g₀
  registered : Registered g₀ (List.range g₀.nodes.size) g₁
  joined : Joined p g₁ g

theorem exists_stages {policy : ContextPolicy C} {fieldSensitive : Bool} {g : ContextGraph C}
    (hok : build policy p fieldSensitive = .ok g) :
    ∃ g₀ g₁, Stages policy p fieldSensitive g₀ g₁ g := by
  obtain ⟨g₀, hadded, hok⟩ := bind_eq_ok hok
  obtain ⟨g₁, hattached, hlinked⟩ := bind_eq_ok hok
  have hg₀ := copiesOf_of_addCopies hadded
  have hg₁ := registered_of_registerField hg₀ hattached
  exact ⟨g₀, g₁, hadded, hattached, hlinked, hg₀, hg₁, joined_of_copyEdge hg₀ hg₁ hlinked⟩

/-- Every graph that is built for a properly made program without defects is well-built, and its
edges are copies of the program's. -/
theorem build_wellBuilt {policy : ContextPolicy C} {fieldSensitive : Bool} {g : ContextGraph C}
    (hp : p.Built) (hcheck : p.check = .ok ()) (hok : build policy p fieldSensitive = .ok g) :
    g.WellBuilt ∧ ∀ e ∈ g.edges, ∃ pe ∈ p.edges, e.kind = pe.kind ∧ e.offset = pe.offset := by
  have hlayout := hp.layout
  obtain ⟨g₀, g₁, -, -, -, hg₀, hg₁, hg⟩ := exists_stages hok
  have hall : g.nodes = g₀.nodes := hg.nodes.trans hg₁.nodes
  have hwf := hg.wellFormed (wellFormed_of_registered hg₀ hlayout hg₁)
  refine ⟨{ hwf with input := ?_, edges_lt := ?_, addr_target := ?_, threads := hg.threads }, ?_⟩
  · intro n node hnode
    rw [hall] at hnode
    exact hg₀.input_ne_none hnode
  · intro e he
    obtain ⟨-, -, -, -, ⟨src, hsrc, -⟩, dst, hdst, -⟩ := hg.edges e he
    rw [hg.nodes]
    exact ⟨(Array.getElem?_eq_some_iff.mp hsrc).1, (Array.getElem?_eq_some_iff.mp hdst).1⟩
  · intro e he hkind
    obtain ⟨pe, hpe, hk, -, ⟨src, hsrc, hinput⟩, -⟩ := hg.edges e he
    obtain ⟨-, -, haddr⟩ := AssignmentGraph.check_edges hcheck hpe
    obtain ⟨n, hn, hobject⟩ := haddr (hk ▸ hkind)
    have hid := hlayout.id_eq pe.src n hn
    rw [hg₁.nodes] at hsrc
    rw [IsTarget, hall]
    simp only [PartOf, hall]
    exact hg₀.isTarget hlayout hcheck hsrc (hid ▸ hinput) (hid ▸ hn) hobject
  · intro e he
    obtain ⟨pe, hpe, hk, ho, -⟩ := hg.edges e he
    exact ⟨pe, hpe, hk, ho⟩

end ContextGraph

end PointerAnalysis
