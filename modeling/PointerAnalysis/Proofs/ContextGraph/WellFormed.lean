import Mathlib.Tactic.Common
import PointerAnalysis.ContextGraph.Fields

/-!
Well-formed context graphs. Every node that belongs to a memory object has a home, the node of the
whole object in the same context; a field node is listed at its home, and a field is registered
under its object, offset and context. Growing a graph by field nodes, and giving up telling the
fields of an object apart, keep this and extend the graph.
-/

namespace PointerAnalysis

theorem entryAt_eq_ok {α : Type} {xs : Array α} {i : Nat} {x : α} (h : xs[i]? = some x) :
    entryAt xs i = .ok x := by
  simp [entryAt, h]

namespace ContextGraph

variable {C : Type} [Context C]

/-- A node belongs to a memory object. -/
def PartOf (g : ContextGraph C) (n : NodeId) (mem : MemObjId) : Prop :=
  ∃ node, g.nodes[n]? = some node ∧ node.memObj = some mem

/-- A node is a field of a memory object. -/
def IsField (g : ContextGraph C) (n : NodeId) : Prop :=
  ∃ node, g.nodes[n]? = some node ∧ node.kind = .fieldObject ∧ node.memObj ≠ none

/-- The fields of an object are not told apart. -/
def IsWhole (g : ContextGraph C) (mem : MemObjId) : Prop :=
  ∃ obj, g.memObjs[mem]? = some obj ∧ obj.fieldInsensitive = true

/-- A node belongs to an object whose fields are not told apart. -/
def WholeAt (g : ContextGraph C) (n : NodeId) : Prop := ∃ mem, g.PartOf n mem ∧ g.IsWhole mem

/-- A node may be pointed to: it is a special object or belongs to a memory object. -/
def IsTarget (g : ContextGraph C) (n : NodeId) : Prop :=
  n < g.nodes.size ∧ (isSpecial n ∨ ∃ mem, g.PartOf n mem)

/-- The node of the whole object to which a node belongs. -/
def home (g : ContextGraph C) (n : NodeId) : NodeId :=
  match g.baseOf n with
  | .ok b => b
  | .error _ => n

/-- The parts of a context graph fit together. -/
structure WellFormed (g : ContextGraph C) : Prop where
  special : ∀ n mem, isSpecial n → ¬ g.PartOf n mem
  mem_lt : ∀ n mem, g.PartOf n mem → mem < g.memObjs.size
  id_eq : ∀ (mem : MemObjId) (obj : MemObject), g.memObjs[mem]? = some obj → obj.id = mem
  base : ∀ (n : NodeId) (node : ContextNode C) mem, g.nodes[n]? = some node →
  node.memObj = some mem →
    ∃ b, ∃ base : ContextNode C, g.baseIn? mem node.ctx = .ok (some b) ∧ g.nodes[b]? = some base ∧
      base.memObj = some mem ∧ base.ctx = node.ctx ∧ base.kind ≠ .fieldObject ∧
      (node.kind ≠ .fieldObject → b = n)
  mem_fieldsAt : ∀ b f, f ∈ g.fieldsAt b ↔ ∃ (node : ContextNode C) (mem : MemObjId),
    g.nodes[f]? = some node ∧ node.kind = .fieldObject ∧ node.memObj = some mem ∧
    g.baseIn? mem node.ctx = .ok (some b)
  copies_base : ∀ (mem : MemObjId) (obj : MemObject) b, g.memObjs[mem]? = some obj →
    b ∈ g.copiesOf obj.baseNode → ∃ node : ContextNode C, g.nodes[b]? = some node ∧
    node.memObj = some mem ∧ node.kind ≠ .fieldObject
  fieldNodes : ∀ (key : FieldKey C) f, g.fieldNodes[key]? = some f → ∃ node : ContextNode C,
    g.nodes[f]? = some node ∧ node.kind = .fieldObject ∧ node.memObj = some key.memObj ∧
    node.ctx = key.ctx ∧ (node.input = none → node.offset = key.offset)
  made : ∀ (n : NodeId) (node : ContextNode C), g.nodes[n]? = some node → node.input = none →
    ∃ (mem : MemObjId) (obj : MemObject), node.kind = .fieldObject ∧ node.memObj = some mem ∧
    g.memObjs[mem]? = some obj ∧ node.offset.units < obj.modulus ∧
    g.fieldNodes[FieldKey.mk mem node.offset node.ctx]? = some n
  reduced : ∀ (key : FieldKey C) (f : NodeId) (node : ContextNode C) (obj : MemObject),
    g.fieldNodes[key]? = some f → g.nodes[f]? = some node → g.memObjs[key.memObj]? = some obj →
    node.offset.reduce obj.modulus = key.offset

/-! ## Homes -/

theorem PartOf.lt {g : ContextGraph C} {n : NodeId} {mem : MemObjId} (h : g.PartOf n mem) :
    n < g.nodes.size := by
  obtain ⟨node, hnode, -⟩ := h
  exact (Array.getElem?_eq_some_iff.mp hnode).1

theorem PartOf.unique {g : ContextGraph C} {n : NodeId} {mem mem' : MemObjId} (h : g.PartOf n mem)
    (h' : g.PartOf n mem') : mem = mem' := by
  obtain ⟨node, hnode, hmem⟩ := h
  obtain ⟨node', hnode', hmem'⟩ := h'
  cases hnode.symm.trans hnode'
  exact Option.some.inj (hmem.symm.trans hmem')

theorem IsField.partOf {g : ContextGraph C} {n : NodeId} (h : g.IsField n) :
    ∃ mem, g.PartOf n mem := by
  obtain ⟨node, hnode, -, hne⟩ := h
  obtain ⟨mem, hmem⟩ := Option.ne_none_iff_exists'.mp hne
  exact ⟨mem, node, hnode, hmem⟩

theorem not_partOf_of_memObj {g : ContextGraph C} {n : NodeId} {node : ContextNode C}
    (hnode : g.nodes[n]? = some node) (hmem : node.memObj = none) (mem : MemObjId) :
    ¬ g.PartOf n mem := by
  rintro ⟨node', hnode', hmem'⟩
  cases hnode.symm.trans hnode'
  simp [hmem] at hmem'

namespace WellFormed

variable {g : ContextGraph C} {n : NodeId} {mem : MemObjId}

/-- Everything about the home of a node that belongs to an object. -/
theorem home_spec (hg : g.WellFormed) {node : ContextNode C} (hnode : g.nodes[n]? = some node)
    (hmem : node.memObj = some mem) :
    g.baseOf n = .ok (g.home n) ∧ g.baseIn? mem node.ctx = .ok (some (g.home n)) ∧
      (node.kind ≠ .fieldObject → g.home n = n) ∧
      ∃ base, g.nodes[g.home n]? = some base ∧ base.memObj = some mem ∧ base.ctx = node.ctx ∧
        base.kind ≠ .fieldObject := by
  obtain ⟨b, base, hbase, hb, hbmem, hbctx, hbkind, hself⟩ := hg.base n node mem hnode hmem
  have hok : g.baseOf n = .ok b := by
    by_cases hkind : node.kind = .fieldObject
    · simp [baseOf, entryAt_eq_ok hnode, hkind, hmem, hbase, bind, Except.bind, pure, Except.pure]
    · rw [hself hkind]
      simp only [baseOf, entryAt_eq_ok hnode, bind, Except.bind, pure, Except.pure]
      split
      · exact absurd (by assumption) hkind
      · rfl
  have hhome : g.home n = b := by simp [home, hok]
  rw [hhome]
  exact ⟨hok, hbase, fun hkind => hself hkind, base, hb, hbmem, hbctx, hbkind⟩

theorem baseOf_eq (hg : g.WellFormed) (hn : n < g.nodes.size) : g.baseOf n = .ok (g.home n) := by
  have hnode : g.nodes[n]? = some g.nodes[n] := Array.getElem?_eq_getElem hn
  cases hmem : g.nodes[n].memObj with
  | some mem => exact (hg.home_spec hnode hmem).1
  | none =>
      have hok : g.baseOf n = .ok n := by
        simp only [baseOf, entryAt_eq_ok hnode, bind, Except.bind, pure, Except.pure]
        split
        · rename_i hsome
          simp [hmem] at hsome
        · rfl
      simp [home, hok]

theorem home_of_not_partOf (h : ∀ mem, ¬ g.PartOf n mem) : g.home n = n := by
  cases hnode : g.nodes[n]? with
  | none => simp [home, baseOf, entryAt, hnode, bind, Except.bind]
  | some node =>
      have hok : g.baseOf n = .ok n := by
        simp only [baseOf, entryAt_eq_ok hnode, bind, Except.bind, pure, Except.pure]
        split
        · rename_i mem _ hsome
          exact absurd ⟨_, hnode, hsome⟩ (h mem)
        · rfl
      simp [home, hok]

theorem partOf_home (hg : g.WellFormed) (h : g.PartOf n mem) : g.PartOf (g.home n) mem := by
  obtain ⟨node, hnode, hmem⟩ := h
  obtain ⟨-, -, -, base, hb, hbmem, -⟩ := hg.home_spec hnode hmem
  exact ⟨base, hb, hbmem⟩

theorem partOf_home_iff (hg : g.WellFormed) : g.PartOf (g.home n) mem ↔ g.PartOf n mem := by
  by_cases h : ∃ mem, g.PartOf n mem
  · obtain ⟨mem', h⟩ := h
    exact ⟨fun hmem => (hg.partOf_home h).unique hmem ▸ h, hg.partOf_home⟩
  · rw [home_of_not_partOf fun mem hm => h ⟨mem, hm⟩]

theorem not_isField_home (hg : g.WellFormed) (h : g.PartOf n mem) : ¬ g.IsField (g.home n) := by
  obtain ⟨node, hnode, hmem⟩ := h
  obtain ⟨-, -, -, base, hb, -, -, hbkind⟩ := hg.home_spec hnode hmem
  rintro ⟨node', hnode', hkind, -⟩
  cases hb.symm.trans hnode'
  exact hbkind hkind

theorem home_of_not_isField (hg : g.WellFormed) (hn : n < g.nodes.size) (h : ¬ g.IsField n) :
    g.home n = n := by
  have hnode : g.nodes[n]? = some g.nodes[n] := Array.getElem?_eq_getElem hn
  cases hmem : g.nodes[n].memObj with
  | none => exact home_of_not_partOf (not_partOf_of_memObj hnode hmem)
  | some mem =>
      refine (hg.home_spec hnode hmem).2.2.1 fun hkind => h ⟨_, hnode, hkind, ?_⟩
      simp [hmem]

theorem home_home (hg : g.WellFormed) (n : NodeId) : g.home (g.home n) = g.home n := by
  by_cases h : ∃ mem, g.PartOf n mem
  · obtain ⟨mem, h⟩ := h
    exact hg.home_of_not_isField (hg.partOf_home h).lt (hg.not_isField_home h)
  · rw [home_of_not_partOf fun mem hm => h ⟨mem, hm⟩]
    exact home_of_not_partOf fun mem hm => h ⟨mem, hm⟩

theorem home_lt (hg : g.WellFormed) (hn : n < g.nodes.size) : g.home n < g.nodes.size := by
  by_cases h : ∃ mem, g.PartOf n mem
  · obtain ⟨mem, h⟩ := h
    exact (hg.partOf_home h).lt
  · rw [home_of_not_partOf fun mem hm => h ⟨mem, hm⟩]
    exact hn

theorem isTarget_home (hg : g.WellFormed) (h : g.IsTarget n) : g.IsTarget (g.home n) := by
  obtain ⟨hn, hspecial | ⟨mem, hmem⟩⟩ := h
  · rw [home_of_not_partOf (hg.special n · hspecial)]
    exact ⟨hn, .inl hspecial⟩
  · exact ⟨hg.home_lt hn, .inr ⟨mem, hg.partOf_home hmem⟩⟩

/-- The field nodes listed at a node are those whose home it is. -/
theorem mem_fieldsAt_iff (hg : g.WellFormed) {b f : NodeId} :
    f ∈ g.fieldsAt b ↔ g.IsField f ∧ g.home f = b := by
  rw [hg.mem_fieldsAt]
  constructor
  · rintro ⟨node, mem, hnode, hkind, hmem, hbase⟩
    have hspec := hg.home_spec hnode hmem
    refine ⟨⟨node, hnode, hkind, by simp [hmem]⟩, ?_⟩
    have heq := hspec.2.1.symm.trans hbase
    simpa using heq
  · rintro ⟨⟨node, hnode, hkind, hne⟩, rfl⟩
    obtain ⟨mem, hmem⟩ := Option.ne_none_iff_exists'.mp hne
    exact ⟨node, mem, hnode, hkind, hmem, (hg.home_spec hnode hmem).2.1⟩

theorem partOf_of_mem_fieldsAt (hg : g.WellFormed) {b f : NodeId} (hb : g.PartOf b mem)
    (hf : f ∈ g.fieldsAt b) : g.IsField f ∧ g.home f = b ∧ g.PartOf f mem := by
  obtain ⟨hfield, rfl⟩ := hg.mem_fieldsAt_iff.mp hf
  exact ⟨hfield, rfl, hg.partOf_home_iff.mp hb⟩

theorem baseIn?_spec (hg : g.WellFormed) {ctx : C} {b : NodeId}
    (h : g.baseIn? mem ctx = .ok (some b)) : g.PartOf b mem ∧ ¬ g.IsField b := by
  unfold baseIn? entryAt at h
  cases hobj : g.memObjs[mem]? with
  | none => simp [hobj, bind, Except.bind] at h
  | some obj =>
      simp only [hobj, bind, Except.bind, pure, Except.pure, copyIn?, Except.ok.injEq] at h
      obtain ⟨l₁, l₂, heq, -⟩ := List.lookup_eq_some_iff.mp h
      obtain ⟨node, hnode, hmem, hkind⟩ := hg.copies_base mem obj b hobj (by simp [copiesOf, heq])
      refine ⟨⟨node, hnode, hmem⟩, ?_⟩
      rintro ⟨node', hnode', hkind', -⟩
      cases hnode.symm.trans hnode'
      exact hkind hkind'

/-- The copies of the base node of an object are the homes of its parts. -/
theorem baseCopies_spec (hg : g.WellFormed) (hmem : mem < g.memObjs.size) :
    ∃ bases, g.baseCopies mem = .ok bases ∧ (∀ b ∈ bases, g.PartOf b mem ∧ ¬ g.IsField b) ∧
      ∀ n, g.PartOf n mem → g.home n ∈ bases := by
  have hobj : g.memObjs[mem]? = some g.memObjs[mem] := Array.getElem?_eq_getElem hmem
  refine ⟨g.copiesOf g.memObjs[mem].baseNode, ?_, ?_, ?_⟩
  · simp [baseCopies, entryAt_eq_ok hobj, bind, Except.bind, pure, Except.pure]
  · intro b hb
    obtain ⟨node, hnode, hnmem, hkind⟩ := hg.copies_base mem _ b hobj hb
    refine ⟨⟨node, hnode, hnmem⟩, ?_⟩
    rintro ⟨node', hnode', hkind', -⟩
    cases hnode.symm.trans hnode'
    exact hkind hkind'
  · rintro n ⟨node, hnode, hnmem⟩
    have hbase := (hg.home_spec hnode hnmem).2.1
    simp only [baseIn?, entryAt_eq_ok hobj, bind, Except.bind, pure, Except.pure, copyIn?,
      Except.ok.injEq] at hbase
    obtain ⟨l₁, l₂, heq, -⟩ := List.lookup_eq_some_iff.mp hbase
    rw [copiesOf, heq]
    simp

end WellFormed

/-! ## Extensions -/

/-- A graph grown by field nodes, in which more objects may have given up telling their fields
apart. -/
structure Extends (g g' : ContextGraph C) : Prop where
  nodes : ∀ (n : NodeId) (node : ContextNode C), g.nodes[n]? = some node → g'.nodes[n]? = some node
  size_le : g.nodes.size ≤ g'.nodes.size
  copies : g'.copies = g.copies
  mem_size : g'.memObjs.size = g.memObjs.size
  memObjs : ∀ (mem : MemObjId) (obj : MemObject), g.memObjs[mem]? = some obj → ∃ whole,
    g'.memObjs[mem]? = some { obj with fieldInsensitive := whole } ∧
    (obj.fieldInsensitive = true → whole = true)
  fieldNodes : ∀ (key : FieldKey C) f, g.fieldNodes[key]? = some f → g'.fieldNodes[key]? = some f
  newField : ∀ (key : FieldKey C) f, g'.fieldNodes[key]? = some f →
    g.fieldNodes[key]? = some f ∨ g.nodes.size ≤ f
  made : ∀ (n : NodeId) (node : ContextNode C), g'.nodes[n]? = some node →
    n < g.nodes.size ∨ node.input = none

namespace Extends

variable {g g' g'' : ContextGraph C} {n : NodeId} {mem : MemObjId}

theorem refl (g : ContextGraph C) : Extends g g where
  nodes _ _ h := h
  size_le := Nat.le_refl _
  copies := rfl
  mem_size := rfl
  memObjs _ obj h := ⟨obj.fieldInsensitive, h, id⟩
  fieldNodes _ _ h := h
  newField _ _ h := .inl h
  made _ _ h := .inl (Array.getElem?_eq_some_iff.mp h).1

theorem trans (h : Extends g g') (h' : Extends g' g'') : Extends g g'' where
  nodes n node hn := h'.nodes n node (h.nodes n node hn)
  size_le := Nat.le_trans h.size_le h'.size_le
  copies := h'.copies.trans h.copies
  mem_size := h'.mem_size.trans h.mem_size
  memObjs mem obj ho := by
    obtain ⟨whole, ho', hw⟩ := h.memObjs mem obj ho
    obtain ⟨whole', ho'', hw'⟩ := h'.memObjs mem _ ho'
    exact ⟨whole', ho'', fun hf => hw' (hw hf)⟩
  fieldNodes key f hf := h'.fieldNodes key f (h.fieldNodes key f hf)
  newField key f hf := by
    rcases h'.newField key f hf with hf | hf
    · exact h.newField key f hf
    · exact .inr (Nat.le_trans h.size_le hf)
  made n node hn := by
    rcases h'.made n node hn with hlt | hnone
    · rw [h'.nodes n _ (Array.getElem?_eq_getElem hlt)] at hn
      exact h.made n node (hn ▸ Array.getElem?_eq_getElem hlt)
    · exact .inr hnone

/-- Whether its fields are told apart is all that changes about an object. -/
theorem memObj_eq (h : Extends g g') {obj' : MemObject} (hobj : g'.memObjs[mem]? = some obj') :
    ∃ obj whole, g.memObjs[mem]? = some obj ∧ obj' = { obj with fieldInsensitive := whole } := by
  have hlt := (Array.getElem?_eq_some_iff.mp hobj).1
  rw [h.mem_size] at hlt
  obtain ⟨obj, hget⟩ : ∃ obj, g.memObjs[mem]? = some obj := ⟨_, Array.getElem?_eq_getElem hlt⟩
  obtain ⟨whole, hwhole, -⟩ := h.memObjs mem obj hget
  cases hobj.symm.trans hwhole
  exact ⟨obj, whole, hget, rfl⟩

theorem node_eq (h : Extends g g') (hn : n < g.nodes.size) : g'.nodes[n]? = g.nodes[n]? := by
  rw [Array.getElem?_eq_getElem hn]
  exact h.nodes n _ (Array.getElem?_eq_getElem hn)

theorem partOf (h : Extends g g') (hp : g.PartOf n mem) : g'.PartOf n mem := by
  obtain ⟨node, hnode, hmem⟩ := hp
  exact ⟨node, h.nodes n node hnode, hmem⟩

theorem partOf_iff (h : Extends g g') (hn : n < g.nodes.size) :
    g'.PartOf n mem ↔ g.PartOf n mem := by
  simp only [PartOf, h.node_eq hn]

theorem isWhole (h : Extends g g') (hw : g.IsWhole mem) : g'.IsWhole mem := by
  obtain ⟨obj, hobj, hfi⟩ := hw
  obtain ⟨whole, hobj', hwhole⟩ := h.memObjs mem obj hobj
  exact ⟨_, hobj', hwhole hfi⟩

theorem wholeAt (h : Extends g g') (hw : g.WholeAt n) : g'.WholeAt n := by
  obtain ⟨mem, hp, hw⟩ := hw
  exact ⟨mem, h.partOf hp, h.isWhole hw⟩

theorem isTarget (h : Extends g g') (ht : g.IsTarget n) : g'.IsTarget n := by
  obtain ⟨hn, hspecial | ⟨mem, hmem⟩⟩ := ht
  · exact ⟨Nat.lt_of_lt_of_le hn h.size_le, .inl hspecial⟩
  · exact ⟨Nat.lt_of_lt_of_le hn h.size_le, .inr ⟨mem, h.partOf hmem⟩⟩

theorem baseIn?_eq (h : Extends g g') (hmem : mem < g.memObjs.size) (ctx : C) :
    g'.baseIn? mem ctx = g.baseIn? mem ctx := by
  have hobj := Array.getElem?_eq_getElem hmem
  obtain ⟨whole, hobj', -⟩ := h.memObjs mem _ hobj
  simp only [baseIn?, entryAt_eq_ok hobj, entryAt_eq_ok hobj', bind, Except.bind, copyIn?, h.copies]

theorem home_eq (h : Extends g g') (hg : g.WellFormed) (hg' : g'.WellFormed)
    (hn : n < g.nodes.size) : g'.home n = g.home n := by
  by_cases hp : ∃ mem, g.PartOf n mem
  · obtain ⟨mem, hp⟩ := hp
    have hmem := hg.mem_lt n mem hp
    obtain ⟨node, hnode, hnmem⟩ := hp
    have hspec := (hg.home_spec hnode hnmem).2.1
    have hspec' := (hg'.home_spec (h.nodes n node hnode) hnmem).2.1
    rw [h.baseIn?_eq hmem, hspec] at hspec'
    simpa using hspec'.symm
  · have hp : ∀ mem, ¬ g.PartOf n mem := fun mem hm => hp ⟨mem, hm⟩
    rw [WellFormed.home_of_not_partOf hp]
    exact WellFormed.home_of_not_partOf fun mem hm => hp mem ((h.partOf_iff hn).mp hm)

end Extends

end ContextGraph

end PointerAnalysis
