import PointerAnalysis.Proofs.ContextGraph.Capacity
import PointerAnalysis.Proofs.ContextGraph.Fields

/-!
Lookups that cannot fail. A node is anchored if its object, should it belong to one, has a base node
in the node's context. In a grounded graph whatever a lookup returns for an anchored node is
anchored again. Less is asked than of a well-formed graph: objects may share their ids and their
base nodes, a pointer may stand for an object, and the special objects may have fields.
-/

namespace PointerAnalysis

namespace ContextGraph

variable {C : Type} [Context C]

/-- The object that a node belongs to, if any, has a base node in the node's context. -/
def Anchored (g : ContextGraph C) (n : NodeId) : Prop :=
  ∃ node, g.nodes[n]? = some node ∧
    ∀ mem, node.memObj = some mem → ∃ base, g.baseIn? mem node.ctx = .ok (some base)

/-- Whatever can be found from an anchored node is anchored. -/
structure Grounded (g : ContextGraph C) : Prop where
  id_lt : ∀ (mem : MemObjId) (obj : MemObject), g.memObjs[mem]? = some obj → obj.id < g.memObjs.size
  base : ∀ (mem : MemObjId) (obj : MemObject) b, g.memObjs[mem]? = some obj →
    b ∈ g.copiesOf obj.baseNode → g.Anchored b
  fieldsAt_lt : ∀ b, ∀ f ∈ g.fieldsAt b, f < g.nodes.size
  fieldNodes : ∀ (key : FieldKey C) f, g.fieldNodes[key]? = some f → g.Anchored f
  keyed : g.Keyed

variable {g g' : ContextGraph C} {n f : NodeId} {mem : MemObjId} {offset : Offset}
  {key : FieldKey C}

/-! ## Anchored nodes -/

theorem Anchored.lt (hn : g.Anchored n) : n < g.nodes.size := by
  obtain ⟨node, hnode, -⟩ := hn
  exact (Array.getElem?_eq_some_iff.mp hnode).1

/-- A base is found only for an object of the table, among the copies of its base node. -/
theorem exists_memObj_of_baseIn? {ctx : C} {base : NodeId}
    (h : g.baseIn? mem ctx = .ok (some base)) :
    ∃ obj, g.memObjs[mem]? = some obj ∧ base ∈ g.copiesOf obj.baseNode := by
  cases hobj : g.memObjs[mem]? with
  | none => simp [baseIn?, entryAt, hobj, bind, Except.bind] at h
  | some obj =>
      simp only [baseIn?, entryAt_eq_ok hobj, bind, Except.bind, pure, Except.pure, Except.ok.injEq,
        copyIn?] at h
      obtain ⟨before, after, heq, -⟩ := List.lookup_eq_some_iff.mp h
      exact ⟨obj, rfl, by simp [copiesOf, heq]⟩

theorem Anchored.mem_lt (hn : g.Anchored n) (hpart : g.PartOf n mem) : mem < g.memObjs.size := by
  obtain ⟨node, hnode, hbase⟩ := hn
  obtain ⟨node', hnode', hmem⟩ := hpart
  cases hnode.symm.trans hnode'
  obtain ⟨base, hbase⟩ := hbase mem hmem
  obtain ⟨obj, hobj, -⟩ := exists_memObj_of_baseIn? hbase
  exact (Array.getElem?_eq_some_iff.mp hobj).1

theorem Extends.anchored (h : Extends g g') (hn : g.Anchored n) : g'.Anchored n := by
  have hlt : ∀ mem, g.PartOf n mem → mem < g.memObjs.size := fun mem => hn.mem_lt
  obtain ⟨node, hnode, hbase⟩ := hn
  refine ⟨node, h.nodes n node hnode, fun mem hmem => ?_⟩
  rw [h.baseIn?_eq (hlt mem ⟨node, hnode, hmem⟩)]
  exact hbase mem hmem

/-! ## Well-formed graphs -/

theorem WellFormed.anchored (hg : g.WellFormed) (hn : n < g.nodes.size) : g.Anchored n := by
  refine ⟨g.nodes[n], Array.getElem?_eq_getElem hn, fun mem hmem => ?_⟩
  obtain ⟨b, -, hbase, -⟩ := hg.base n _ mem (Array.getElem?_eq_getElem hn) hmem
  exact ⟨b, hbase⟩

theorem WellFormed.grounded (hg : g.WellFormed) : g.Grounded where
  id_lt mem obj hobj := by
    rw [hg.id_eq mem obj hobj]
    exact (Array.getElem?_eq_some_iff.mp hobj).1
  base mem obj b hobj hb := by
    obtain ⟨node, hnode, -⟩ := hg.copies_base mem obj b hobj hb
    exact hg.anchored (Array.getElem?_eq_some_iff.mp hnode).1
  fieldsAt_lt b f hf := by
    obtain ⟨node, -, hnode, -⟩ := (hg.mem_fieldsAt b f).mp hf
    exact (Array.getElem?_eq_some_iff.mp hnode).1
  fieldNodes key f hf := by
    obtain ⟨node, hnode, -⟩ := hg.fieldNodes key f hf
    exact hg.anchored (Array.getElem?_eq_some_iff.mp hnode).1
  keyed := hg.keyed

/-! ## Lookups -/

/-- The base of an anchored node is found, and is anchored. -/
theorem Grounded.exists_baseOf (hg : g.Grounded) (hn : g.Anchored n) :
    ∃ base, g.baseOf n = .ok base ∧ g.Anchored base := by
  obtain ⟨node, hnode, hbase⟩ := id hn
  by_cases hfield : ∃ mem, node.kind = .fieldObject ∧ node.memObj = some mem
  · obtain ⟨mem, hkind, hmem⟩ := hfield
    obtain ⟨base, hbase⟩ := hbase mem hmem
    obtain ⟨obj, hobj, hcopy⟩ := exists_memObj_of_baseIn? hbase
    refine ⟨base, ?_, hg.base mem obj base hobj hcopy⟩
    simp [baseOf, entryAt_eq_ok hnode, hkind, hmem, hbase, bind, Except.bind, pure, Except.pure]
  · refine ⟨n, ?_, hn⟩
    simp only [baseOf, entryAt_eq_ok hnode, bind, Except.bind, pure, Except.pure]
    split
    · rename_i mem hkind hmem
      exact absurd ⟨mem, hkind, hmem⟩ hfield
    · rfl

/-- The field at an offset from an anchored node is found or has to be made. -/
theorem Grounded.field_cases (hg : g.Grounded) (hn : g.Anchored n) (offset : Offset) :
    (∃ f, g.field n offset = .ok (f, g) ∧ g.Anchored f) ∨
      ∃ key base, g.KeyOf n offset key ∧ g.fieldNodes[key]? = none ∧
        g.field n offset = .ok (g.makeField key base) := by
  by_cases hspecial : isSpecial n
  · exact .inl ⟨n, by simp [field, hspecial, pure, Except.pure], hn⟩
  by_cases hpart : ∃ mem, g.PartOf n mem
  · obtain ⟨mem, hpart⟩ := hpart
    obtain ⟨key, hkey, rfl⟩ := hpart.exists_keyOf (hn.mem_lt hpart) offset
    obtain ⟨base, hbase, hanchored⟩ := hg.exists_baseOf hn
    rw [field_of_base hspecial hbase hkey]
    split
    · exact .inl ⟨base, rfl, hanchored⟩
    · cases hfound : g.fieldNodes[key]? with
      | some f => exact .inl ⟨f, rfl, hg.fieldNodes key f hfound⟩
      | none => exact .inr ⟨key, base, hkey, hfound, rfl⟩
  · refine .inl ⟨n, field_of_not_partOf hn.lt fun mem hmem => hpart ⟨mem, hmem⟩, hn⟩

/-! ## Changes -/

/-- The object of an anchored node has a node of its own among the copies, in the same context. -/
theorem Grounded.exists_owner (hg : g.Grounded) {node : ContextNode C}
    (hnode : g.nodes[n]? = some node) (hmem : node.memObj = some mem) :
    ∃ (i : NodeId) (owner : ContextNode C), g.nodes[i]? = some owner ∧ owner.input ≠ none ∧
      owner.memObj = some mem ∧ owner.ctx = node.ctx := by
  by_cases hinput : node.input = none
  · obtain ⟨mem', obj, i, owner, hmem', -, -, -, hi, howner⟩ := hg.keyed n node hnode hinput
    cases hmem.symm.trans hmem'
    exact ⟨i, owner, hi, howner⟩
  · exact ⟨n, node, hnode, hinput, hmem, rfl⟩

theorem anchored_makeField (hn : g.Anchored n) (hkey : g.KeyOf n offset key)
    (hnew : g.fieldNodes[key]? = none) (base : NodeId) :
    (g.makeField key base).2.Anchored g.nodes.size := by
  have hlt := hn.mem_lt hkey.partOf
  obtain ⟨node, -, hnode, hmem, -, hctx, -⟩ := hkey
  obtain ⟨node', hnode', hbase⟩ := hn
  cases hnode.symm.trans hnode'
  refine ⟨_, (nodes_makeField g key base _).trans (if_pos rfl), fun mem' hmem' => ?_⟩
  cases Option.some.inj hmem'
  rw [(extends_makeField base hnew).baseIn?_eq hlt, hctx]
  exact hbase _ hmem

theorem keyed_makeField (hg : g.Grounded) (hkey : g.KeyOf n offset key)
    (hnew : g.fieldNodes[key]? = none) (base : NodeId) : (g.makeField key base).2.Keyed := by
  have hext := extends_makeField base hnew
  obtain ⟨node, obj, hnode, hmem, hobj, hctx, hoffset⟩ := hkey
  intro m mnode hm hinput
  rw [nodes_makeField] at hm
  split at hm
  · rename_i hsize
    cases Option.some.inj hm
    obtain ⟨i, owner, hi, hinput, himem, hictx⟩ := hg.exists_owner hnode hmem
    refine ⟨key.memObj, obj, i, owner, rfl, hobj, ?_, ?_, hext.nodes i owner hi, hinput, himem,
      hictx.trans hctx.symm⟩
    · rw [hoffset]
      exact Offset.units_reduce_lt _ obj.modulus_ne_zero
    · exact (fieldNodes_makeField g key key base m).mpr (.inl ⟨rfl, hsize⟩)
  · obtain ⟨mem, obj, i, owner, hmem, hobj, hunits, hfield, hi, howner⟩ :=
      hg.keyed m mnode hm hinput
    exact ⟨mem, obj, i, owner, hmem, hobj, hunits, hext.fieldNodes _ _ hfield,
      hext.nodes i owner hi, howner⟩

/-- A field made for an anchored node keeps the graph grounded. -/
theorem Grounded.makeField (hg : g.Grounded) (hn : g.Anchored n) (hkey : g.KeyOf n offset key)
    (hnew : g.fieldNodes[key]? = none) (base : NodeId) : (g.makeField key base).2.Grounded where
  id_lt := hg.id_lt
  base mem obj b hobj hb := (extends_makeField base hnew).anchored (hg.base mem obj b hobj hb)
  fieldsAt_lt b f hf := by
    have hsize : (g.makeField key base).2.nodes.size = g.nodes.size + 1 := by
      simp [ContextGraph.makeField, attachField]
    rw [hsize, Nat.lt_succ_iff]
    rw [fieldsAt_makeField] at hf
    split at hf
    · rcases List.mem_append.mp hf with hf | hf
      · exact Nat.le_of_lt (hg.fieldsAt_lt base f hf)
      · exact Nat.le_of_eq (List.mem_singleton.mp hf)
    · exact Nat.le_of_lt (hg.fieldsAt_lt b f hf)
  fieldNodes key' f hf := by
    rcases (fieldNodes_makeField g key key' base f).mp hf with ⟨-, rfl⟩ | ⟨-, hf⟩
    · exact anchored_makeField hn hkey hnew base
    · exact (extends_makeField base hnew).anchored (hg.fieldNodes key' f hf)
  keyed := keyed_makeField hg hkey hnew base

/-- Giving up telling fields apart keeps a graph grounded. -/
theorem Grounded.of_extends (hg : g.Grounded) (h : Extends g g') (hnodes : g'.nodes = g.nodes)
    (hfieldNodes : g'.fieldNodes = g.fieldNodes) (hfieldsOf : g'.fieldsOf = g.fieldsOf) :
    g'.Grounded where
  id_lt mem obj' hobj' := by
    obtain ⟨obj, whole, hobj, rfl⟩ := h.memObj_eq hobj'
    rw [h.mem_size]
    exact hg.id_lt mem obj hobj
  base mem obj' b hobj' hb := by
    obtain ⟨obj, whole, hobj, rfl⟩ := h.memObj_eq hobj'
    rw [copiesOf, h.copies] at hb
    exact h.anchored (hg.base mem obj b hobj hb)
  fieldsAt_lt b f hf := by
    rw [fieldsAt, hfieldsOf] at hf
    rw [hnodes]
    exact hg.fieldsAt_lt b f hf
  fieldNodes key f hf := by
    rw [hfieldNodes] at hf
    exact h.anchored (hg.fieldNodes key f hf)
  keyed n node hnode hinput := by
    rw [hnodes] at hnode
    obtain ⟨mem, obj, i, owner, hmem, hobj, hunits, hfield, hi, howner⟩ :=
      hg.keyed n node hnode hinput
    obtain ⟨whole, hobj', -⟩ := h.memObjs mem obj hobj
    exact ⟨mem, _, i, owner, hmem, hobj', hunits, h.fieldNodes _ _ hfield, h.nodes i owner hi,
      howner⟩

end ContextGraph

end PointerAnalysis
