import PointerAnalysis.Proofs.ContextGraph.Build
import PointerAnalysis.Proofs.Solver.State

/-!
Places: names for nodes that do not depend on the order in which field nodes are made. A copy of an
input node is known by its number, a field that was made on demand by its key. What a node belongs
to, its home and its fields can be told from its place and the graph as it was built.
-/

namespace PointerAnalysis

/-- A node of any extension of a context graph. -/
abbrev Place (C : Type) := NodeId ⊕ FieldKey C

namespace ContextGraph

variable {C : Type} [Context C] {cg g g' : ContextGraph C} {n : NodeId} {node : ContextNode C}
  {mem : MemObjId} {key : FieldKey C}

/-- The place of a node. -/
def place (g : ContextGraph C) (n : NodeId) : Place C :=
  match g.nodes[n]? with
  | some ⟨none, _, ctx, some mem, offset⟩ => .inr ⟨mem, offset, ctx⟩
  | _ => .inl n

theorem place_of_input (hnode : g.nodes[n]? = some node) (h : node.input ≠ none) :
    g.place n = .inl n := by
  obtain ⟨input, kind, ctx, memObj, offset⟩ := node
  cases input with
  | none => exact absurd rfl h
  | some i => simp [place, hnode]

theorem place_of_made (hnode : g.nodes[n]? = some node) (h : node.input = none)
    (hmem : node.memObj = some mem) : g.place n = .inr ⟨mem, node.offset, node.ctx⟩ := by
  obtain ⟨input, kind, ctx, memObj, offset⟩ := node
  cases h
  cases hmem
  simp [place, hnode]

theorem Extends.place_eq (h : Extends g g') (hn : n < g.nodes.size) : g'.place n = g.place n := by
  rw [place, place, h.node_eq hn]

theorem place_makeField (g : ContextGraph C) (key : FieldKey C) (base n : NodeId) :
    (g.makeField key base).2.place n = if n = g.nodes.size then .inr key else g.place n := by
  by_cases hn : n = g.nodes.size
  · rw [if_pos hn]
    have hnode := nodes_makeField g key base n
    rw [if_pos hn] at hnode
    exact place_of_made hnode rfl rfl
  · rw [if_neg hn, place, place, nodes_makeField, if_neg hn]

/-- As it is built, a graph has no other nodes than copies. -/
theorem WellBuilt.place_eq (hcg : cg.WellBuilt) (n : NodeId) : cg.place n = .inl n := by
  cases hnode : cg.nodes[n]? with
  | none => simp [place, hnode]
  | some node => exact place_of_input hnode (hcg.input n node hnode)

end ContextGraph

namespace Place

variable {C : Type} [Context C]

/-- The place belongs to a memory object. -/
def PartOf (cg : ContextGraph C) : Place C → MemObjId → Prop
  | .inl n, mem => cg.PartOf n mem
  | .inr key, mem => key.memObj = mem

/-- The place of the whole object. -/
def base (cg : ContextGraph C) : Place C → Place C
  | .inl n => .inl (cg.home n)
  | .inr key =>
    match cg.baseIn? key.memObj key.ctx with
    | .ok (some b) => .inl b
    | _ => .inr key

/-- The key of the field at an offset from the place. -/
def KeyOf (cg : ContextGraph C) : Place C → Offset → FieldKey C → Prop
  | .inl n, offset, key => cg.KeyOf n offset key
  | .inr made, offset, key => ∃ obj, cg.memObjs[made.memObj]? = some obj ∧
      key = ⟨made.memObj, (made.offset + offset).reduce obj.modulus, made.ctx⟩

/-- The place of a field: a node that was there, or one that is made. -/
def ofKey (cg : ContextGraph C) (key : FieldKey C) : Place C :=
  match cg.fieldNodes[key]? with
  | some f => .inl f
  | none => .inr key

/-- Nothing is read from or written to the place. -/
def Inert (cg : ContextGraph C) (x : Place C) : Prop :=
  x = .inl constantData ∨ ∃ mem obj, x.PartOf cg mem ∧ cg.memObjs[mem]? = some obj ∧
    (obj.isConstant = true ∨ obj.hasPointers = false)

variable {cg : ContextGraph C} {x : Place C} {b : NodeId} {mem : MemObjId} {offset : Offset}
  {key : FieldKey C}

theorem PartOf.unique {mem' : MemObjId} (h : x.PartOf cg mem) (h' : x.PartOf cg mem') :
    mem = mem' := by
  cases x with
  | inl n => exact ContextGraph.PartOf.unique h h'
  | inr key => exact h.symm.trans h'

theorem KeyOf.partOf (h : x.KeyOf cg offset key) : x.PartOf cg key.memObj := by
  cases x with
  | inl n => exact ContextGraph.KeyOf.partOf h
  | inr made =>
      obtain ⟨obj, -, rfl⟩ := h
      rfl

theorem eq_of_base_eq_inr (h : x.base cg = .inr key) : x = .inr key := by
  cases x with
  | inl n => cases h
  | inr made =>
      simp only [base] at h
      split at h
      · cases h
      · exact h

/-- The whole object is its own base. -/
theorem base_spec (hcg : cg.WellFormed) (hpart : x.PartOf cg mem) (hb : x.base cg = .inl b) :
    cg.PartOf b mem ∧ cg.home b = b := by
  suffices h : cg.PartOf b mem ∧ ¬ cg.IsField b from ⟨h.1, hcg.home_of_not_isField h.1.lt h.2⟩
  cases x with
  | inl n =>
      cases hb
      exact ⟨hcg.partOf_home hpart, hcg.not_isField_home hpart⟩
  | inr key =>
      cases hpart
      simp only [base] at hb
      split at hb
      · rename_i hbase
        cases hb
        exact hcg.baseIn?_spec hbase
      · cases hb

theorem base_base (hcg : cg.WellFormed) (hpart : x.PartOf cg mem) :
    (x.base cg).base cg = x.base cg := by
  cases hb : x.base cg with
  | inl b => rw [base, (base_spec hcg hpart hb).2]
  | inr key => rwa [eq_of_base_eq_inr hb] at hb

/-- If nothing is read from or written to a whole object, neither it is to its parts. -/
theorem inert_of_base (hcg : cg.WellFormed) (hb : x.base cg = .inl b) (h : cg.Inert b) :
    x.Inert cg := by
  by_cases hpart : ∃ mem, x.PartOf cg mem
  · obtain ⟨mem, hpart⟩ := hpart
    have hmem := (base_spec hcg hpart hb).1
    rcases h with rfl | ⟨mem', obj, hmem', hobj, hattr⟩
    · exact absurd hmem (hcg.special _ mem (by decide))
    · exact .inr ⟨mem', obj, hmem.unique hmem' ▸ hpart, hobj, hattr⟩
  · cases x with
    | inl n =>
        have hself : cg.home n = n := ContextGraph.WellFormed.home_of_not_partOf fun mem hmem =>
          hpart ⟨mem, hmem⟩
        cases hb
        rw [hself] at h
        exact h.imp_left fun heq => by rw [heq]
    | inr key => exact absurd ⟨_, rfl⟩ hpart

theorem partOf_ofKey (hcg : cg.WellFormed) (key : FieldKey C) :
    (ofKey cg key).PartOf cg key.memObj := by
  rw [ofKey]
  cases hf : cg.fieldNodes[key]? with
  | some f =>
      obtain ⟨node, hnode, -, hmem, -⟩ := hcg.fieldNodes key f hf
      exact ⟨node, hnode, hmem⟩
  | none => rfl

/-- A field belongs to the same whole object as the place it is projected from. -/
theorem base_ofKey (hcg : cg.WellFormed) (hkey : x.KeyOf cg offset key) (hb : x.base cg = .inl b) :
    (ofKey cg key).base cg = .inl b := by
  have hbase : cg.baseIn? key.memObj key.ctx = .ok (some b) := by
    cases x with
    | inl n =>
        obtain ⟨node, obj, hnode, hmem, -, hctx, -⟩ := hkey
        cases hb
        rw [hctx]
        exact (hcg.home_spec hnode hmem).2.1
    | inr made =>
        obtain ⟨obj, -, rfl⟩ := hkey
        simp only [base] at hb
        split at hb
        · rename_i hbase
          cases hb
          exact hbase
        · cases hb
  rw [ofKey]
  cases hf : cg.fieldNodes[key]? with
  | some f =>
      obtain ⟨node, hnode, -, hmem, hctx, -⟩ := hcg.fieldNodes key f hf
      have hhome := (hcg.home_spec hnode hmem).2.1
      rw [hctx, hbase] at hhome
      have heq : b = cg.home f := by simpa using hhome
      rw [heq]
      rfl
  | none => simp only [base, hbase]

end Place

namespace ContextGraph

variable {C : Type} [Context C] {cg g : ContextGraph C} {n m f : NodeId} {mem : MemObjId}
  {offset : Offset} {key : FieldKey C}

/-- An extension of a graph as it was built. -/
structure Grew (cg g : ContextGraph C) : Prop where
  built : cg.WellBuilt
  wellFormed : g.WellFormed
  ext : cg.Extends g

namespace Grew

theorem place_of_lt (h : Grew cg g) (hn : n < cg.nodes.size) : g.place n = .inl n := by
  rw [h.ext.place_eq hn, h.built.place_eq]

/-- A node is a copy of an input node or was made under a key. -/
theorem node_cases (h : Grew cg g) (hn : n < g.nodes.size) :
    n < cg.nodes.size ∧ g.place n = .inl n ∨
      ∃ node mem, g.nodes[n]? = some node ∧ node.kind = .fieldObject ∧ node.memObj = some mem ∧
        g.fieldNodes[FieldKey.mk mem node.offset node.ctx]? = some n ∧
        g.place n = .inr ⟨mem, node.offset, node.ctx⟩ := by
  by_cases hlt : n < cg.nodes.size
  · exact .inl ⟨hlt, h.place_of_lt hlt⟩
  · have hnode := Array.getElem?_eq_getElem hn
    have hinput := (h.ext.made n _ hnode).resolve_left hlt
    obtain ⟨mem, -, hkind, hmem, -, -, hkey⟩ := h.wellFormed.made n _ hnode hinput
    exact .inr ⟨_, mem, hnode, hkind, hmem, hkey, place_of_made hnode hinput hmem⟩

theorem eq_of_place (h : Grew cg g) (hn : n < g.nodes.size) (hm : g.place n = .inl m) : n = m := by
  rcases h.node_cases hn with ⟨-, hplace⟩ | ⟨node, mem, -, -, -, -, hplace⟩
  · exact Sum.inl.inj (hplace.symm.trans hm)
  · cases hplace.symm.trans hm

/-- Different nodes have different places. -/
theorem place_inj (h : Grew cg g) (hn : n < g.nodes.size) (hm : m < g.nodes.size)
    (heq : g.place n = g.place m) : n = m := by
  rcases h.node_cases hn with ⟨-, hplace⟩ | ⟨node, mem, -, -, -, hkey, hplace⟩ <;>
    rcases h.node_cases hm with ⟨-, hplace'⟩ | ⟨node', mem', -, -, -, hkey', hplace'⟩ <;>
    rw [hplace, hplace'] at heq
  · exact Sum.inl.inj heq
  · cases heq
  · cases heq
  · rw [← Sum.inr.inj heq] at hkey'
    exact Option.some.inj (hkey.symm.trans hkey')

theorem partOf_iff (h : Grew cg g) (hn : n < g.nodes.size) :
    (g.place n).PartOf cg mem ↔ g.PartOf n mem := by
  rcases h.node_cases hn with ⟨hlt, hplace⟩ | ⟨node, mem', hnode, -, hmem, -, hplace⟩
  · rw [hplace, h.ext.partOf_iff hlt]
    rfl
  · rw [hplace]
    constructor
    · rintro rfl
      exact ⟨node, hnode, hmem⟩
    · exact PartOf.unique ⟨node, hnode, hmem⟩

/-- The node of a whole object is a copy of an input node. -/
theorem home_lt (h : Grew cg g) (hpart : g.PartOf n mem) : g.home n < cg.nodes.size := by
  obtain ⟨node, hnode, hmem⟩ := hpart
  obtain ⟨-, -, -, base, hb, -, -, hkind⟩ := h.wellFormed.home_spec hnode hmem
  rcases h.ext.made _ base hb with hlt | hinput
  · exact hlt
  · obtain ⟨-, -, hfield, -⟩ := h.wellFormed.made _ base hb hinput
    exact absurd hfield hkind

theorem place_home (h : Grew cg g) (hn : n < g.nodes.size) :
    g.place (g.home n) = (g.place n).base cg := by
  rcases h.node_cases hn with ⟨hlt, hplace⟩ | ⟨node, mem, hnode, -, hmem, -, hplace⟩
  · have hhome := h.ext.home_eq h.built.toWellFormed h.wellFormed hlt
    rw [hplace, hhome, h.place_of_lt (h.built.toWellFormed.home_lt hlt)]
    rfl
  · have hpart : g.PartOf n mem := ⟨node, hnode, hmem⟩
    have hlt : mem < cg.memObjs.size := by
      rw [← h.ext.mem_size]
      exact h.wellFormed.mem_lt n mem hpart
    have hbase := (h.wellFormed.home_spec hnode hmem).2.1
    rw [h.ext.baseIn?_eq hlt] at hbase
    simp only [hplace, Place.base, hbase, h.place_of_lt (h.home_lt hpart)]

theorem place_field (h : Grew cg g) (hf : g.fieldNodes[key]? = some f) :
    g.place f = Place.ofKey cg key := by
  obtain ⟨node, hnode, -, hmem, hctx, hoffset⟩ := h.wellFormed.fieldNodes key f hf
  rw [Place.ofKey]
  cases hold : cg.fieldNodes[key]? with
  | some f' =>
      cases hf.symm.trans (h.ext.fieldNodes key f' hold)
      obtain ⟨node', hnode', -⟩ := h.built.fieldNodes key f hold
      exact h.place_of_lt (Array.getElem?_eq_some_iff.mp hnode').1
  | none =>
      have hge := (h.ext.newField key f hf).resolve_left (by simp [hold])
      have hinput := (h.ext.made f node hnode).resolve_left (Nat.not_lt_of_le hge)
      rw [place_of_made hnode hinput hmem, hoffset hinput, hctx]

theorem keyOf_iff (h : Grew cg g) (hn : n < g.nodes.size) :
    (g.place n).KeyOf cg offset key ↔ g.KeyOf n offset key := by
  rcases h.node_cases hn with ⟨hlt, hplace⟩ | ⟨node, mem, hnode, hkind, hmem, -, hplace⟩
  · rw [hplace]
    constructor
    · exact KeyOf.extends h.ext
    · rintro ⟨node, obj, hnode, hmem, hobj, hctx, hoffset⟩
      rw [h.ext.node_eq hlt] at hnode
      obtain ⟨obj, whole, hobj', rfl⟩ := h.ext.memObj_eq hobj
      exact ⟨node, obj, hnode, hmem, hobj', hctx, hoffset⟩
  · rw [hplace]
    constructor
    · rintro ⟨obj, hobj, rfl⟩
      obtain ⟨whole, hobj', -⟩ := h.ext.memObjs mem obj hobj
      exact ⟨node, _, hnode, hmem, hobj', rfl, by rw [if_pos hkind]; rfl⟩
    · rintro ⟨node', obj, hnode', hmem', hobj, hctx, hoffset⟩
      cases hnode.symm.trans hnode'
      obtain ⟨obj, whole, hobj', rfl⟩ := h.ext.memObj_eq hobj
      obtain ⟨mem', offset', ctx'⟩ := key
      cases Option.some.inj (hmem.symm.trans hmem')
      rw [if_pos hkind] at hoffset
      simp only at hctx hoffset
      exact ⟨obj, hobj', by rw [hctx, hoffset]; rfl⟩

theorem inert_iff (h : Grew cg g) (hn : n < g.nodes.size) : (g.place n).Inert cg ↔ g.Inert n := by
  have hconst : g.place n = .inl constantData ↔ n = constantData := by
    rcases h.node_cases hn with ⟨-, hplace⟩ | ⟨node, mem, hnode, -, hmem, -, hplace⟩
    · simp [hplace]
    · have hne : n ≠ constantData := fun heq => by
        exact h.wellFormed.special n mem (by rw [heq]; decide) ⟨node, hnode, hmem⟩
      simp [hplace, hne]
  simp only [Place.Inert, Inert, hconst, h.partOf_iff hn]
  refine or_congr_right ⟨?_, ?_⟩
  · rintro ⟨mem, obj, hpart, hobj, hattr⟩
    obtain ⟨whole, hobj', -⟩ := h.ext.memObjs mem obj hobj
    exact ⟨mem, _, hpart, hobj', hattr⟩
  · rintro ⟨mem, obj, hpart, hobj, hattr⟩
    obtain ⟨obj, whole, hobj', rfl⟩ := h.ext.memObj_eq hobj
    exact ⟨mem, obj, hpart, hobj', hattr⟩

theorem base_place (h : Grew cg g) (hpart : g.PartOf n mem) :
    (g.place n).base cg = .inl (g.home n) := by
  rw [← h.place_home hpart.lt, h.place_of_lt (h.home_lt hpart)]

end Grew

end ContextGraph

end PointerAnalysis
