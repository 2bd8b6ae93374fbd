import Mathlib.Algebra.Order.BigOperators.Group.List
import Mathlib.Algebra.Order.Ring.Nat
import Mathlib.Data.Finset.Prod
import PointerAnalysis.Proofs.ContextGraph.Fields

/-!
How large a context graph can become. The nodes made on demand are fields of copies of input
objects, each at an offset below the modulus of its object, and no two at the same. Their number is
bounded, and the bound does not change as the graph is extended.
-/

namespace PointerAnalysis

namespace ContextGraph

variable {C : Type} [Context C] {g g' : ContextGraph C}

/-- The nodes that are copies of input nodes. -/
def inputs (g : ContextGraph C) : Finset NodeId :=
  (Finset.range g.nodes.size).filter fun n => (g.nodes[n]?.bind (·.input)).isSome

/-- One more than the sum of all moduli. -/
def moduli (g : ContextGraph C) : Nat := g.memObjs.foldl (fun n m => n + m.modulus.toNat) 1

/-- A bound on the number of nodes of all extensions of the graph. -/
def capacity (g : ContextGraph C) : Nat := g.inputs.card * g.moduli

theorem moduli_eq (g : ContextGraph C) :
    g.moduli = 1 + (g.memObjs.toList.map fun m => m.modulus.toNat).sum := by
  have h : ∀ (ms : List MemObject) (k : Nat),
      ms.foldl (fun n m => n + m.modulus.toNat) k = k + (ms.map fun m => m.modulus.toNat).sum := by
    intro ms
    induction ms with
    | nil => simp
    | cons m ms ih =>
        intro k
        rw [List.foldl_cons, ih, List.map_cons, List.sum_cons, Nat.add_assoc]
  rw [moduli, ← Array.foldl_toList, h]

theorem modulus_lt_moduli {mem : MemObjId} {obj : MemObject} (h : g.memObjs[mem]? = some obj) :
    obj.modulus.toNat < g.moduli := by
  rw [moduli_eq]
  have hmem : obj.modulus.toNat ∈ g.memObjs.toList.map fun m => m.modulus.toNat :=
    List.mem_map.mpr ⟨obj, Array.mem_toList_iff.mpr (Array.mem_of_getElem? h), rfl⟩
  have := List.le_sum_of_mem hmem
  omega

/-- Every node made on demand is the registered field of an object, at an offset below the modulus
of the object and in the context of a copy of an input node that belongs to it. -/
def Keyed (g : ContextGraph C) : Prop :=
  ∀ (n : NodeId) (node : ContextNode C), g.nodes[n]? = some node → node.input = none →
    ∃ (mem : MemObjId) (obj : MemObject) (i : NodeId) (owner : ContextNode C),
      node.memObj = some mem ∧ g.memObjs[mem]? = some obj ∧ node.offset.units < obj.modulus ∧
      g.fieldNodes[FieldKey.mk mem node.offset node.ctx]? = some n ∧
      g.nodes[i]? = some owner ∧ owner.input ≠ none ∧ owner.memObj = some mem ∧ owner.ctx = node.ctx

/-- The owner of a node made on demand and its offset determine the node. -/
theorem Keyed.size_le_capacity (hg : g.Keyed) : g.nodes.size ≤ g.capacity := by
  let made := (Finset.range g.nodes.size).filter fun n => ¬ (g.nodes[n]?.bind (·.input)).isSome
  have howner : ∀ n ∈ made, ∃ i ∈ g.inputs, ∃ (node owner : ContextNode C) (mem : MemObjId),
      g.nodes[n]? = some node ∧ node.offset.units.toNat < g.moduli - 1 ∧
      g.fieldNodes[FieldKey.mk mem node.offset node.ctx]? = some n ∧
      g.nodes[i]? = some owner ∧ owner.memObj = some mem ∧ owner.ctx = node.ctx := by
    intro n hn
    obtain ⟨hlt, hnone⟩ := Finset.mem_filter.mp hn
    have hnode := Array.getElem?_eq_getElem (Finset.mem_range.mp hlt)
    rw [hnode, Option.not_isSome_iff_eq_none] at hnone
    obtain ⟨mem, obj, i, owner, -, hobj, hunits, hkey, hi, hinput, hmem, hctx⟩ := hg n _ hnode hnone
    refine ⟨i, Finset.mem_filter.mpr ⟨?_, ?_⟩, _, owner, mem, hnode, ?_, hkey, hi, hmem, hctx⟩
    · exact Finset.mem_range.mpr (Array.getElem?_eq_some_iff.mp hi).1
    · rw [hi]
      exact Option.isSome_iff_ne_none.mpr hinput
    · have hmoduli := modulus_lt_moduli hobj
      rw [UInt32.lt_iff_toNat_lt] at hunits
      omega
  choose! owner hinput hrest using howner
  let offset (n : NodeId) : Nat := (g.nodes[n]?.map (fun node => node.offset.units.toNat)).getD 0
  have hinj : made.card ≤ (g.inputs ×ˢ Finset.range (g.moduli - 1)).card := by
    refine Finset.card_le_card_of_injOn (fun n => (owner n, offset n)) ?_ ?_
    · intro n hn
      obtain ⟨node, -, -, hnode, hunits, -⟩ := hrest n hn
      refine Finset.mem_product.mpr ⟨hinput n hn, Finset.mem_range.mpr ?_⟩
      simpa [offset, hnode] using hunits
    · intro n hn n' hn' heq
      obtain ⟨hsame, hoffset⟩ := Prod.mk.inj heq
      obtain ⟨node, i, mem, hnode, -, hkey, hi, hmem, hctx⟩ := hrest n hn
      obtain ⟨node', i', mem', hnode', -, hkey', hi', hmem', hctx'⟩ := hrest n' hn'
      simp only [offset, hnode, hnode', Option.map_some, Option.getD_some] at hoffset
      have hoffset : node.offset = node'.offset := congrArg Offset.mk (UInt32.toNat_inj.mp hoffset)
      rw [hsame, hi'] at hi
      cases hi
      rw [hmem] at hmem'
      cases hmem'
      rw [hoffset, ← hctx, hctx', hkey'] at hkey
      exact (Option.some.inj hkey).symm
  have hsplit : g.inputs.card + made.card = g.nodes.size := by
    rw [inputs, Finset.card_filter_add_card_filter_not, Finset.card_range]
  rw [Finset.card_product, Finset.card_range] at hinj
  have hpos : 0 < g.moduli := by
    rw [moduli_eq]
    omega
  calc g.nodes.size = g.inputs.card + made.card := hsplit.symm
    _ ≤ g.inputs.card + g.inputs.card * (g.moduli - 1) := Nat.add_le_add_left hinj _
    _ = g.capacity := by
      rw [capacity, Nat.mul_sub_one, Nat.add_sub_cancel']
      exact Nat.le_mul_of_pos_right _ hpos

/-- The home of a node made on demand is a copy of an input node. -/
theorem WellFormed.keyed (hg : g.WellFormed) : g.Keyed := by
  intro n node hnode hinput
  obtain ⟨mem, obj, -, hmem, hobj, hunits, hkey⟩ := hg.made n node hnode hinput
  obtain ⟨-, -, -, base, hbase, hbmem, hbctx, hbkind⟩ := hg.home_spec hnode hmem
  refine ⟨mem, obj, g.home n, base, hmem, hobj, hunits, hkey, hbase, fun hnone => ?_, hbmem, hbctx⟩
  obtain ⟨-, -, hkind, -⟩ := hg.made _ base hbase hnone
  exact hbkind hkind

theorem WellFormed.size_le_capacity (hg : g.WellFormed) : g.nodes.size ≤ g.capacity :=
  hg.keyed.size_le_capacity

theorem Extends.inputs_eq (h : Extends g g') : g'.inputs = g.inputs := by
  ext n
  simp only [inputs, Finset.mem_filter, Finset.mem_range]
  constructor
  · rintro ⟨hlt, hsome⟩
    have hnode := Array.getElem?_eq_getElem hlt
    rcases h.made n _ hnode with hold | hnone
    · exact ⟨hold, by rwa [← h.node_eq hold]⟩
    · simp [hnode, hnone] at hsome
  · rintro ⟨hlt, hsome⟩
    exact ⟨Nat.lt_of_lt_of_le hlt h.size_le, by rwa [h.node_eq hlt]⟩

theorem Extends.moduli_eq (h : Extends g g') : g'.moduli = g.moduli := by
  rw [ContextGraph.moduli_eq, ContextGraph.moduli_eq]
  have hmap : (g'.memObjs.toList.map fun m => m.modulus.toNat) =
      g.memObjs.toList.map fun m => m.modulus.toNat := by
    refine List.ext_getElem? fun i => ?_
    rw [List.getElem?_map, List.getElem?_map, Array.getElem?_toList, Array.getElem?_toList]
    by_cases hi : i < g.memObjs.size
    · obtain ⟨whole, hobj, -⟩ := h.memObjs i _ (Array.getElem?_eq_getElem hi)
      rw [hobj, Array.getElem?_eq_getElem hi]
      rfl
    · rw [Array.getElem?_eq_none (Nat.le_of_not_lt hi),
        Array.getElem?_eq_none (h.mem_size ▸ Nat.le_of_not_lt hi)]
  rw [hmap]

/-- Extending a graph does not change its capacity. -/
theorem Extends.capacity_eq (h : Extends g g') : g'.capacity = g.capacity := by
  rw [capacity, capacity, h.inputs_eq, h.moduli_eq]

end ContextGraph

end PointerAnalysis
