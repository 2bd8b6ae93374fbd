import Mathlib.Tactic.Common
import PointerAnalysis.AssignmentGraph.Check
import PointerAnalysis.ContextGraph.Fields

/-!
Assignment graphs made with the construction functions. Whatever the order of the calls, nodes and
memory objects carry their positions as ids, the reserved nodes belong to no object, and every
object has exactly one node that is no field: its base node. All nodes of an object are object nodes
and stand for the same program value.
-/

namespace PointerAnalysis

/-- A sequence that succeeds has succeeded step by step. -/
theorem bind_eq_ok {α β ε : Type} {x : Except ε α} {f : α → Except ε β} {b : β}
    (h : (x >>= f) = .ok b) : ∃ a, x = .ok a ∧ f a = .ok b := by
  cases x with
  | error e => simp [bind, Except.bind] at h
  | ok a => exact ⟨a, rfl, h⟩

/-! ## Functions of nodes -/

/-- An object node is copied for the function in whose body its value is local. -/
theorem Node.affinity_of_isObject {n : Node} (h : n.kind.isObject) : n.affinity = n.localTo := by
  unfold affinity localTo
  cases n.value with
  | none => rfl
  | some v =>
      cases v with
      | function f =>
          cases hkind : n.kind <;> simp [hkind, NodeKind.isObject, ProgramValue.localTo] at h ⊢
      | _ => rfl

/-- A value that is local to a function belongs to it. -/
theorem Node.affinity_of_localTo {n : Node} {f : FuncId} (h : n.localTo = some f) :
    n.affinity = some f := by
  obtain ⟨v, hv, hf⟩ := Option.bind_eq_some_iff.mp h
  rw [affinity, hv]
  cases v with
  | function f => cases hf
  | _ => exact hf

theorem Node.hasValue_of_localTo {n : Node} {f : FuncId} (h : n.localTo = some f) : n.hasValue := by
  obtain ⟨v, hv, -⟩ := Option.bind_eq_some_iff.mp h
  rw [hasValue, hv]
  rfl

theorem Node.hasValue_of_affinity {n : Node} {f : FuncId} (h : n.affinity = some f) :
    n.hasValue := by
  unfold affinity at h
  cases hv : n.value with
  | none =>
      rw [hv] at h
      cases h
  | some v =>
      rw [hasValue, hv]
      rfl

namespace AssignmentGraph

/-! ## Construction -/

/-- The graphs that the construction functions make. What is known about an object may be changed,
but neither its id nor its base node. -/
inductive Built : AssignmentGraph → Prop where
  | empty : Built .empty
  | addValue {g : AssignmentGraph} (h : Built g) (v : ProgramValue) : Built (g.addValue v).2
  | addReturned {g : AssignmentGraph} (h : Built g) (f : FuncId) : Built (g.addReturned f).2
  | addVariadic {g : AssignmentGraph} (h : Built g) (f : FuncId) : Built (g.addVariadic f).2
  | addObject {g : AssignmentGraph} (h : Built g) (v : ProgramValue) (numFields : UInt32) :
      Built (g.addObject v numFields).2
  | addDummyObject {g : AssignmentGraph} (h : Built g) (numFields : UInt32) :
      Built (g.addDummyObject numFields).2
  | addField {g g' : AssignmentGraph} (h : Built g) {base field : NodeId} {offset : Offset}
      (hok : g.addField base offset = .ok (field, g')) : Built g'
  | setName {g g' : AssignmentGraph} (h : Built g) {n : NodeId} {name : String}
      (hok : g.setName n name = .ok g') : Built g'
  | modifyObject {g g' : AssignmentGraph} (h : Built g) {mem : MemObjId} {f : MemObject → MemObject}
      (hf : ∀ m, (f m).id = m.id ∧ (f m).baseNode = m.baseNode)
      (hok : g.modifyObject mem f = .ok g') : Built g'
  | pushEdge {g : AssignmentGraph} (h : Built g) (kind : EdgeKind) (src dst : NodeId)
      (offset : Offset) (callSite : Option CallSiteId) :
      Built (g.pushEdge kind src dst offset callSite).2

/-! ## Construction steps -/

/-- The outcome of an access that succeeded. -/
theorem entryAt_ok {α : Type} {xs : Array α} {i : Nat} {x : α} (h : entryAt xs i = .ok x) :
    xs[i]? = some x := by
  unfold entryAt at h
  split at h
  · rename_i hx
    cases h
    exact hx
  · simp at h

section steps

variable {g g' : AssignmentGraph}

/-- A field node that could be added has the value and the object of the node that it is a field of.
-/
theorem addField_ok {base field : NodeId} {offset : Offset}
    (hok : g.addField base offset = .ok (field, g')) :
    ∃ node : Node, g.nodes[base]? = some node ∧
      g' = (g.pushNode .fieldObject node.value node.memObj offset).2 := by
  obtain ⟨node, hentry, hok⟩ := bind_eq_ok hok
  refine ⟨node, entryAt_ok hentry, ?_⟩
  split at hok
  · cases hok
    rfl
  · cases hok

/-- A graph with the same nodes and objects, except for the names of nodes and for what is known
about objects. -/
structure Revises (g g' : AssignmentGraph) : Prop where
  size : g'.nodes.size = g.nodes.size
  nodes : ∀ i : Nat, g'.nodes[i]?.map (fun n => (n.id, n.kind, n.value, n.memObj)) =
    g.nodes[i]?.map fun n => (n.id, n.kind, n.value, n.memObj)
  objects : ∀ mem : Nat, g'.memObjs[mem]?.map (fun m => (m.id, m.baseNode)) =
    g.memObjs[mem]?.map fun m => (m.id, m.baseNode)

namespace Revises

theorem symm (h : Revises g g') : Revises g' g :=
  ⟨h.size.symm, fun i => (h.nodes i).symm, fun mem => (h.objects mem).symm⟩

theorem node (h : Revises g g') {i : Nat} {n' : Node} (hn' : g'.nodes[i]? = some n') :
    ∃ n : Node, g.nodes[i]? = some n ∧ n'.id = n.id ∧ n'.kind = n.kind ∧ n'.value = n.value ∧
      n'.memObj = n.memObj := by
  have hi := (h.nodes i).symm
  rw [hn', Option.map_some, Option.map_eq_some_iff] at hi
  obtain ⟨n, hn, hsame⟩ := hi
  simp only [Prod.mk.injEq] at hsame
  obtain ⟨hid, hkind, hvalue, hmem⟩ := hsame
  exact ⟨n, hn, hid.symm, hkind.symm, hvalue.symm, hmem.symm⟩

theorem object (h : Revises g g') {mem : Nat} {obj' : MemObject}
    (hobj' : g'.memObjs[mem]? = some obj') :
    ∃ obj : MemObject, g.memObjs[mem]? = some obj ∧ obj'.id = obj.id ∧
      obj'.baseNode = obj.baseNode := by
  have hm := (h.objects mem).symm
  rw [hobj', Option.map_some, Option.map_eq_some_iff] at hm
  obtain ⟨obj, hobj, hsame⟩ := hm
  simp only [Prod.mk.injEq] at hsame
  exact ⟨obj, hobj, hsame.1.symm, hsame.2.symm⟩

end Revises

/-- A view that does not tell a new entry from the old one does not see the change. -/
theorem map_getElem?_setIfInBounds {α β : Type} {xs : Array α} {i : Nat} {x y : α} {f : α → β}
    (hx : xs[i]? = some x) (hf : f y = f x) (j : Nat) :
    (xs.setIfInBounds i y)[j]?.map f = xs[j]?.map f := by
  rw [Array.getElem?_setIfInBounds]
  split
  · rename_i hij
    subst hij
    rw [if_pos (Array.getElem?_eq_some_iff.mp hx).1, hx, Option.map_some, Option.map_some, hf]
  · rfl

theorem revises_setName {n : NodeId} {name : String} (hok : g.setName n name = .ok g') :
    Revises g g' := by
  obtain ⟨node, hentry, hok⟩ := bind_eq_ok hok
  cases hok
  exact ⟨by simp, map_getElem?_setIfInBounds (entryAt_ok hentry) rfl, fun _ => rfl⟩

theorem revises_modifyObject {mem : MemObjId} {f : MemObject → MemObject}
    (hf : ∀ m, (f m).id = m.id ∧ (f m).baseNode = m.baseNode)
    (hok : g.modifyObject mem f = .ok g') : Revises g g' := by
  obtain ⟨obj, hentry, hok⟩ := bind_eq_ok hok
  cases hok
  obtain ⟨hid, hbase⟩ := hf obj
  exact ⟨rfl, fun _ => rfl, map_getElem?_setIfInBounds (entryAt_ok hentry) (by rw [hid, hbase])⟩

theorem revises_pushEdge (kind : EdgeKind) (src dst : NodeId) (offset : Offset)
    (callSite : Option CallSiteId) : Revises g (g.pushEdge kind src dst offset callSite).2 :=
  ⟨rfl, fun _ => rfl, fun _ => rfl⟩

end steps

/-! ## Layout -/

/-- How the nodes and the objects of a graph lie. -/
structure Layout (g : AssignmentGraph) : Prop where
  size : reservedCount ≤ g.nodes.size
  id_eq : ∀ (i : Nat) (n : Node), g.nodes[i]? = some n → n.id = i
  reserved : ∀ (i : Nat) (n : Node), g.nodes[i]? = some n → i < reservedCount →
    n.memObj = none ∧ (n.kind.isObject → ContextGraph.isSpecial i)
  objects : ∀ (mem : MemObjId) (obj : MemObject), g.memObjs[mem]? = some obj → obj.id = mem ∧
    ∃ n : Node, g.nodes[obj.baseNode]? = some n ∧ n.memObj = some mem ∧ n.kind ≠ .fieldObject
  parts : ∀ (i : Nat) (n : Node) (mem : MemObjId), g.nodes[i]? = some n → n.memObj = some mem →
    ∃ obj : MemObject, g.memObjs[mem]? = some obj ∧ (n.kind ≠ .fieldObject → obj.baseNode = i)

namespace Layout

variable {g : AssignmentGraph}

theorem empty : Layout .empty where
  size := by decide
  id_eq i n h := by
    rcases i with _ | _ | _ | _ | i
    all_goals simp [AssignmentGraph.empty, AssignmentGraph.reserved] at h
    all_goals subst h; rfl
  reserved i n h hi := by
    rcases i with _ | _ | _ | _ | i
    all_goals simp [AssignmentGraph.empty, AssignmentGraph.reserved] at h
    all_goals subst h; decide
  objects mem obj h := by simp [AssignmentGraph.empty] at h
  parts i n mem h hmem := by
    rcases i with _ | _ | _ | _ | i
    all_goals simp [AssignmentGraph.empty, AssignmentGraph.reserved] at h
    all_goals subst h; simp at hmem

/-- A node without an object, or a field of an object that exists, keeps the layout. -/
theorem pushNode (h : Layout g) (kind : NodeKind) (value : Option ProgramValue)
    (memObj : Option MemObjId) (offset : Offset)
    (hmem : ∀ mem, memObj = some mem → kind = .fieldObject ∧ mem < g.memObjs.size) :
    Layout (g.pushNode kind value memObj offset).2 where
  size := by
    simp only [AssignmentGraph.pushNode, Array.size_push]
    exact Nat.le_succ_of_le h.size
  id_eq i n hn := by
    simp only [AssignmentGraph.pushNode, Array.getElem?_push] at hn
    split at hn
    · rename_i hi
      cases Option.some.inj hn
      exact hi.symm
    · exact h.id_eq i n hn
  reserved i n hn hi := by
    simp only [AssignmentGraph.pushNode, Array.getElem?_push] at hn
    split at hn
    · rename_i heq
      exact absurd (heq ▸ hi) (Nat.not_lt.mpr h.size)
    · exact h.reserved i n hn hi
  objects mem obj hobj := by
    obtain ⟨hid, n, hn, rest⟩ := h.objects mem obj hobj
    refine ⟨hid, n, ?_, rest⟩
    have hlt := (Array.getElem?_eq_some_iff.mp hn).1
    simp only [AssignmentGraph.pushNode, Array.getElem?_push]
    rw [if_neg (Nat.ne_of_lt hlt)]
    exact hn
  parts i n mem hn hnmem := by
    simp only [AssignmentGraph.pushNode, Array.getElem?_push] at hn
    split at hn
    · cases Option.some.inj hn
      obtain ⟨hkind, hlt⟩ := hmem mem hnmem
      exact ⟨_, Array.getElem?_eq_getElem hlt, fun hne => absurd hkind hne⟩
    · exact h.parts i n mem hn hnmem

theorem pushObject (h : Layout g) (kind : NodeKind) (hkind : kind ≠ .fieldObject)
    (value : Option ProgramValue) (numFields : UInt32) :
    Layout (g.pushObject kind value numFields).2 where
  size := by
    simp only [AssignmentGraph.pushObject, AssignmentGraph.pushNode, Array.size_push]
    exact Nat.le_succ_of_le h.size
  id_eq i n hn := by
    simp only [AssignmentGraph.pushObject, AssignmentGraph.pushNode, Array.getElem?_push] at hn
    split at hn
    · rename_i hi
      cases Option.some.inj hn
      exact hi.symm
    · exact h.id_eq i n hn
  reserved i n hn hi := by
    simp only [AssignmentGraph.pushObject, AssignmentGraph.pushNode, Array.getElem?_push] at hn
    split at hn
    · rename_i heq
      exact absurd (heq ▸ hi) (Nat.not_lt.mpr h.size)
    · exact h.reserved i n hn hi
  objects mem obj hobj := by
    simp only [AssignmentGraph.pushObject, AssignmentGraph.pushNode, Array.getElem?_push] at hobj ⊢
    split at hobj
    · rename_i hm
      cases Option.some.inj hobj
      exact ⟨hm.symm, _, if_pos rfl, congrArg some hm.symm, hkind⟩
    · obtain ⟨hid, n, hn, rest⟩ := h.objects mem obj hobj
      have hlt := (Array.getElem?_eq_some_iff.mp hn).1
      exact ⟨hid, n, by rw [if_neg (Nat.ne_of_lt hlt), hn], rest⟩
  parts i n mem hn hnmem := by
    simp only [AssignmentGraph.pushObject, AssignmentGraph.pushNode, Array.getElem?_push] at hn ⊢
    split at hn
    · rename_i hi
      cases Option.some.inj hn
      cases Option.some.inj hnmem
      exact ⟨_, if_pos rfl, fun _ => hi.symm⟩
    · obtain ⟨obj, hobj, hbase⟩ := h.parts i n mem hn hnmem
      have hlt := (Array.getElem?_eq_some_iff.mp hobj).1
      exact ⟨obj, by rw [if_neg (Nat.ne_of_lt hlt), hobj], hbase⟩

/-- A revision keeps the layout. -/
theorem congr {g' : AssignmentGraph} (h : Layout g) (hg : Revises g g') : Layout g' where
  size := by
    rw [hg.size]
    exact h.size
  id_eq i n' hn' := by
    obtain ⟨n, hn, hid, -⟩ := hg.node hn'
    rw [hid, h.id_eq i n hn]
  reserved i n' hn' hi := by
    obtain ⟨n, hn, -, hkind, -, hmem⟩ := hg.node hn'
    rw [hmem, hkind]
    exact h.reserved i n hn hi
  objects mem obj' hobj' := by
    obtain ⟨obj, hobj, hid, hbase⟩ := hg.object hobj'
    obtain ⟨hid', n, hn, hnmem, hnkind⟩ := h.objects mem obj hobj
    obtain ⟨n', hn', -, hkind, -, hmem⟩ := hg.symm.node hn
    exact ⟨hid.trans hid', n', hbase ▸ hn', hmem.symm.trans hnmem, hkind ▸ hnkind⟩
  parts i n' mem hn' hnmem' := by
    obtain ⟨n, hn, -, hkind, -, hmem⟩ := hg.node hn'
    obtain ⟨obj, hobj, hbase⟩ := h.parts i n mem hn (hmem ▸ hnmem')
    obtain ⟨obj', hobj', -, hbase'⟩ := hg.symm.object hobj
    exact ⟨obj', hobj', fun hne => hbase'.symm.trans (hbase (hkind ▸ hne))⟩

end Layout

/-- Every graph that the construction functions make is laid out properly. -/
theorem Built.layout {g : AssignmentGraph} (h : Built g) : Layout g := by
  induction h with
  | empty => exact .empty
  | addValue _ v ih => exact ih.pushNode _ _ _ _ (by simp)
  | addReturned _ f ih => exact ih.pushNode _ _ _ _ (by simp)
  | addVariadic _ f ih => exact ih.pushNode _ _ _ _ (by simp)
  | addObject _ v numFields ih => exact ih.pushObject _ (by simp) _ _
  | addDummyObject _ numFields ih => exact ih.pushObject _ (by simp) _ _
  | addField _ hok ih =>
      obtain ⟨node, hnode, rfl⟩ := addField_ok hok
      refine ih.pushNode _ _ _ _ fun mem hmem => ⟨rfl, ?_⟩
      obtain ⟨obj, hobj, -⟩ := ih.parts _ node mem hnode hmem
      exact (Array.getElem?_eq_some_iff.mp hobj).1
  | setName _ hok ih => exact ih.congr (revises_setName hok)
  | modifyObject _ hf hok ih => exact ih.congr (revises_modifyObject hf hok)
  | pushEdge _ kind src dst offset callSite ih => exact ih.congr (revises_pushEdge ..)

/-! ## Parts of objects -/

/-- The program value that an object stands for is that of its base node. -/
def StandsFor (g : AssignmentGraph) (mem : MemObjId) (value : Option ProgramValue) : Prop :=
  ∃ (obj : MemObject) (base : Node), g.memObjs[mem]? = some obj ∧
    g.nodes[obj.baseNode]? = some base ∧ base.value = value

/-- Every node that belongs to an object is an object node and stands for what the object
stands for. -/
def Uniform (g : AssignmentGraph) : Prop :=
  ∀ (i : Nat) (n : Node) (mem : MemObjId), g.nodes[i]? = some n → n.memObj = some mem →
    n.kind.isObject ∧ g.StandsFor mem n.value

namespace Uniform

variable {g : AssignmentGraph}

theorem empty : Uniform .empty := by
  intro i n mem h hmem
  rcases i with _ | _ | _ | _ | i
  all_goals simp [AssignmentGraph.empty, AssignmentGraph.reserved] at h
  all_goals subst h; simp at hmem

theorem pushNode (h : Uniform g) (kind : NodeKind) (value : Option ProgramValue)
    (memObj : Option MemObjId) (offset : Offset)
    (hmem : ∀ mem, memObj = some mem → kind.isObject ∧ g.StandsFor mem value) :
    Uniform (g.pushNode kind value memObj offset).2 := by
  have hgrow : ∀ mem v, g.StandsFor mem v →
      (g.pushNode kind value memObj offset).2.StandsFor mem v := by
    rintro mem v ⟨obj, base, hobj, hbase, hv⟩
    refine ⟨obj, base, hobj, ?_, hv⟩
    have hlt := (Array.getElem?_eq_some_iff.mp hbase).1
    simp only [AssignmentGraph.pushNode, Array.getElem?_push]
    rw [if_neg (Nat.ne_of_lt hlt)]
    exact hbase
  intro i n mem hn hnmem
  simp only [AssignmentGraph.pushNode, Array.getElem?_push] at hn
  split at hn
  · cases Option.some.inj hn
    obtain ⟨hkind, hstands⟩ := hmem mem hnmem
    exact ⟨hkind, hgrow mem value hstands⟩
  · obtain ⟨hkind, hstands⟩ := h i n mem hn hnmem
    exact ⟨hkind, hgrow mem n.value hstands⟩

theorem pushObject (h : Uniform g) (kind : NodeKind) (hkind : kind.isObject)
    (value : Option ProgramValue) (numFields : UInt32) :
    Uniform (g.pushObject kind value numFields).2 := by
  intro i n mem hn hnmem
  simp only [AssignmentGraph.pushObject, AssignmentGraph.pushNode, Array.getElem?_push, StandsFor]
    at hn ⊢
  split at hn
  · cases Option.some.inj hn
    cases Option.some.inj hnmem
    exact ⟨hkind, _, _, if_pos rfl, if_pos rfl, rfl⟩
  · obtain ⟨hobject, obj, base, hobj, hbase, hv⟩ := h i n mem hn hnmem
    have hlt := (Array.getElem?_eq_some_iff.mp hobj).1
    have hlt' := (Array.getElem?_eq_some_iff.mp hbase).1
    refine ⟨hobject, obj, base, ?_, ?_, hv⟩
    · rw [if_neg (Nat.ne_of_lt hlt), hobj]
    · rw [if_neg (Nat.ne_of_lt hlt'), hbase]

/-- A revision keeps the parts uniform. -/
theorem congr {g' : AssignmentGraph} (h : Uniform g) (hg : Revises g g') : Uniform g' := by
  intro i n' mem hn' hnmem'
  obtain ⟨n, hn, -, hkind, hvalue, hmem⟩ := hg.node hn'
  obtain ⟨hobject, obj, base, hobj, hbase, hv⟩ := h i n mem hn (hmem ▸ hnmem')
  obtain ⟨obj', hobj', -, hbaseNode⟩ := hg.symm.object hobj
  obtain ⟨base', hbase', -, -, hvalue', -⟩ := hg.symm.node hbase
  refine ⟨hkind ▸ hobject, obj', base', hobj', hbaseNode ▸ hbase', ?_⟩
  rw [← hvalue', hv, hvalue]

end Uniform

/-- Every graph that the construction functions make has uniform objects. -/
theorem Built.uniform {g : AssignmentGraph} (h : Built g) : Uniform g := by
  induction h with
  | empty => exact .empty
  | addValue _ v ih => exact ih.pushNode _ _ _ _ (by simp)
  | addReturned _ f ih => exact ih.pushNode _ _ _ _ (by simp)
  | addVariadic _ f ih => exact ih.pushNode _ _ _ _ (by simp)
  | addObject _ v numFields ih => exact ih.pushObject _ rfl _ _
  | addDummyObject _ numFields ih => exact ih.pushObject _ rfl _ _
  | addField _ hok ih =>
      obtain ⟨node, hnode, rfl⟩ := addField_ok hok
      exact ih.pushNode _ _ _ _ fun mem hmem => ⟨rfl, (ih _ node mem hnode hmem).2⟩
  | setName _ hok ih => exact ih.congr (revises_setName hok)
  | modifyObject _ hf hok ih => exact ih.congr (revises_modifyObject hf hok)
  | pushEdge _ kind src dst offset callSite ih => exact ih.congr (revises_pushEdge ..)

/-! ## What the check adds -/

theorem defects_eq_nil_of_check {g : AssignmentGraph} (h : g.check = .ok ()) : g.defects = [] := by
  unfold check at h
  split at h
  · assumption
  · simp at h

/-- A graph without defects: edges join nodes that exist, and addresses are taken of objects. -/
theorem check_edges {g : AssignmentGraph} (h : g.check = .ok ()) {e : Edge} (he : e ∈ g.edges) :
    e.src < g.nodes.size ∧ e.dst < g.nodes.size ∧
      (e.kind = .addr → ∃ n : Node, g.nodes[e.src]? = some n ∧ n.kind.isObject) := by
  have hnil := defects_eq_nil_of_check h
  obtain ⟨i, hi, hget⟩ := Array.getElem_of_mem he
  have hmem : (e, i) ∈ g.edges.toList.zipIdx := by
    rw [List.mem_zipIdx_iff_getElem?]
    simp [hget, hi]
  simp only [defects, List.append_eq_nil_iff, List.flatMap_eq_nil_iff] at hnil
  have hdef := hnil.2 (e, i) hmem
  simp only [edgeDefects, List.append_eq_nil_iff, Defect.require_eq_nil_iff] at hdef
  obtain ⟨⟨⟨-, hsrc⟩, hdst⟩, haddr⟩ := hdef
  refine ⟨hsrc, hdst, fun hkind => ?_⟩
  exact (Option.any_eq_true _ _).mp (haddr hkind)

theorem nodeDefects_eq_nil_of_check {g : AssignmentGraph} (h : g.check = .ok ()) {i : Nat}
    {n : Node} (hn : g.nodes[i]? = some n) : g.nodeDefects i n = [] := by
  have hnil := defects_eq_nil_of_check h
  have hmem : (n, i) ∈ g.nodes.toList.zipIdx := by
    rw [List.mem_zipIdx_iff_getElem?]
    simpa using hn
  simp only [defects, List.append_eq_nil_iff, List.flatMap_eq_nil_iff] at hnil
  exact hnil.1.1.2 (n, i) hmem

/-- A graph without defects: a node carries its position as id, and an object node that is not
reserved belongs to an object of the table. -/
theorem check_node {g : AssignmentGraph} (h : g.check = .ok ()) {i : Nat} {n : Node}
    (hn : g.nodes[i]? = some n) :
    n.id = i ∧ (n.kind.isObject → reservedCount ≤ n.id →
      ∃ mem, n.memObj = some mem ∧ mem < g.memObjs.size) := by
  have hdef := nodeDefects_eq_nil_of_check h hn
  simp only [nodeDefects, List.append_eq_nil_iff, Defect.require_eq_nil_iff] at hdef
  obtain ⟨⟨⟨hid, -⟩, -⟩, hobject⟩ := hdef
  refine ⟨hid, fun hkind hres => ?_⟩
  obtain ⟨mem, hmem, hlt⟩ := (Option.any_eq_true _ _).mp (hobject hkind hres)
  exact ⟨mem, hmem, of_decide_eq_true hlt⟩

/-- A graph without defects: a reserved node stands for no program value. -/
theorem check_reserved {g : AssignmentGraph} (h : g.check = .ok ()) {i : Nat} {n : Node}
    (hn : g.nodes[i]? = some n) (hlt : n.id < reservedCount) : n.value = none := by
  have hdef := nodeDefects_eq_nil_of_check h hn
  simp only [nodeDefects, List.append_eq_nil_iff, Defect.require_eq_nil_iff] at hdef
  exact hdef.1.1.2 hlt

/-- A graph without defects: the base node of an object belongs to the id that the object carries,
and is no field. -/
theorem check_base {g : AssignmentGraph} (h : g.check = .ok ()) {m : MemObject}
    (hm : m ∈ g.memObjs) :
    ∃ n : Node, g.nodes[m.baseNode]? = some n ∧ n.memObj = some m.id ∧ n.kind ≠ .fieldObject := by
  have hnil := defects_eq_nil_of_check h
  simp only [defects, List.append_eq_nil_iff, List.flatMap_eq_nil_iff] at hnil
  have hdef := hnil.1.2 m (by simpa using hm)
  rw [objectDefects, Defect.require_eq_nil_iff] at hdef
  obtain ⟨n, hn, hbase⟩ := (Option.any_eq_true _ _).mp hdef
  exact ⟨n, hn, of_decide_eq_true hbase⟩

end AssignmentGraph

end PointerAnalysis
