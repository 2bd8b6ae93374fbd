import PointerAnalysis.Proofs.ContextGraph.Build
import PointerAnalysis.Proofs.Solver.State

/-!
Undivided graphs: context graphs none of whose objects tells its fields apart. Building without
field sensitivity gives the graph that is built with it, made undivided. So the two have the same
nodes, edges and homes, and what may be read and written is the same.
-/

namespace PointerAnalysis

/-- A change that each step of a fold carries along is carried along by the fold. -/
theorem foldlM_map_comm {α β ε : Type} {f : β → α → Except ε β} {change : β → β}
    (hstep : ∀ b x, f (change b) x = (f b x).map change) (xs : List α) (b : β) :
    xs.foldlM f (change b) = (xs.foldlM f b).map change := by
  induction xs generalizing b with
  | nil => rfl
  | cons x xs ih =>
      rw [List.foldlM_cons, List.foldlM_cons, hstep]
      cases f b x with
      | error e => rfl
      | ok b' => exact ih b'

namespace ContextGraph

variable {C : Type} [Context C] {p : AssignmentGraph} {g : ContextGraph C} {n : NodeId}
  {mem : MemObjId}

/-- The graph in which no object tells its fields apart. -/
def undivided (g : ContextGraph C) : ContextGraph C :=
  { g with memObjs := g.memObjs.map fun m => { m with fieldInsensitive := true } }

theorem extends_undivided (g : ContextGraph C) : Extends g g.undivided where
  nodes _ _ h := h
  size_le := Nat.le_refl _
  copies := rfl
  mem_size := by simp [undivided]
  memObjs mem obj h := ⟨true, by simp [undivided, h], fun _ => rfl⟩
  fieldNodes _ _ h := h
  newField _ _ h := .inl h
  made _ _ h := .inl (Array.getElem?_eq_some_iff.mp h).1

theorem isWhole_undivided (hmem : mem < g.memObjs.size) : g.undivided.IsWhole mem :=
  ⟨_, by simp [undivided, Array.getElem?_eq_getElem hmem]; rfl, rfl⟩

theorem inert_undivided : g.undivided.Inert n ↔ g.Inert n := by
  refine or_congr_right ⟨?_, ?_⟩
  · rintro ⟨mem, obj, hpart, hobj, hattr⟩
    obtain ⟨obj, whole, hobj', rfl⟩ := (extends_undivided g).memObj_eq hobj
    exact ⟨mem, obj, hpart, hobj', hattr⟩
  · rintro ⟨mem, obj, hpart, hobj, hattr⟩
    obtain ⟨whole, hobj', -⟩ := (extends_undivided g).memObjs mem obj hobj
    exact ⟨mem, _, hpart, hobj', hattr⟩

/-! ## Building -/

theorem entryAt_undivided (g : ContextGraph C) (mem : MemObjId) :
    entryAt g.undivided.memObjs mem =
      (entryAt g.memObjs mem).map fun m => { m with fieldInsensitive := true } := by
  simp only [entryAt, undivided, Array.getElem?_map, Array.size_map]
  cases g.memObjs[mem]? <;> rfl

theorem addCopy_undivided (n : Node) (g : ContextGraph C) (ctx : C) :
    addCopy n g.undivided ctx = (addCopy n g ctx).map undivided := by
  have hfound : g.undivided.copyIn? n.id ctx = g.copyIn? n.id ctx := rfl
  have hsize : g.undivided.nodes.size = g.nodes.size := rfl
  unfold addCopy
  rw [hfound, hsize]
  by_cases hnew : (g.copyIn? n.id ctx).isSome
  · rw [if_pos hnew, if_pos hnew]
    rfl
  · rw [if_neg hnew, if_neg hnew]
    by_cases hmoved : n.id < reservedCount ∧ g.nodes.size ≠ n.id
    · simp only [if_pos hmoved]
      rfl
    · simp only [if_neg hmoved]
      rfl

theorem addCopies_undivided (policy : ContextPolicy C) (g : ContextGraph C) (n : Node) :
    addCopies policy g.undivided n = (addCopies policy g n).map undivided :=
  foldlM_map_comm (addCopy_undivided n) _ g

theorem registerField_undivided (p : AssignmentGraph) (g : ContextGraph C) (n : NodeId) :
    registerField p g.undivided n = (registerField p g n).map undivided := by
  have hnodes : entryAt g.undivided.nodes n = entryAt g.nodes n := rfl
  have hcopy : ∀ input ctx, g.undivided.copyIn input ctx = g.copyIn input ctx := fun _ _ => rfl
  simp only [registerField, hnodes, hcopy, entryAt_undivided, bind, Except.bind]
  cases entryAt g.nodes n with
  | error e => rfl
  | ok node =>
      simp only
      split
      · rename_i mem _ _
        cases entryAt p.memObjs mem with
        | error e => rfl
        | ok obj =>
            simp only
            cases g.copyIn obj.baseNode node.ctx with
            | error e => rfl
            | ok base => cases entryAt g.memObjs mem <;> rfl
      · rfl

theorem joinCopies_undivided (e : Edge) (g : ContextGraph C) (ctxs : C × C) :
    joinCopies e g.undivided ctxs = (joinCopies e g ctxs).map undivided := by
  have hcopy : ∀ input ctx, g.undivided.copyIn input ctx = g.copyIn input ctx := fun _ _ => rfl
  have hedge : ∀ edge, g.undivided.withEdge edge = (g.withEdge edge).undivided := by
    intro edge
    have hhas : g.undivided.hasEdge (keyOf edge) = g.hasEdge (keyOf edge) := rfl
    unfold withEdge
    rw [hhas]
    by_cases hin : g.hasEdge (keyOf edge)
    · rw [if_pos hin, if_pos hin]
    · rw [if_neg hin, if_neg hin]
      rfl
  simp only [joinCopies_eq, hcopy, hedge, bind, Except.bind]
  cases g.copyIn e.src ctxs.1 with
  | error e => rfl
  | ok src => cases g.copyIn e.dst ctxs.2 <;> rfl

theorem copyEdge_undivided (policy : ContextPolicy C) (p : AssignmentGraph) (g : ContextGraph C)
    (e : Edge) : copyEdge policy p g.undivided e = (copyEdge policy p g e).map undivided := by
  have hpairs : pairsFor policy p g.undivided e = pairsFor policy p g e := rfl
  simp only [copyEdge, hpairs, bind, Except.bind]
  cases pairsFor policy p g e with
  | error e => rfl
  | ok pairs => exact foldlM_map_comm (joinCopies_undivided e) pairs g

/-- Without field sensitivity the same graph is built, but undivided. -/
theorem build_false (policy : ContextPolicy C) (p : AssignmentGraph) :
    build policy p false = (build policy p true).map undivided := by
  have hstart : (start p false : ContextGraph C) = (start p true).undivided := rfl
  simp only [build, hstart, foldlM_map_comm (addCopies_undivided policy), bind, Except.bind]
  cases p.nodes.toList.foldlM (addCopies policy) (start p true) with
  | error e => rfl
  | ok g =>
      have hsize : g.undivided.nodes.size = g.nodes.size := rfl
      simp only [Except.map, hsize, foldlM_map_comm (registerField_undivided p)]
      cases (List.range g.nodes.size).foldlM (registerField p) g with
      | error e => rfl
      | ok g => exact foldlM_map_comm (copyEdge_undivided policy p) _ g

theorem isWhole_of_build_false {policy : ContextPolicy C} (h : build policy p false = .ok g) :
    ∀ mem < g.memObjs.size, g.IsWhole mem := by
  rw [build_false] at h
  cases hbuild : build policy p true with
  | error e =>
      rw [hbuild] at h
      cases h
  | ok g₀ =>
      rw [hbuild] at h
      cases Except.ok.inj h
      intro mem hmem
      exact isWhole_undivided (by simpa [undivided] using hmem)

end ContextGraph

end PointerAnalysis
