import Mathlib.Tactic.Common
import PointerAnalysis.ConstraintGraph.Basic

/-!
Consistency of constraint graphs. Every constraint is listed exactly at its two end points and in
its class, and is the one found by its ends and kind; so no constraint occurs twice. None copies a
node to itself. Every node has one representative, which is alive and represents itself. Adding and
removing constraints keeps this.
-/

namespace PointerAnalysis

/-- The end of a constraint that lies at a node at whose side it is listed. -/
def Constraint.nearEnd (c : Constraint) : Side → NodeId
  | .incoming => c.dst
  | .outgoing => c.src

namespace ConstraintGraph

variable {C : Type} [Context C]

/-- Whether a graph has a constraint. -/
def Has (g : ConstraintGraph C) (c : Constraint) : Prop := ∃ e, g.edge? e = some c

/-- The nodes and their representatives fit together. -/
structure Partitioned (g : ConstraintGraph C) : Prop where
  isLive_rep : ∀ n, n < g.slots.size → g.isLive (g.rep n)
  rep_of_isLive : ∀ n, g.isLive n → g.rep n = n
  rep_of_size_le : ∀ n, g.slots.size ≤ n → g.rep n = n
  mem_subs : ∀ r n, n ∈ g.subs.getD r ∅ ↔ g.rep n = r ∧ n ≠ r

/-- The constraints and the places where they are listed fit together. -/
structure Indexed (g : ConstraintGraph C) : Prop where
  listed : ∀ side n cls e, e ∈ g.edgesAt side n cls ↔
    ∃ c, g.edge? e = some c ∧ c.kind.edgeClass = cls ∧ c.nearEnd side = n
  classed : ∀ cls e, e ∈ g.classes.get cls ↔ ∃ c, g.edge? e = some c ∧ c.kind.edgeClass = cls
  found : ∀ c e, g.find? c = some e ↔ g.edge? e = some c
  no_loop : ∀ c, g.Has c → c.kind = .copy → c.src ≠ c.dst

/-- The nodes and the constraints of the graph fit together. -/
structure Intact (g : ConstraintGraph C) : Prop extends Partitioned g, Indexed g

/-- All parts of the graph fit together, and it has the nodes of its context graph. -/
structure Consistent (g : ConstraintGraph C) : Prop extends Intact g where
  size_eq : g.slots.size = g.contexts.nodes.size

/-- Two graphs agree on everything but their constraints. -/
structure SameNodes (g g' : ConstraintGraph C) : Prop where
  contexts : g'.contexts = g.contexts
  reps : g'.reps = g.reps
  subs : g'.subs = g.subs
  shifting : g'.shifting = g.shifting
  size : g'.slots.size = g.slots.size
  isLive : ∀ n, g'.isLive n = g.isLive n

/-- A constraint of the later graph either had its id before or got a new one. -/
structure Fresh (g g' : ConstraintGraph C) : Prop where
  size_le : g.edges.size ≤ g'.edges.size
  edge : ∀ e c, g'.edge? e = some c → g.edge? e = some c ∨ g.edges.size ≤ e

namespace SameNodes

variable {g g' g'' : ConstraintGraph C}

theorem refl (g : ConstraintGraph C) : SameNodes g g := ⟨rfl, rfl, rfl, rfl, rfl, fun _ => rfl⟩

theorem trans (h : SameNodes g g') (h' : SameNodes g' g'') : SameNodes g g'' :=
  ⟨h'.contexts.trans h.contexts, h'.reps.trans h.reps, h'.subs.trans h.subs,
    h'.shifting.trans h.shifting, h'.size.trans h.size, fun n => (h'.isLive n).trans (h.isLive n)⟩

theorem rep (h : SameNodes g g') (n : NodeId) : g'.rep n = g.rep n := by
  rw [ConstraintGraph.rep, ConstraintGraph.rep, h.reps]

theorem size_eq (h : SameNodes g g') (hg : g.Consistent) :
    g'.slots.size = g'.contexts.nodes.size := by
  rw [h.size, h.contexts, hg.size_eq]

theorem partitioned (h : SameNodes g g') (hg : g.Partitioned) : g'.Partitioned where
  isLive_rep n hn := by
    rw [h.rep, h.isLive]
    exact hg.isLive_rep n (h.size ▸ hn)
  rep_of_isLive n hn := by
    rw [h.rep]
    exact hg.rep_of_isLive n (h.isLive n ▸ hn)
  rep_of_size_le n hn := by
    rw [h.rep]
    exact hg.rep_of_size_le n (h.size ▸ hn)
  mem_subs r n := by rw [h.subs, h.rep, hg.mem_subs]

end SameNodes

namespace Fresh

variable {g g' g'' : ConstraintGraph C}

theorem refl (g : ConstraintGraph C) : Fresh g g := ⟨Nat.le_refl _, fun _ _ h => .inl h⟩

theorem trans (h : Fresh g g') (h' : Fresh g' g'') : Fresh g g'' where
  size_le := Nat.le_trans h.size_le h'.size_le
  edge e c he := by
    rcases h'.edge e c he with he | he
    · exact h.edge e c he
    · exact .inr (Nat.le_trans h.size_le he)

end Fresh

/-! ## Looking up -/

theorem edge?_lt {g : ConstraintGraph C} {e : EdgeId} {c : Constraint} (h : g.edge? e = some c) :
    e < g.edges.size := by
  by_contra hlt
  simp [edge?, Array.getElem?_eq_none (Nat.le_of_not_lt hlt)] at h

instance (g : ConstraintGraph C) (c : Constraint) : Decidable (g.Has c) :=
  decidable_of_iff (∃ e < g.edges.size, g.edge? e = some c)
    ⟨fun ⟨e, _, he⟩ => ⟨e, he⟩, fun ⟨e, he⟩ => ⟨e, edge?_lt he, he⟩⟩

theorem edgesAt_of_not_isLive {g : ConstraintGraph C} {n : NodeId} (h : ¬ g.isLive n) (side : Side)
    (cls : EdgeClass) : g.edgesAt side n cls = ∅ := by
  rw [isLive, Bool.not_eq_true, Option.isSome_eq_false_iff, Option.isNone_iff_eq_none] at h
  simp [edgesAt, h]

theorem isLive_lt {g : ConstraintGraph C} {n : NodeId} (h : g.isLive n) : n < g.slots.size := by
  by_contra hlt
  simp [isLive, node?, Array.getElem?_eq_none (Nat.le_of_not_lt hlt)] at h

namespace Indexed

variable {g : ConstraintGraph C}

theorem mem_edgesAt (hg : g.Indexed) {e : EdgeId} {c : Constraint} (h : g.edge? e = some c)
    (side : Side) : e ∈ g.edgesAt side (c.nearEnd side) c.kind.edgeClass :=
  (hg.listed side _ _ e).mpr ⟨c, h, rfl, rfl⟩

theorem isLive_nearEnd (hg : g.Indexed) {c : Constraint} (h : g.Has c) (side : Side) :
    g.isLive (c.nearEnd side) := by
  obtain ⟨e, he⟩ := h
  by_contra hdead
  have hmem := hg.mem_edgesAt he side
  rw [edgesAt_of_not_isLive hdead] at hmem
  exact IdSet.not_mem_empty hmem

theorem isLive_src (hg : g.Indexed) {c : Constraint} (h : g.Has c) : g.isLive c.src :=
  hg.isLive_nearEnd h .outgoing

theorem isLive_dst (hg : g.Indexed) {c : Constraint} (h : g.Has c) : g.isLive c.dst :=
  hg.isLive_nearEnd h .incoming

theorem find?_isSome (hg : g.Indexed) (c : Constraint) : (g.find? c).isSome ↔ g.Has c := by
  rw [Option.isSome_iff_exists]
  exact exists_congr (hg.found c)

theorem unique (hg : g.Indexed) (e e' : EdgeId) (c : Constraint) (he : g.edge? e = some c)
    (he' : g.edge? e' = some c) : e = e' := by
  rw [← hg.found] at he he'
  exact Option.some.inj (he.symm.trans he')

/-- The constraints of a graph that has the same tables fit together too. -/
theorem congr {g' : ConstraintGraph C} (hg : g.Indexed) (hedges : g'.edges = g.edges)
    (hlookup : g'.lookup = g.lookup) (hclasses : g'.classes = g.classes)
    (hat : ∀ side n cls, g'.edgesAt side n cls = g.edgesAt side n cls) : g'.Indexed := by
  have hedge : ∀ e, g'.edge? e = g.edge? e := fun e => by rw [edge?, hedges, edge?]
  refine ⟨fun side n cls e => ?_, fun cls e => ?_, fun c e => ?_, fun c hc => ?_⟩
  · rw [hat, hg.listed]
    simp only [hedge]
  · rw [hclasses, hg.classed]
    simp only [hedge]
  · rw [find?, hlookup, hedge]
    exact hg.found c e
  · simp only [Has, hedge] at hc
    exact hg.no_loop c hc

end Indexed

/-! ## Direct constraints -/

/-- The end points of the direct constraints, in the order of their ids. -/
def directEnds (g : ConstraintGraph C) : List (NodeId × NodeId) :=
  ((g.edgesOfClass .direct).filterMap g.edge?).map (·.ends)

/-- Constraints that all exist can be looked up one after the other. -/
theorem mapM_edge {g : ConstraintGraph C} {ids : List EdgeId}
    (h : ∀ e ∈ ids, ∃ c, g.edge? e = some c) : ids.mapM g.edge = .ok (ids.filterMap g.edge?) := by
  induction ids with
  | nil => rfl
  | cons e ids ih =>
      obtain ⟨⟨c, hc⟩, hids⟩ := List.forall_mem_cons.mp h
      have hedge : g.edge e = .ok c := by rw [edge, hc]
      rw [List.mapM_cons, hedge, ih hids, List.filterMap_cons_some hc]
      rfl

namespace Indexed

variable {g : ConstraintGraph C}

/-- No id in the class of the direct constraints is that of a constraint that was removed. -/
theorem directPairs_eq (hg : g.Indexed) : g.directPairs = .ok g.directEnds := by
  have hedges : g.directEdges = .ok ((g.edgesOfClass .direct).filterMap g.edge?) := by
    refine mapM_edge fun e he => ?_
    obtain ⟨c, hc, -⟩ := (hg.classed .direct e).mp he
    exact ⟨c, hc⟩
  rw [directPairs, hedges]
  rfl

theorem mem_directEnds (hg : g.Indexed) {x y : NodeId} :
    (x, y) ∈ g.directEnds ↔
      ∃ c, g.Has c ∧ c.kind.edgeClass = .direct ∧ c.src = x ∧ c.dst = y := by
  simp only [directEnds, edgesOfClass, List.mem_map, List.mem_filterMap, ← IdSet.mem_def,
    hg.classed, Constraint.ends, Prod.mk.injEq]
  constructor
  · rintro ⟨c, ⟨e, ⟨c', he', hkind⟩, he⟩, hx, hy⟩
    cases he.symm.trans he'
    exact ⟨c, ⟨e, he⟩, hkind, hx, hy⟩
  · rintro ⟨c, ⟨e, he⟩, hkind, hx, hy⟩
    exact ⟨c, ⟨e, ⟨c, he, hkind⟩, he⟩, hx, hy⟩

end Indexed

/-! ## Groups -/

namespace Partitioned

variable {g : ConstraintGraph C}

theorem isLive_iff (hg : g.Partitioned) (n : NodeId) :
    g.isLive n ↔ n < g.slots.size ∧ g.rep n = n := by
  constructor
  · exact fun hn => ⟨isLive_lt hn, hg.rep_of_isLive n hn⟩
  · rintro ⟨hlt, hrep⟩
    rw [← hrep]
    exact hg.isLive_rep n hlt

theorem mem_group (hg : g.Partitioned) {r : NodeId} (hr : g.isLive r) (n : NodeId) :
    n ∈ g.group r ↔ g.rep n = r := by
  rw [group, List.mem_mergeSort, List.mem_cons, ← IdSet.mem_def, hg.mem_subs]
  constructor
  · rintro (rfl | ⟨hrep, -⟩)
    · exact hg.rep_of_isLive n hr
    · exact hrep
  · intro hrep
    by_cases hn : n = r
    · exact .inl hn
    · exact .inr ⟨hrep, hn⟩

theorem group_ascending (hg : g.Partitioned) (r : NodeId) :
    (g.group r).Pairwise (· < ·) := by
  have hout : r ∉ (g.subs.getD r ∅).toList := fun h => ((hg.mem_subs r r).mp h).2 rfl
  have hsubs : (g.subs.getD r ∅).toList.Nodup := (g.subs.getD r ∅).ascending.imp fun h =>
    Nat.ne_of_lt h
  have hnodup : (g.group r).Nodup :=
    (List.mergeSort_perm _ _).nodup_iff.mpr (List.nodup_cons.mpr ⟨hout, hsubs⟩)
  have hsorted : (g.group r).Pairwise (· ≤ ·) := by
    refine (List.pairwise_mergeSort (fun a b c => ?_) (fun a b => ?_) _).imp fun h =>
      of_decide_eq_true h
    · simpa using Nat.le_trans
    · simpa using Nat.le_total a b
  exact hsorted.imp₂ (fun _ _ hle hne => Nat.lt_of_le_of_ne hle hne) hnodup

end Partitioned

/-! ## Changing one node -/

/-- Applies a function to the constraints of one class at one side of a node. -/
def relist (g : ConstraintGraph C) (side : Side) (n : NodeId) (cls : EdgeClass)
    (f : IdSet → IdSet) : Except Fault (ConstraintGraph C) :=
  g.modifyNode n (·.modify side (·.modify cls f))

theorem ConstraintNode.side_modify (node : ConstraintNode) (side side' : Side)
    (f : ClassSets → ClassSets) :
    (node.modify side f).side side' =
      if side' = side then f (node.side side) else node.side side' := by
  cases side <;> cases side' <;> rfl

theorem node?_setSlot (g : ConstraintGraph C) {n m : NodeId} {node : Option ConstraintNode}
    (hn : n < g.slots.size) :
    node? { g with slots := g.slots.setIfInBounds n node } m =
      if m = n then node else g.node? m := by
  by_cases hm : m = n
  · subst hm
    simp [node?, hn]
  · have hn' : ¬ n = m := fun he => hm he.symm
    simp [node?, hm, hn']

/-- Relisting at a node that is alive succeeds, and touches only that list. -/
theorem relist_spec (g : ConstraintGraph C) {n : NodeId} (hn : g.isLive n) (side : Side)
    (cls : EdgeClass) (f : IdSet → IdSet) :
    ∃ g', g.relist side n cls f = .ok g' ∧ SameNodes g g' ∧ g' = { g with slots := g'.slots } ∧
      ∀ side' m cls', g'.edgesAt side' m cls' =
        if side' = side ∧ m = n ∧ cls' = cls then f (g.edgesAt side n cls)
        else g.edgesAt side' m cls' := by
  obtain ⟨node, hnode⟩ := Option.isSome_iff_exists.mp hn
  have hlt := isLive_lt hn
  let changed := some (node.modify side (·.modify cls f))
  refine ⟨{ g with slots := g.slots.setIfInBounds n changed }, ?_, ?_, rfl, ?_⟩
  · simp [relist, modifyNode, hnode, changed]
  · refine ⟨rfl, rfl, rfl, rfl, by simp, fun m => ?_⟩
    rw [isLive, node?_setSlot g hlt, isLive]
    by_cases hm : m = n
    · simp [hm, hnode, changed]
    · simp [hm]
  · intro side' m cls'
    rw [edgesAt, node?_setSlot g hlt]
    by_cases hm : m = n
    · subst hm
      simp only [if_true, changed, edgesAt, hnode, ConstraintNode.side_modify]
      by_cases hside : side' = side
      · subst hside
        simp [ClassSets.get_modify]
      · simp [hside]
    · simp [hm, edgesAt]

/-- Relisting a constraint at both of its ends, which are alive, touches only these two lists. -/
theorem relist_both (g : ConstraintGraph C) {c : Constraint} (hsrc : g.isLive c.src)
    (hdst : g.isLive c.dst) (f : IdSet → IdSet) :
    ∃ g₁ g₂, g.relist .outgoing c.src c.kind.edgeClass f = .ok g₁ ∧
      g₁.relist .incoming c.dst c.kind.edgeClass f = .ok g₂ ∧ SameNodes g g₂ ∧
      g₂ = { g with slots := g₂.slots } ∧
      ∀ side n cls, g₂.edgesAt side n cls =
        if n = c.nearEnd side ∧ cls = c.kind.edgeClass then f (g.edgesAt side n cls)
        else g.edgesAt side n cls := by
  obtain ⟨g₁, hok₁, hsame₁, hslots₁, hat₁⟩ := relist_spec g hsrc .outgoing c.kind.edgeClass f
  have hdst₁ : g₁.isLive c.dst := by rw [hsame₁.isLive]; exact hdst
  obtain ⟨g₂, hok₂, hsame₂, hslots₂, hat₂⟩ := relist_spec g₁ hdst₁ .incoming c.kind.edgeClass f
  have hslots : g₂ = { g with slots := g₂.slots } := by
    rw [hslots₁] at hslots₂
    exact hslots₂
  refine ⟨g₁, g₂, hok₁, hok₂, hsame₁.trans hsame₂, hslots, fun side n cls => ?_⟩
  rw [hat₂, hat₁, hat₁]
  cases side with
  | incoming =>
      by_cases hn : n = c.dst ∧ cls = c.kind.edgeClass
      · obtain ⟨rfl, rfl⟩ := hn
        simp [Constraint.nearEnd]
      · simp [Constraint.nearEnd, hn]
  | outgoing =>
      by_cases hn : n = c.src ∧ cls = c.kind.edgeClass
      · obtain ⟨rfl, rfl⟩ := hn
        simp [Constraint.nearEnd]
      · simp [Constraint.nearEnd, hn]

/-! ## Adding and removing constraints -/

theorem edge?_push (g g' : ConstraintGraph C) (c : Constraint)
    (h : g'.edges = g.edges.push (some c)) (e : EdgeId) (c' : Constraint) :
    g'.edge? e = some c' ↔ g.edge? e = some c' ∨ e = g.edges.size ∧ c' = c := by
  rw [edge?, h, Array.getElem?_push]
  by_cases he : e = g.edges.size
  · subst he
    simp [edge?, eq_comm]
  · simp [edge?, he]

theorem find?_insert (g g' : ConstraintGraph C) (c : Constraint) (e : EdgeId)
    (h : g'.lookup = g.lookup.insert c e) (c' : Constraint) :
    g'.find? c' = if c' = c then some e else g.find? c' := by
  simp only [find?, h, Std.TreeMap.getElem?_insert, Std.LawfulEqCmp.compare_eq_iff_eq,
    eq_comm (a := c')]

theorem pushEdge_spec {g : ConstraintGraph C} (hg : g.Indexed) {c : Constraint}
    (hsrc : g.isLive c.src) (hdst : g.isLive c.dst) (hnew : ¬ g.Has c)
    (hloop : c.kind = .copy → c.src ≠ c.dst) :
    ∃ g', g.pushEdge c = .ok (g.edges.size, g') ∧ SameNodes g g' ∧ g'.Indexed ∧
      g'.edges.size = g.edges.size + 1 ∧
      ∀ e c', g'.edge? e = some c' ↔ g.edge? e = some c' ∨ e = g.edges.size ∧ c' = c := by
  obtain ⟨g₁, g₂, hok₁, hok₂, hsame, hslots, hat⟩ :=
    relist_both g hsrc hdst (·.insert g.edges.size)
  let g' : ConstraintGraph C := { g₂ with
    edges := g.edges.push (some c)
    lookup := g.lookup.insert c g.edges.size
    classes := g.classes.modify c.kind.edgeClass (·.insert g.edges.size) }
  have hedge := edge?_push g g' c rfl
  refine ⟨g', ?_, ⟨hsame.contexts, hsame.reps, hsame.subs, hsame.shifting, hsame.size,
    hsame.isLive⟩, ⟨?_, ?_, ?_, ?_⟩, by simp [g'], hedge⟩
  · have hedges : g₂.edges = g.edges := by rw [hslots]
    have hlookup : g₂.lookup = g.lookup := by rw [hslots]
    have hclasses : g₂.classes = g.classes := by rw [hslots]
    simp only [relist] at hok₁ hok₂
    simp [pushEdge, hok₁, hok₂, bind, Except.bind, pure, Except.pure, g', hedges, hlookup, hclasses]
  · intro side n cls e
    have hold := hg.listed side n cls e
    change e ∈ g₂.edgesAt side n cls ↔ _
    rw [hat]
    simp only [hedge]
    split
    · rename_i hn
      obtain ⟨rfl, rfl⟩ := hn
      rw [IdSet.mem_insert, hold]
      grind
    · rw [hold]
      grind
  · intro cls e
    have hold := hg.classed cls e
    simp only [hedge, g', ClassSets.get_modify]
    split
    · rename_i hcls
      subst hcls
      rw [IdSet.mem_insert, hold]
      grind
    · rw [hold]
      grind
  · intro c' e
    rw [hedge, find?_insert g g' c _ rfl, ← hg.found]
    split
    · rename_i hc
      subst hc
      have hnone : g.find? c' = none := by
        rw [← Option.not_isSome_iff_eq_none, hg.find?_isSome]
        exact hnew
      simp [hnone, eq_comm]
    · rename_i hc
      simp [hc]
  · rintro c' ⟨e, he⟩ hcopy
    rw [hedge] at he
    rcases he with he | ⟨-, rfl⟩
    · exact hg.no_loop c' ⟨e, he⟩ hcopy
    · exact hloop hcopy

/-- Adding a constraint between nodes of the graph makes it present, unless it would copy a node to
itself; all other constraints stay with their ids. -/
theorem addEdge_spec {g : ConstraintGraph C} (hg : g.Intact) {src dst : NodeId}
    (hsrc : src < g.slots.size) (hdst : dst < g.slots.size) (kind : ConstraintKind) :
    ∃ r g', g.addEdge src dst kind = .ok (r, g') ∧ SameNodes g g' ∧ g'.Indexed ∧ Fresh g g' ∧
      (∀ e c, g.edge? e = some c → g'.edge? e = some c) ∧
      (∀ c, g'.Has c ↔ g.Has c ∨ c = g.between src dst kind ∧
        ¬ (kind = .copy ∧ g.rep src = g.rep dst)) ∧
      (r = none → g' = g) ∧ (∀ e, r = some e → ¬ g.Has (g.between src dst kind) ∧
        ¬ (kind = .copy ∧ g.rep src = g.rep dst)) := by
  by_cases hloop : kind = .copy ∧ g.rep src = g.rep dst
  · refine ⟨none, g, ?_, .refl g, hg.toIndexed, .refl g, fun e c h => h, ?_, fun _ => rfl, by simp⟩
    · simp [addEdge, between, hloop, pure, Except.pure]
    · simp [hloop]
  · by_cases hhas : g.Has (g.between src dst kind)
    · have hfind := (hg.find?_isSome _).mpr hhas
      refine ⟨none, g, ?_, .refl g, hg.toIndexed, .refl g, fun e c h => h, ?_,
        fun _ => rfl, by simp⟩
      · simp [addEdge, hfind, pure, Except.pure]
      · intro c
        constructor
        · exact .inl
        · rintro (h | ⟨rfl, -⟩)
          · exact h
          · exact hhas
    · have hfind : (g.find? (g.between src dst kind)).isSome = false := by
        rw [Bool.eq_false_iff]
        exact fun h => hhas ((hg.find?_isSome _).mp h)
      have hloop' : (g.between src dst kind).kind = .copy →
          (g.between src dst kind).src ≠ (g.between src dst kind).dst :=
        fun hk he => hloop ⟨hk, he⟩
      obtain ⟨g', hok, hsame, hindexed, hsize, hedge⟩ := pushEdge_spec hg.toIndexed
        (hg.isLive_rep src hsrc) (hg.isLive_rep dst hdst) hhas hloop'
      refine ⟨some g.edges.size, g', ?_, hsame, hindexed, ⟨by omega, fun e c h => ?_⟩,
        fun e c h => (hedge e c).mpr (.inl h), fun c => ?_, by simp, fun _ _ => ⟨hhas, hloop⟩⟩
      · have hcond : ¬ ((g.between src dst kind).kind = .copy ∧
            (g.between src dst kind).src = (g.between src dst kind).dst) := hloop
        simp [addEdge, hcond, hfind, hok, bind, Except.bind, pure, Except.pure]
      · rcases (hedge e c).mp h with h | ⟨rfl, -⟩
        · exact .inl h
        · exact .inr (Nat.le_refl _)
      · constructor
        · rintro ⟨e, he⟩
          rcases (hedge e c).mp he with he | ⟨-, rfl⟩
          · exact .inl ⟨e, he⟩
          · exact .inr ⟨rfl, hloop⟩
        · rintro (⟨e, he⟩ | ⟨rfl, -⟩)
          · exact ⟨e, (hedge e c).mpr (.inl he)⟩
          · exact ⟨_, (hedge _ _).mpr (.inr ⟨rfl, rfl⟩)⟩

theorem edge?_remove (g g' : ConstraintGraph C) (e : EdgeId)
    (h : g'.edges = g.edges.setIfInBounds e none) (e' : EdgeId) (c' : Constraint) :
    g'.edge? e' = some c' ↔ g.edge? e' = some c' ∧ e' ≠ e := by
  rw [edge?, h, Array.getElem?_setIfInBounds]
  by_cases he : e = e'
  · subst he
    by_cases hlt : e < g.edges.size <;> simp [hlt]
  · have he' : ¬ e' = e := fun h => he h.symm
    simp [edge?, he, he']

theorem find?_erase (g g' : ConstraintGraph C) (c : Constraint) (h : g'.lookup = g.lookup.erase c)
    (c' : Constraint) : g'.find? c' = if c' = c then none else g.find? c' := by
  simp only [find?, h, Std.TreeMap.getElem?_erase, Std.LawfulEqCmp.compare_eq_iff_eq,
    eq_comm (a := c')]

/-- Removing a constraint that exists leaves all others with their ids. -/
theorem removeEdge_spec {g : ConstraintGraph C} (hg : g.Indexed) {e : EdgeId} {c : Constraint}
    (he : g.edge? e = some c) :
    ∃ g', g.removeEdge e = .ok (c, g') ∧ SameNodes g g' ∧ g'.Indexed ∧
      g'.edges.size = g.edges.size ∧
      ∀ e' c', g'.edge? e' = some c' ↔ g.edge? e' = some c' ∧ e' ≠ e := by
  obtain ⟨g₁, g₂, hok₁, hok₂, hsame, hslots, hat⟩ :=
    relist_both g (hg.isLive_src ⟨e, he⟩) (hg.isLive_dst ⟨e, he⟩) (·.erase e)
  let g' : ConstraintGraph C := { g₂ with
    edges := g.edges.setIfInBounds e none
    lookup := g.lookup.erase c
    classes := g.classes.modify c.kind.edgeClass (·.erase e) }
  have hedge := edge?_remove g g' e rfl
  refine ⟨g', ?_, ⟨hsame.contexts, hsame.reps, hsame.subs, hsame.shifting, hsame.size,
    hsame.isLive⟩, ⟨?_, ?_, ?_, ?_⟩, by simp [g'], hedge⟩
  · have hedges : g₂.edges = g.edges := by rw [hslots]
    have hlookup : g₂.lookup = g.lookup := by rw [hslots]
    have hclasses : g₂.classes = g.classes := by rw [hslots]
    have hout := hg.mem_edgesAt he .outgoing
    have hin := hg.mem_edgesAt he .incoming
    simp only [Constraint.nearEnd] at hout hin
    simp only [relist] at hok₁ hok₂
    simp [removeEdge, he, hok₁, hok₂, hout, hin, bind, Except.bind, pure, Except.pure, g', hedges,
      hlookup, hclasses]
  · intro side n cls e'
    have hold := hg.listed side n cls e'
    change e' ∈ g₂.edgesAt side n cls ↔ _
    rw [hat]
    simp only [hedge]
    split
    · rename_i hn
      obtain ⟨rfl, rfl⟩ := hn
      rw [IdSet.mem_erase, hold]
      grind
    · rw [hold]
      grind
  · intro cls e'
    have hold := hg.classed cls e'
    simp only [hedge, g', ClassSets.get_modify]
    split
    · rename_i hcls
      subst hcls
      rw [IdSet.mem_erase, hold]
      grind
    · rw [hold]
      grind
  · intro c' e'
    rw [hedge, find?_erase g g' c rfl, ← hg.found]
    have hc := (hg.found c e).mpr he
    split
    · rename_i heq
      subst heq
      simp [hc, eq_comm]
    · rename_i hne
      constructor
      · intro hfind
        refine ⟨hfind, ?_⟩
        rintro rfl
        rw [hg.found, he] at hfind
        exact hne (Option.some.inj hfind).symm
      · exact fun h => h.1
  · rintro c' ⟨e', he'⟩ hcopy
    exact hg.no_loop c' ⟨e', ((hedge _ _).mp he').1⟩ hcopy

end ConstraintGraph

end PointerAnalysis
