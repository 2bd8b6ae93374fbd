import PointerAnalysis.Proofs.ConstraintGraph.Construction
import PointerAnalysis.Proofs.ConstraintGraph.Merge
import PointerAnalysis.Proofs.Facts
import PointerAnalysis.Proofs.Solver.Yields

/-!
States of a solver. A state is well-formed if its graphs are, points-to sets hold objects and
belong to nodes that are alive, the worklist holds each node once, and only objects that gave up
telling their fields apart wait to be folded. The elementary operations change a state in ways that
are named here.
-/

namespace PointerAnalysis

namespace WorkList

theorem mem_push {w : WorkList} {n m : NodeId} : m ∈ (w.push n).toList ↔ m ∈ w.toList ∨ m = n := by
  rw [toList_push]
  split
  · rename_i h
    constructor
    · exact .inl
    · rintro (hm | rfl)
      · exact hm
      · exact h
  · simp

theorem nodup_push {w : WorkList} (h : w.toList.Nodup) (n : NodeId) : (w.push n).toList.Nodup := by
  rw [toList_push]
  split
  · exact h
  · rename_i hn
    refine List.nodup_append.mpr ⟨h, by simp, fun a ha b hb hab => hn ?_⟩
    rw [← List.mem_singleton.mp hb, ← hab]
    exact ha

theorem push_push (w : WorkList) (n : NodeId) : (w.push n).push n = w.push n := by
  have hmem : (w.push n).contains n = true := contains_iff.mpr (mem_push.mpr (.inr rfl))
  rw [push, offer, if_pos hmem]

end WorkList

namespace ContextGraph

variable {C : Type} [Context C]

/-- Nothing is read from or written to an object. -/
def Inert (g : ContextGraph C) (n : NodeId) : Prop :=
  n = constantData ∨ ∃ mem obj, g.PartOf n mem ∧ g.memObjs[mem]? = some obj ∧
    (obj.isConstant = true ∨ obj.hasPointers = false)

/-- An object that can be read from and written to. -/
def Dereferenceable (g : ContextGraph C) (n : NodeId) : Prop :=
  g.isConstant n = .ok false ∧ g.isPointerFree n = .ok false

theorem memObjOf_spec {g : ContextGraph C} {n : NodeId}
    (hlt : ∀ mem, g.PartOf n mem → mem < g.memObjs.size) :
    ∃ r, g.memObjOf n = .ok r ∧
      ∀ obj, r = some obj ↔ ∃ mem, g.PartOf n mem ∧ g.memObjs[mem]? = some obj := by
  have hpart_iff : ∀ mem, g.PartOf n mem ↔ g.nodes[n]?.bind (·.memObj) = some mem := by
    simp [PartOf, Option.bind_eq_some_iff]
  cases hmem : g.nodes[n]?.bind (·.memObj) with
  | none => exact ⟨none, by simp [memObjOf, hmem], by simp [hpart_iff, hmem]⟩
  | some mem =>
      have hpart : g.PartOf n mem := (hpart_iff mem).mpr hmem
      obtain ⟨obj, hget⟩ : ∃ obj, g.memObjs[mem]? = some obj :=
        ⟨_, Array.getElem?_eq_getElem (hlt mem hpart)⟩
      refine ⟨some obj, ?_, fun obj' => ⟨?_, ?_⟩⟩
      · simp [memObjOf, hmem, entryAt_eq_ok hget, Functor.map, Except.map]
      · exact fun h => ⟨mem, hpart, hget.trans h⟩
      · rintro ⟨mem', hpart', hobj⟩
        cases hpart'.unique hpart
        exact hget.symm.trans hobj

theorem inert_spec {g : ContextGraph C} {n : NodeId}
    (hlt : ∀ mem, g.PartOf n mem → mem < g.memObjs.size) :
    ∃ const free, g.isConstant n = .ok const ∧ g.isPointerFree n = .ok free ∧
      (g.Inert n ↔ const = true ∨ free = true) := by
  obtain ⟨r, hr, hobj⟩ := memObjOf_spec hlt
  have hconst : g.isConstant n = .ok (decide (n = constantData) || r.any (·.isConstant)) := by
    by_cases h : n = constantData <;> simp [isConstant, h, hr, bind, Except.bind, pure, Except.pure]
  refine ⟨_, r.any (!·.hasPointers), hconst, ?_, ?_⟩
  · simp [isPointerFree, hr, bind, Except.bind, pure, Except.pure]
  · simp only [Inert, Bool.or_eq_true, decide_eq_true_eq, Option.any_eq_true, Bool.not_eq_true',
      hobj]
    grind

theorem dereferenceable_iff {g : ContextGraph C} {n : NodeId} (hg : g.WellFormed) :
    g.Dereferenceable n ↔ ¬ g.Inert n := by
  obtain ⟨const, free, hconst, hfree, hinert⟩ := inert_spec (hg.mem_lt n)
  rw [Dereferenceable, hconst, hfree, hinert]
  simp

theorem inert_home {g : ContextGraph C} {n : NodeId} (hg : g.WellFormed) :
    g.Inert (g.home n) ↔ g.Inert n := by
  by_cases hpart : ∃ mem, g.PartOf n mem
  · obtain ⟨mem, hpart⟩ := hpart
    have hne : ∀ m, g.PartOf m mem → m ≠ constantData := fun m hm heq =>
      hg.special m mem (by rw [heq]; decide) hm
    simp only [Inert, hne _ hpart, hne _ (hg.partOf_home hpart), hg.partOf_home_iff]
  · rw [WellFormed.home_of_not_partOf fun mem hmem => hpart ⟨mem, hmem⟩]

theorem Extends.inert_iff {g g' : ContextGraph C} {n : NodeId} (h : Extends g g')
    (hn : n < g.nodes.size) : g'.Inert n ↔ g.Inert n := by
  unfold Inert
  refine or_congr_right ⟨?_, ?_⟩
  · rintro ⟨mem, obj', hp, hobj', hattr⟩
    obtain ⟨obj, whole, hobj, rfl⟩ := h.memObj_eq hobj'
    exact ⟨mem, obj, (h.partOf_iff hn).mp hp, hobj, hattr⟩
  · rintro ⟨mem, obj, hp, hobj, hattr⟩
    obtain ⟨whole, hobj', -⟩ := h.memObjs mem obj hobj
    exact ⟨mem, _, h.partOf hp, hobj', hattr⟩

end ContextGraph

namespace ConstraintGraph

variable {C : Type} [Context C]

/-- All that `a` holds flows to `b`: they are one node, or a copy constraint joins them. -/
def Linked (g : ConstraintGraph C) (a b : NodeId) : Prop :=
  g.rep a = g.rep b ∨ g.Has ⟨g.rep a, g.rep b, .copy⟩

end ConstraintGraph

namespace Solver

variable {C : Type} [Context C]

/-- The facts and the worklist of a state fit its constraint graph, where only what is `allowed` may
be pointed to. -/
structure Coherent (allowed : NodeId → Prop) (s : Solver C) : Prop where
  graph : s.graph.Consistent
  live : ∀ n o, o ∈ s.facts.pointsTo n → s.graph.isLive n
  target : ∀ n o, o ∈ s.facts.pointsTo n → allowed o
  addr_target : ∀ c, s.graph.Has c → c.kind = .addr → allowed c.src
  worklist_lt : ∀ n ∈ s.worklist.toList, n < s.graph.slots.size
  worklist_nodup : s.worklist.toList.Nodup

/-- The parts of a state fit together. -/
structure WellFormed (s : Solver C) : Prop where
  contexts : s.graph.contexts.WellFormed
  graph : s.graph.Consistent
  live : ∀ n o, o ∈ s.facts.pointsTo n → s.graph.isLive n
  target : ∀ n o, o ∈ s.facts.pointsTo n → s.graph.contexts.IsTarget o
  addr_target : ∀ c, s.graph.Has c → c.kind = .addr → s.graph.contexts.IsTarget c.src
  worklist_lt : ∀ n ∈ s.worklist.toList, n < s.graph.slots.size
  worklist_nodup : s.worklist.toList.Nodup
  pending_whole : ∀ mem ∈ s.pending, s.graph.contexts.IsWhole mem

theorem WellFormed.coherent {s : Solver C} (hs : s.WellFormed) :
    Coherent s.graph.contexts.IsTarget s :=
  ⟨hs.graph, hs.live, hs.target, hs.addr_target, hs.worklist_lt, hs.worklist_nodup⟩

theorem Coherent.wellFormed {s : Solver C} (hs : Coherent s.graph.contexts.IsTarget s)
    (hcontexts : s.graph.contexts.WellFormed)
    (hpending : ∀ mem ∈ s.pending, s.graph.contexts.IsWhole mem) : s.WellFormed :=
  ⟨hcontexts, hs.graph, hs.live, hs.target, hs.addr_target, hs.worklist_lt, hs.worklist_nodup,
    hpending⟩

theorem WellFormed.target_lt {s : Solver C} (hs : s.WellFormed) {n o : NodeId}
    (h : o ∈ s.facts.pointsTo n) : o < s.graph.slots.size := by
  rw [hs.graph.size_eq]
  exact (hs.target n o h).1

/-- Only a node of the graph points to anything. -/
theorem WellFormed.lt_of_mem_pointsTo {s : Solver C} (hs : s.WellFormed) {n o : NodeId}
    (h : o ∈ s.pointsTo n) : n < s.graph.slots.size := by
  by_contra hn
  rw [pointsTo, hs.graph.rep_of_size_le n (Nat.le_of_not_lt hn)] at h
  exact hn (ConstraintGraph.isLive_lt (hs.live n o h))

theorem WellFormed.rep_src {s : Solver C} (hs : s.WellFormed) {c : Constraint}
    (hc : s.graph.Has c) : s.graph.rep c.src = c.src :=
  hs.graph.rep_of_isLive _ (hs.graph.isLive_src hc)

theorem WellFormed.rep_dst {s : Solver C} (hs : s.WellFormed) {c : Constraint}
    (hc : s.graph.Has c) : s.graph.rep c.dst = c.dst :=
  hs.graph.rep_of_isLive _ (hs.graph.isLive_dst hc)

/-! ## Learning -/

/-- The state once a node has learnt objects. -/
def learned (s : Solver C) (n : NodeId) (objs : IdSet) : Solver C :=
  if objs ⊆ s.facts.pointsTo n then s
  else
    { s with
      facts := (s.facts.absorb n objs).1
      worklist := s.worklist.push n
      stats := { s.stats with ptsChanges := s.stats.ptsChanges + 1 } }

section learned

variable (s : Solver C) (n : NodeId) (objs : IdSet)

@[simp] theorem strategy_learned : (s.learned n objs).strategy = s.strategy := by
  unfold learned
  split <;> rfl

@[simp] theorem graph_learned : (s.learned n objs).graph = s.graph := by
  unfold learned
  split <;> rfl

@[simp] theorem pending_learned : (s.learned n objs).pending = s.pending := by
  unfold learned
  split <;> rfl

@[simp] theorem copied_learned : (s.learned n objs).copied = s.copied := by
  unfold learned
  split <;> rfl

@[simp] theorem merged_learned : (s.learned n objs).merged = s.merged := by
  unfold learned
  split <;> rfl

@[simp] theorem initialized_learned : (s.learned n objs).initialized = s.initialized := by
  unfold learned
  split <;> rfl

@[simp] theorem sentBy_learned (m : NodeId) :
    (s.learned n objs).facts.sentBy m = s.facts.sentBy m := by
  unfold learned
  split
  · rfl
  · exact Facts.sentBy_absorb _ _ _ _

@[simp] theorem handledBy_learned (e : EdgeId) :
    (s.learned n objs).facts.handledBy e = s.facts.handledBy e := by
  unfold learned
  split
  · rfl
  · exact Facts.handledBy_absorb _ _ _ _

theorem mem_pointsTo_learned {m o : NodeId} :
    o ∈ (s.learned n objs).facts.pointsTo m ↔ o ∈ s.facts.pointsTo m ∨ m = n ∧ o ∈ objs := by
  unfold learned
  split
  · rename_i h
    constructor
    · exact .inl
    · rintro (ho | ⟨rfl, ho⟩)
      · exact ho
      · exact IdSet.subset_def.mp h o ho
  · exact Facts.mem_pointsTo_absorb _ _ _ _ _

theorem worklist_learned : (s.learned n objs).worklist =
    if objs ⊆ s.facts.pointsTo n then s.worklist else s.worklist.push n := by
  unfold learned
  split <;> rfl

theorem mem_worklist_learned {m : NodeId} : m ∈ (s.learned n objs).worklist.toList ↔
    m ∈ s.worklist.toList ∨ m = n ∧ ¬ objs ⊆ s.facts.pointsTo n := by
  rw [worklist_learned]
  split
  · rename_i h
    simp [h]
  · rename_i h
    simp [h, WorkList.mem_push]

/-- A set that grows makes its node wait. -/
theorem pointsTo_learned_of_not_mem {m : NodeId} (h : m ∉ (s.learned n objs).worklist.toList)
    {o : NodeId} : o ∈ (s.learned n objs).facts.pointsTo m ↔ o ∈ s.facts.pointsTo m := by
  rw [mem_pointsTo_learned]
  rw [mem_worklist_learned, not_or, not_and_not_right] at h
  constructor
  · rintro (ho | ⟨hm, ho⟩)
    · exact ho
    · subst hm
      exact IdSet.subset_def.mp (h.2 rfl) o ho
  · exact .inl

end learned

theorem yields_learn (n : NodeId) (objs : IdSet) {s : Solver C} {Q : Bool → Solver C → Prop} :
    Yields (learn n objs) s Q ↔ Q (!decide (objs ⊆ s.facts.pointsTo n)) (s.learned n objs) := by
  by_cases h : objs ⊆ s.facts.pointsTo n
  · simp [learn, yields_bind, Facts.absorb_of_subset h, learned, h]
  · simp [learn, yields_bind, Facts.absorb_of_not_subset h, learned, h]

/-! ## Linking -/

/-- The state once a copy constraint has been added. -/
def linked (s : Solver C) (g : ConstraintGraph C) (src dst : NodeId) : Solver C :=
  let t :=
    { s with
      graph := g
      copied := true
      stats := { s.stats with copyEdgesAdded := s.stats.copyEdgesAdded + 1 } }
  if s.strategy = .waveDiff then t.learned (g.rep dst) (t.pointsTo src)
  else { t with worklist := t.worklist.push (g.rep src) }

section linked

variable (s : Solver C) (g : ConstraintGraph C) (src dst : NodeId)

@[simp] theorem strategy_linked : (s.linked g src dst).strategy = s.strategy := by
  unfold linked
  split <;> simp

@[simp] theorem graph_linked : (s.linked g src dst).graph = g := by
  unfold linked
  split <;> simp

@[simp] theorem pending_linked : (s.linked g src dst).pending = s.pending := by
  unfold linked
  split <;> simp

@[simp] theorem copied_linked : (s.linked g src dst).copied = true := by
  unfold linked
  split <;> simp

@[simp] theorem merged_linked : (s.linked g src dst).merged = s.merged := by
  unfold linked
  split <;> simp

@[simp] theorem initialized_linked : (s.linked g src dst).initialized = s.initialized := by
  unfold linked
  split <;> simp

@[simp] theorem sentBy_linked (m : NodeId) :
    (s.linked g src dst).facts.sentBy m = s.facts.sentBy m := by
  unfold linked
  split <;> simp

@[simp] theorem handledBy_linked (e : EdgeId) :
    (s.linked g src dst).facts.handledBy e = s.facts.handledBy e := by
  unfold linked
  split <;> simp

theorem mem_pointsTo_linked {m o : NodeId} :
    o ∈ (s.linked g src dst).facts.pointsTo m ↔
      o ∈ s.facts.pointsTo m ∨
        s.strategy = .waveDiff ∧ m = g.rep dst ∧ o ∈ s.facts.pointsTo (g.rep src) := by
  unfold linked
  split
  · rename_i h
    simp [mem_pointsTo_learned, h, pointsTo]
  · rename_i h
    simp [h]

theorem worklist_linked : (s.linked g src dst).worklist =
    if s.strategy = .waveDiff then
      if s.facts.pointsTo (g.rep src) ⊆ s.facts.pointsTo (g.rep dst) then s.worklist
      else s.worklist.push (g.rep dst)
    else s.worklist.push (g.rep src) := by
  unfold linked
  split
  · simp only [worklist_learned, pointsTo]
  · rfl

theorem mem_worklist_linked {m : NodeId} : m ∈ (s.linked g src dst).worklist.toList ↔
    m ∈ s.worklist.toList ∨ s.strategy ≠ .waveDiff ∧ m = g.rep src ∨
      s.strategy = .waveDiff ∧ m = g.rep dst ∧
        ¬ s.facts.pointsTo (g.rep src) ⊆ s.facts.pointsTo (g.rep dst) := by
  unfold linked
  split
  · rename_i h
    simp [mem_worklist_learned, h, pointsTo]
  · rename_i h
    simp [WorkList.mem_push, h]

end linked

/-- Adding a copy constraint leaves the state as it is, if the two nodes are linked already, and
links them otherwise. -/
theorem yields_addCopy {s : Solver C} (hs : s.graph.Consistent) {src dst : NodeId}
    (hsrc : src < s.graph.slots.size) (hdst : dst < s.graph.slots.size)
    {Q : PUnit → Solver C → Prop} (hold : s.graph.Linked src dst → Q ⟨⟩ s)
    (hnew : ∀ e g, s.graph.addEdge src dst .copy = .ok (some e, g) → Q ⟨⟩ (s.linked g src dst)) :
    Yields (addCopy src dst) s Q := by
  obtain ⟨r, g, hok, hnodes, -, -, -, hhas, hnone, -⟩ :=
    s.graph.addEdge_spec hs.toIntact hsrc hdst .copy
  rw [addCopy, yields_bind, yields_onGraph hok]
  cases r with
  | none =>
      obtain rfl := hnone rfl
      simp only [Option.isSome_none, Bool.false_eq_true, if_false, yields_pure]
      refine hold ?_
      by_cases hrep : s.graph.rep src = s.graph.rep dst
      · exact .inl hrep
      · exact .inr ((hhas _).mpr (.inr ⟨rfl, fun h => hrep h.2⟩))
  | some e =>
      have hq := hnew e g hok
      unfold linked at hq
      simp only [Option.isSome_some, if_true, yields_bind, yields_modify, yields_count, yields_get]
      cases hst : s.strategy with
      | baseline => simpa [hst, schedule] using hq
      | wave => simpa [hst, schedule] using hq
      | waveDiff => simpa [hst, yields_learn] using hq

end Solver

end PointerAnalysis
