import PointerAnalysis.Proofs.Solver.Score

/-!
The partition of the nodes. Every node has a representative that stands for itself, the nodes
that were merged away are counted, and points-to sets are kept for representatives only. Each
kind of step keeps the count and the entries right; the rest follows from how the parts of a
state fit together.
-/

namespace PointerAnalysis

namespace Solver

variable {C : Type} [Context C] {s t : Solver C}

/-! ## Records of merges -/

/-- Only nodes that point to something have an entry, and the nodes that were merged away are
counted. -/
structure Ledger (s : Solver C) : Prop where
  filled : s.facts.Filled
  mergedNodes : s.stats.mergedNodes = (deadNodes s.graph.slots.size s).card

theorem deadNodes_congr (h : ∀ n, n < t.graph.slots.size ∧ ¬ t.graph.isLive n ↔
    n < s.graph.slots.size ∧ ¬ s.graph.isLive n) :
    deadNodes t.graph.slots.size t = deadNodes s.graph.slots.size s := by
  ext n
  rw [mem_deadNodes, mem_deadNodes, and_iff_right_of_imp And.left, and_iff_right_of_imp And.left, h]

namespace Ledger

/-- A change that neither touches the sets nor merges a node. -/
theorem congr (hs : s.Ledger) (hpts : t.facts.pts = s.facts.pts)
    (hmerged : t.stats.mergedNodes = s.stats.mergedNodes)
    (hdead : ∀ n, n < t.graph.slots.size ∧ ¬ t.graph.isLive n ↔
      n < s.graph.slots.size ∧ ¬ s.graph.isLive n) : t.Ledger where
  filled n hn := by
    rw [Facts.pointsTo_congr hpts]
    exact hs.filled n (hpts ▸ hn)
  mergedNodes := by rw [hmerged, deadNodes_congr hdead, hs.mergedNodes]

theorem learned (hs : s.Ledger) (n : NodeId) (objs : IdSet) : (s.learned n objs).Ledger := by
  unfold Solver.learned
  split
  · exact hs
  · exact ⟨hs.filled.absorb n objs, hs.mergedNodes⟩

theorem linked (hs : s.Ledger) {g : ConstraintGraph C} (hg : s.graph.SameNodes g)
    (src dst : NodeId) : (s.linked g src dst).Ledger := by
  have hdead : ∀ n, n < g.slots.size ∧ ¬ g.isLive n ↔ n < s.graph.slots.size ∧
      ¬ s.graph.isLive n := by
    intro n
    rw [hg.size, hg.isLive]
  have hadded : Ledger { s with
      graph := g
      copied := true
      stats := { s.stats with copyEdgesAdded := s.stats.copyEdgesAdded + 1 } } :=
    hs.congr rfl rfl hdead
  unfold Solver.linked
  split
  · exact hadded.learned _ _
  · exact ⟨hadded.filled, hadded.mergedNodes⟩

theorem fused (hs : s.Ledger) {r : NodeId} {subs : List NodeId} {members : IdSet}
    (hmergeable : Mergeable s r subs) (hfused : Fused s t r subs members) : t.Ledger where
  filled := hfused.filled hs.filled
  mergedNodes := by
    rw [hfused.mergedNodes, hfused.graph.size,
      card_deadNodes_fused hmergeable hfused (Nat.le_refl _), hs.mergedNodes]

end Ledger

/-- No run has begun: nothing points to anything, and no node was merged away. -/
theorem ledger_new {cg : ContextGraph C} {g : ConstraintGraph C} (hg : g.Spans cg cg.edges.toList)
    (strategy : Strategy) : (new g strategy).Ledger where
  filled n hn := by simp [new] at hn
  mergedNodes := by
    refine (Finset.card_eq_zero.mpr (Finset.eq_empty_of_forall_notMem fun n hn => ?_)).symm
    obtain ⟨-, hlt, hdead⟩ := mem_deadNodes.mp hn
    refine hdead (hg.isLive n ?_)
    rw [← hg.contexts, ← hg.consistent.size_eq]
    exact hlt

/-! ## Flat partitions -/

/-- The nodes are divided among representatives that stand for themselves, points-to sets belong to
representatives, and the nodes that were merged away are counted. -/
structure Flat (s : Solver C) : Prop where
  rep_rep : ∀ n < s.graph.slots.size, s.graph.rep (s.graph.rep n) = s.graph.rep n
  isLive_iff : ∀ n, s.graph.isLive n ↔ n < s.graph.slots.size ∧ s.graph.rep n = n
  group_ascending : ∀ r, s.graph.isLive r → (s.graph.group r).Pairwise (· < ·)
  mem_group : ∀ r, s.graph.isLive r → ∀ n, n ∈ s.graph.group r ↔ s.graph.rep n = r
  entries : ∀ n ∈ s.facts.pts, s.graph.isLive n ∧ s.graph.rep n = n
  mergedNodes : s.stats.mergedNodes = (deadNodes s.graph.slots.size s).card

theorem Ledger.flat (hs : s.Ledger) {allowed : NodeId → Prop} (hcoherent : s.Coherent allowed) :
    Flat s where
  rep_rep n hn := hcoherent.graph.rep_of_isLive _ (hcoherent.graph.isLive_rep n hn)
  isLive_iff := hcoherent.graph.toPartitioned.isLive_iff
  group_ascending r _ := hcoherent.graph.toPartitioned.group_ascending r
  mem_group r hr := hcoherent.graph.toPartitioned.mem_group hr
  entries n hn := by
    obtain ⟨o, ho⟩ := hs.filled n hn
    have hlive := hcoherent.live n o ho
    exact ⟨hlive, hcoherent.graph.rep_of_isLive n hlive⟩
  mergedNodes := hs.mergedNodes

end Solver

end PointerAnalysis
