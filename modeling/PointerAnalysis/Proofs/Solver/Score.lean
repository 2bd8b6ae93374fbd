import Mathlib.Data.Finset.Prod
import Mathlib.Tactic.Ring
import PointerAnalysis.Proofs.ContextGraph.Capacity
import PointerAnalysis.Proofs.Solver.Frame

/-!
Why a run ends. The score of a state counts its facts and its copy constraints, and rewards every
node that was merged away by more than the facts and constraints that can be lost with it. No step
lowers the score; one that makes a node wait or asks for another round raises it; and it is bounded.
-/

namespace PointerAnalysis

namespace Solver

variable {C : Type} [Context C] {active : NodeId → Prop} {s s' t u : Solver C}

/-! ## The score -/

/-- The facts: pairs of a node and an object it points to. -/
def factPairs (N : Nat) (s : Solver C) : Finset (NodeId × NodeId) :=
  (Finset.range N ×ˢ Finset.range N).filter fun p => p.2 ∈ s.facts.pointsTo p.1

/-- The end points of the copy constraints. -/
def copyEnds (N : Nat) (s : Solver C) : Finset (NodeId × NodeId) :=
  (Finset.range N ×ˢ Finset.range N).filter fun p => s.graph.Has ⟨p.1, p.2, .copy⟩

/-- The nodes that were merged away. -/
def deadNodes (N : Nat) (s : Solver C) : Finset NodeId :=
  (Finset.range N).filter fun n => n < s.graph.slots.size ∧ ¬ s.graph.isLive n

/-- How far a run has come, if it never has more than `N` nodes. -/
def score (N : Nat) (s : Solver C) : Nat :=
  (factPairs N s).card + (copyEnds N s).card + (3 * N + 1) * (deadNodes N s).card

/-- A bound on the score. -/
def scoreBound (N : Nat) : Nat := N * N + N * N + (3 * N + 1) * N

@[simp] theorem mem_factPairs {N : Nat} {p : NodeId × NodeId} :
    p ∈ factPairs N s ↔ (p.1 < N ∧ p.2 < N) ∧ p.2 ∈ s.facts.pointsTo p.1 := by
  simp [factPairs]

@[simp] theorem mem_copyEnds {N : Nat} {p : NodeId × NodeId} :
    p ∈ copyEnds N s ↔ (p.1 < N ∧ p.2 < N) ∧ s.graph.Has ⟨p.1, p.2, .copy⟩ := by
  simp [copyEnds]

@[simp] theorem mem_deadNodes {N : Nat} {n : NodeId} :
    n ∈ deadNodes N s ↔ n < N ∧ n < s.graph.slots.size ∧ ¬ s.graph.isLive n := by
  simp [deadNodes]

theorem score_le_scoreBound (N : Nat) (s : Solver C) : score N s ≤ scoreBound N := by
  have hsquare : (Finset.range N ×ˢ Finset.range N).card = N * N := by simp
  have hfacts : (factPairs N s).card ≤ N * N := hsquare ▸ Finset.card_filter_le _ _
  have hcopies : (copyEnds N s).card ≤ N * N := hsquare ▸ Finset.card_filter_le _ _
  have hdead : (deadNodes N s).card ≤ N :=
    (Finset.card_filter_le _ _).trans (Finset.card_range N).le
  exact Nat.add_le_add (Nat.add_le_add hfacts hcopies) (Nat.mul_le_mul_left _ hdead)

/-! ## Progress -/

/-- The score does not sink, and it rises where another round is asked for. -/
structure Advances (N : Nat) (s t : Solver C) : Prop where
  score : score N s ≤ score N t
  copied : t.copied = true → s.copied = true ∨ Solver.score N s < Solver.score N t
  merged : t.merged = true → s.merged = true ∨ Solver.score N s < Solver.score N t

/-- Moreover it rises by at least as much as the worklist gets longer. -/
structure Progress (N : Nat) (s t : Solver C) : Prop extends Advances N s t where
  worklist : t.worklist.toList.length + Solver.score N s ≤ s.worklist.toList.length +
    Solver.score N t

theorem Advances.trans {N : Nat} (h : Advances N s t) (h' : Advances N t u) : Advances N s u := by
  obtain ⟨hscore, hcopied, hmerged⟩ := h
  obtain ⟨hscore', hcopied', hmerged'⟩ := h'
  refine ⟨Nat.le_trans hscore hscore', fun hu => ?_, fun hu => ?_⟩
  · rcases hcopied' hu with ht | hlt
    · exact (hcopied ht).imp_right fun hlt => Nat.lt_of_lt_of_le hlt hscore'
    · exact .inr (Nat.lt_of_le_of_lt hscore hlt)
  · rcases hmerged' hu with ht | hlt
    · exact (hmerged ht).imp_right fun hlt => Nat.lt_of_lt_of_le hlt hscore'
    · exact .inr (Nat.lt_of_le_of_lt hscore hlt)

namespace Progress

variable {N : Nat}

theorem refl (s : Solver C) : Progress N s s := ⟨⟨Nat.le_refl _, .inl, .inl⟩, Nat.le_refl _⟩

theorem trans (h : Progress N s t) (h' : Progress N t u) : Progress N s u := by
  refine ⟨h.toAdvances.trans h'.toAdvances, ?_⟩
  have := h.worklist
  have := h'.worklist
  omega

/-- A step that raises the score may make one more node wait. -/
theorem of_lt (h : Solver.score N s < Solver.score N t)
    (hwork : t.worklist.toList.length ≤ s.worklist.toList.length + 1) : Progress N s t :=
  ⟨⟨Nat.le_of_lt h, fun _ => .inr h, fun _ => .inr h⟩, by omega⟩

/-- A step that leaves the facts, the copy constraints and the dead nodes as they are. -/
theorem of_eq (hfacts : ∀ n o, o ∈ t.facts.pointsTo n ↔ o ∈ s.facts.pointsTo n)
    (hhas : ∀ c, t.graph.Has c ↔ s.graph.Has c)
    (hdead : ∀ n, n < t.graph.slots.size ∧ ¬ t.graph.isLive n ↔
      n < s.graph.slots.size ∧ ¬ s.graph.isLive n)
    (hwork : t.worklist = s.worklist) (hcopied : t.copied = s.copied)
    (hmerged : t.merged = s.merged) : Progress N s t := by
  have hscore : Solver.score N t = Solver.score N s := by
    have hfacts : factPairs N t = factPairs N s := by
      ext p
      simp [hfacts]
    have hcopies : copyEnds N t = copyEnds N s := by
      ext p
      simp [hhas]
    have hdead : deadNodes N t = deadNodes N s := by
      ext n
      rw [mem_deadNodes, mem_deadNodes, hdead]
    rw [Solver.score, Solver.score, hfacts, hcopies, hdead]
  exact ⟨⟨hscore.ge, fun h => .inl (hcopied ▸ h),
    fun h => .inl (hmerged ▸ h)⟩, by rw [hwork, hscore]⟩

end Progress

theorem length_push_le (w : WorkList) (n : NodeId) :
    (w.push n).toList.length ≤ w.toList.length + 1 := by
  rw [WorkList.toList_push]
  split
  · omega
  · simp

theorem factPairs_subset {N : Nat} (h : ∀ n o, o ∈ s.facts.pointsTo n → o ∈ t.facts.pointsTo n) :
    factPairs N s ⊆ factPairs N t := by
  intro p hp
  rw [mem_factPairs] at hp ⊢
  exact ⟨hp.1, h p.1 p.2 hp.2⟩

/-- A node that learns something new raises the score. -/
theorem score_lt_learned {N : Nat} {n : NodeId} {objs : IdSet} (hsub : ¬ objs ⊆ s.facts.pointsTo n)
    (hlt : ∀ o ∈ objs, n < N ∧ o < N) : score N s < score N (s.learned n objs) := by
  obtain ⟨o, ho, hnew⟩ : ∃ o, o ∈ objs ∧ o ∉ s.facts.pointsTo n := by
    rw [IdSet.subset_def] at hsub
    simpa using hsub
  have hfacts : factPairs N s ⊂ factPairs N (s.learned n objs) := by
    refine (Finset.ssubset_iff_of_subset (factPairs_subset fun m p hp =>
      (mem_pointsTo_learned s n objs).mpr (.inl hp))).mpr ⟨(n, o), ?_, ?_⟩
    · exact mem_factPairs.mpr ⟨hlt o ho, (mem_pointsTo_learned s n objs).mpr (.inr ⟨rfl, ho⟩)⟩
    · exact fun hp => hnew (mem_factPairs.mp hp).2
  have hcopies : copyEnds N (s.learned n objs) = copyEnds N s := by
    ext p
    simp
  have hdead : deadNodes N (s.learned n objs) = deadNodes N s := by
    ext m
    simp
  have := Finset.card_lt_card hfacts
  rw [score, score, hcopies, hdead]
  omega

theorem length_worklist_learned (n : NodeId) (objs : IdSet) :
    (s.learned n objs).worklist.toList.length ≤ s.worklist.toList.length + 1 := by
  rw [worklist_learned]
  split
  · exact Nat.le_succ _
  · exact length_push_le _ _

theorem progress_learned {N : Nat} {n : NodeId} {objs : IdSet}
    (hlt : ∀ o ∈ objs, n < N ∧ o < N) : Progress N s (s.learned n objs) := by
  by_cases hsub : objs ⊆ s.facts.pointsTo n
  · rw [learned, if_pos hsub]
    exact .refl s
  · exact .of_lt (score_lt_learned hsub hlt) (length_worklist_learned n objs)

/-- A new copy constraint raises the score. -/
theorem progress_linked {N : Nat} (hs : s.graph.Consistent) {src dst : NodeId} {e : EdgeId}
    {g : ConstraintGraph C} (hsrc : src < s.graph.slots.size) (hdst : dst < s.graph.slots.size)
    (hok : s.graph.addEdge src dst .copy = .ok (some e, g)) (hN : s.graph.slots.size ≤ N) :
    Progress N s (s.linked g src dst) := by
  obtain ⟨r, g', hok', hnodes, -, -, -, hhas, -, hsome⟩ :=
    s.graph.addEdge_spec hs.toIntact hsrc hdst .copy
  cases hok.symm.trans hok'
  obtain ⟨hnew, hloop⟩ := hsome e rfl
  have hlt : ∀ n, n < s.graph.slots.size → s.graph.rep n < N := fun n hn =>
    Nat.lt_of_lt_of_le (ConstraintGraph.isLive_lt (hs.isLive_rep n hn)) hN
  have hcopies : copyEnds N s ⊂ copyEnds N (s.linked g src dst) := by
    refine (Finset.ssubset_iff_of_subset fun p hp => ?_).mpr ⟨(s.graph.rep src, s.graph.rep dst),
      ?_, ?_⟩
    · rw [mem_copyEnds, graph_linked, hhas]
      exact (mem_copyEnds.mp hp).imp_right .inl
    · rw [mem_copyEnds, graph_linked, hhas]
      exact ⟨⟨hlt src hsrc, hlt dst hdst⟩, .inr ⟨rfl, hloop⟩⟩
    · exact fun hp => hnew (mem_copyEnds.mp hp).2
  have hfacts : factPairs N s ⊆ factPairs N (s.linked g src dst) :=
    factPairs_subset fun n o ho => (mem_pointsTo_linked s g src dst).mpr (.inl ho)
  have hdead : deadNodes N (s.linked g src dst) = deadNodes N s := by
    ext n
    rw [mem_deadNodes, mem_deadNodes, graph_linked, hnodes.isLive, hnodes.size]
  refine .of_lt ?_ ?_
  · have := Finset.card_lt_card hcopies
    have := Finset.card_le_card hfacts
    rw [score, score, hdead]
    omega
  · rw [worklist_linked]
    split
    · split
      · exact Nat.le_succ _
      · exact length_push_le _ _
    · exact length_push_le _ _

theorem progress_grown {N : Nat} {g : ConstraintGraph C} (hgrown : s.graph.Grown g) :
    Progress N s { s with graph := g } := by
  refine .of_eq (fun _ _ => .rfl) (fun c => ?_) hgrown.dead_iff rfl rfl rfl
  change g.Has c ↔ s.graph.Has c
  simp only [ConstraintGraph.Has, ConstraintGraph.edge?, hgrown.edges]

/-- A pointer that gains an object asks for another round, which the higher score pays for. -/
theorem progress_spilt {N : Nat} {n o : NodeId} (hnew : o ∉ s.facts.pointsTo n) (hn : n < N)
    (ho : o < N) : Progress N s { s.learned n {o} with merged := true } := by
  have hsub : ¬ ({o} : IdSet) ⊆ s.facts.pointsTo n := fun h =>
    hnew (IdSet.subset_def.mp h _ (IdSet.mem_singleton.mpr rfl))
  refine .of_lt (score_lt_learned hsub fun p hp => ?_) (length_worklist_learned n _)
  rw [IdSet.mem_singleton.mp hp]
  exact ⟨hn, ho⟩

/-- The nodes that are merged into another one are dead from then on. -/
theorem card_deadNodes_fused {N : Nat} {r : NodeId} {subs : List NodeId} {members : IdSet}
    (hmergeable : Mergeable s r subs) (hfused : Fused s t r subs members)
    (hN : s.graph.slots.size ≤ N) :
    (deadNodes N t).card = (deadNodes N s).card + subs.length := by
  have hlt : ∀ n ∈ subs, n < s.graph.slots.size := fun n hn =>
    ConstraintGraph.isLive_lt (hmergeable.live_subs n hn)
  have hdead : deadNodes N t = deadNodes N s ∪ subs.toFinset := by
    ext n
    rw [Finset.mem_union, mem_deadNodes, mem_deadNodes, List.mem_toFinset, hfused.graph.isLive_iff,
      hfused.graph.size]
    by_cases hn : n ∈ subs
    · have := hlt n hn
      simp only [hn, not_true_eq_false, and_false, not_false_eq_true, and_true, or_true, iff_true]
      exact ⟨Nat.lt_of_lt_of_le this hN, this⟩
    · simp [hn]
  have hdisjoint : Disjoint (deadNodes N s) subs.toFinset := by
    rw [Finset.disjoint_left]
    intro n hn hin
    exact (mem_deadNodes.mp hn).2.2 (hmergeable.live_subs n (List.mem_toFinset.mp hin))
  rw [hdead, Finset.card_union_of_disjoint hdisjoint,
    List.toFinset_card_of_nodup (List.nodup_cons.mp hmergeable.nodup).2]

/-- A node that is merged away is worth more than the facts and copy constraints lost with it. -/
theorem progress_fused {N : Nat} {r : NodeId} {subs : List NodeId} {members : IdSet}
    (hmergeable : Mergeable s r subs) (hfused : Fused s t r subs members)
    (hN : s.graph.slots.size ≤ N) : Progress N s t := by
  have hg := hfused.graph
  have hcard : subs.toFinset.card = subs.length :=
    List.toFinset_card_of_nodup (List.nodup_cons.mp hmergeable.nodup).2
  have hpos : 0 < subs.length := List.length_pos_iff.mpr hmergeable.nonempty
  have hfacts : factPairs N s ⊆ factPairs N t ∪ subs.toFinset ×ˢ Finset.range N := by
    rintro ⟨n, o⟩ hp
    obtain ⟨hlt, hpts⟩ := mem_factPairs.mp hp
    by_cases hn : n ∈ subs
    · exact Finset.mem_union_right _ (by simp [hn, hlt.2])
    · exact Finset.mem_union_left _
        (mem_factPairs.mpr ⟨hlt, (hfused.pointsTo n o).mpr ⟨hn, .inl hpts⟩⟩)
  have hcopies : copyEnds N s ⊆ copyEnds N t ∪
      (subs.toFinset ×ˢ Finset.range N ∪ Finset.range N ×ˢ subs.toFinset) := by
    rintro ⟨a, b⟩ hp
    obtain ⟨hlt, e, he⟩ := mem_copyEnds.mp hp
    by_cases ha : a ∈ subs
    · exact Finset.mem_union_right _ (Finset.mem_union_left _ (by simp [ha, hlt.2]))
    · by_cases hb : b ∈ subs
      · exact Finset.mem_union_right _ (Finset.mem_union_right _ (by simp [hb, hlt.1]))
      · exact Finset.mem_union_left _ (mem_copyEnds.mpr ⟨hlt, e, hg.kept e _ he ha hb⟩)
  have hfacts' := (Finset.card_le_card hfacts).trans (Finset.card_union_le _ _)
  have hcopies' := (Finset.card_le_card hcopies).trans (Finset.card_union_le _ _)
  have hcopies'' := Finset.card_union_le (subs.toFinset ×ˢ Finset.range N)
    (Finset.range N ×ˢ subs.toFinset)
  simp only [Finset.card_product, Finset.card_range, hcard] at hfacts' hcopies' hcopies''
  refine .of_lt ?_ ?_
  · rw [score, score, card_deadNodes_fused hmergeable hfused hN]
    rw [Nat.mul_comm N] at hcopies''
    have hexpand : (3 * N + 1) * ((deadNodes N s).card + subs.length) =
        (3 * N + 1) * (deadNodes N s).card + 3 * (subs.length * N) + subs.length := by
      rw [Nat.mul_add, Nat.add_mul, Nat.add_mul, Nat.one_mul, Nat.one_mul,
        Nat.mul_assoc 3 N subs.length, Nat.mul_comm N subs.length]
      omega
    omega
  · rw [hfused.worklist]
    exact length_push_le _ _

theorem Move.progress {N : Nat} (h : Move active s s') (hs : s.WellFormed)
    (hN : s.graph.slots.size ≤ N) : Progress N s s' := by
  cases h with
  | step h =>
      cases h with
      | tally stats => exact .of_eq (fun _ _ => .rfl) (fun _ => .rfl) (fun _ => .rfl) rfl rfl rfl
      | gain n objs hdue htidy =>
          refine progress_learned fun o ho => ?_
          obtain ⟨htarget, hlive⟩ := (hdue o ho).target hs
          exact ⟨Nat.lt_of_lt_of_le (ConstraintGraph.isLive_lt hlive) hN,
            Nat.lt_of_lt_of_le (hs.graph.size_eq ▸ htarget.1) hN⟩
      | link src dst e g hdue hok =>
          obtain ⟨hsrc, hdst⟩ := hdue.lt hs
          exact progress_linked hs.graph hsrc hdst hok hN
      | grow c offset o key g hc hkind ho hkey hwhole hnew hcontexts hgrown =>
          exact progress_grown hgrown
      | widen o mem contexts hdue hpart hnew hok =>
          exact .of_eq (fun _ _ => .rfl) (fun _ => .rfl) (fun _ => .rfl) rfl rfl rfl
  | collapse h =>
      cases h with
      | tally stats => exact .of_eq (fun _ _ => .rfl) (fun _ => .rfl) (fun _ => .rfl) rfl rfl rfl
      | spill n f hf hwhole hnew =>
          have hhome := (hs.contexts.isTarget_home (hs.target n f hf)).1
          exact progress_spilt hnew
            (Nat.lt_of_lt_of_le (ConstraintGraph.isLive_lt (hs.live n f hf)) hN)
            (Nat.lt_of_lt_of_le (hs.graph.size_eq ▸ hhome) hN)
      | fuse r subs members hgroup hdue hfused => exact progress_fused hgroup.toMergeable hfused hN
  | clear => exact .of_eq (fun _ _ => .rfl) (fun _ => .rfl) (fun _ => .rfl) rfl rfl rfl
  | record facts h =>
      refine .of_eq (fun n o => ?_) (fun _ => .rfl) (fun _ => .rfl) rfl rfl rfl
      change o ∈ facts.pointsTo n ↔ _
      rw [h]

theorem Moves.progress {N : Nat} (h : Moves active s s') (hs : s.WellFormed)
    (hN : s.graph.contexts.capacity ≤ N) : Progress N s s' := by
  induction h with
  | refl => exact .refl s
  | @tail t u hmoves hmove ih =>
      have ht := Moves.wellFormed hmoves hs
      refine ih.trans (hmove.progress ht ?_)
      rw [ht.graph.size_eq]
      have hcap := (Moves.frame hmoves hs).contexts.capacity_eq
      exact Nat.le_trans ht.contexts.size_le_capacity (hcap ▸ hN)

/-! ## Fuel -/

/-- The fuel suffices for as many visits as can be due, and for as many rounds. -/
theorem scoreBound_lt_fuel {N : Nat} (s : Solver C) (hN : N ≤ s.nodeBound) :
    scoreBound N + N < s.fuel := by
  have hmono : (N + 2) * (N + 2) * (N + 2) ≤
      (s.nodeBound + 2) * (s.nodeBound + 2) * (s.nodeBound + 2) :=
    Nat.mul_le_mul (Nat.mul_le_mul (by omega) (by omega)) (by omega)
  have hbound : scoreBound N + N < 4 * ((N + 2) * (N + 2) * (N + 2)) := by
    unfold scoreBound
    ring_nf
    omega
  exact Nat.lt_of_lt_of_le hbound (Nat.mul_le_mul_left 4 hmono)

theorem capacity_le_nodeBound (s : Solver C) : s.graph.contexts.capacity ≤ s.nodeBound := by
  refine Nat.mul_le_mul_right _ ?_
  exact (Finset.card_filter_le _ _).trans (Finset.card_range _).le

end Solver

end PointerAnalysis
