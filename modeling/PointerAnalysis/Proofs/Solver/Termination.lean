import PointerAnalysis.Proofs.Solver.Fixpoint

/-!
Termination. The worklist loop and the sequence of rounds are described without fuel, as finite
sequences of the steps that they repeat. A run with fuel that succeeds is such a sequence, and for
every program the fuel suffices. So each worklist loop comes to an end, there are finitely many
rounds, and when the last one asks for no other no node waits and no object waits to be folded.
-/

namespace PointerAnalysis

namespace Solver

variable {C : Type} [Context C] {s t u : Solver C} {visit : NodeId → SolverM C Unit}

/-! ## Loops without fuel -/

/-- The worklist loop leads from one state to another: nodes are taken and visited until
none waits. -/
inductive Drains (visit : NodeId → SolverM C Unit) : Solver C → Solver C → Prop where
  | idle {s : Solver C} (h : s.worklist.pop? = none) : Drains visit s s
  | next {s t u : Solver C} {n : NodeId} {worklist : WorkList}
      (h : s.worklist.pop? = some (n, worklist))
      (hserve : serve visit n { s with worklist } = .ok () u) (hrest : Drains visit u t) :
      Drains visit s t

/-- What a round does before its worklist loop, and how that loop visits nodes. -/
def prepare : SolverM C (NodeId → SolverM C Unit) := do
  seed
  modify fun s => { s with copied := false, merged := false }
  count fun t => { t with rounds := t.rounds + 1 }
  let order ← mergeCycles
  if (← get).strategy.isWave then
    order.forM sweep
    foldPending
    return visitIndirect
  else
    order.forM schedule
    return visitFully

/-- A round leads from one state to another, and says whether another one is needed. -/
def RoundTo (s : Solver C) (again : Bool) (t : Solver C) : Prop :=
  ∃ visit u v, prepare s = .ok visit u ∧ Drains visit u v ∧ foldPending v = .ok () t ∧
    again = (t.copied || t.merged)

/-- Rounds lead from one state to another: the last of them, and no other, says that none is needed.
-/
inductive RunsTo : Solver C → Solver C → Prop where
  | last {s t : Solver C} (h : RoundTo s false t) : RunsTo s t
  | again {s t u : Solver C} (h : RoundTo s true u) (hrest : RunsTo u t) : RunsTo s t

/-! ## Runs with fuel -/

theorem round_eq_prepare : (round : SolverM C Bool) = do
    let visit ← prepare
    drain visit (← get).fuel
    foldPending
    let s ← get
    return s.copied || s.merged := by
  unfold round prepare
  simp only [bind_assoc]
  refine bind_congr fun _ => bind_congr fun _ => bind_congr fun _ => bind_congr fun order =>
    bind_congr fun s => ?_
  split <;> simp only [bind_assoc, pure_bind]

theorem drains_of_yields {fuel : Nat} {Q : PUnit → Solver C → Prop}
    (h : Yields (drain visit fuel) s Q) : ∃ t, Drains visit s t ∧ Q ⟨⟩ t := by
  induction fuel generalizing s with
  | zero =>
      obtain ⟨_, _, hok, -⟩ := h
      cases hok
  | succ fuel ih =>
      rw [drain, yields_bind, yields_get] at h
      cases hpop : s.worklist.pop? with
      | none =>
          simp only [hpop, yields_pure] at h
          exact ⟨s, .idle hpop, h⟩
      | some next =>
          simp only [hpop] at h
          rw [yields_bind, yields_modify, yields_bind] at h
          obtain ⟨_, u, hserve, hrest⟩ := h
          obtain ⟨t, ht, hq⟩ := ih hrest
          exact ⟨t, .next hpop hserve ht, hq⟩

theorem roundTo_of_yields {Q : Bool → Solver C → Prop} (h : Yields round s Q) :
    ∃ again t, RoundTo s again t ∧ Q again t := by
  rw [round_eq_prepare, yields_bind] at h
  obtain ⟨visit, u, hprepare, h⟩ := h
  rw [yields_bind, yields_get, yields_bind] at h
  obtain ⟨v, hdrains, h⟩ := drains_of_yields h
  rw [yields_bind] at h
  obtain ⟨_, t, hfold, h⟩ := h
  rw [yields_bind, yields_get, yields_pure] at h
  exact ⟨_, t, ⟨visit, u, v, hprepare, hdrains, hfold, rfl⟩, h⟩

theorem runsTo_of_yields {fuel : Nat} {Q : PUnit → Solver C → Prop}
    (h : Yields (rounds fuel) s Q) : ∃ t, RunsTo s t ∧ Q ⟨⟩ t := by
  induction fuel generalizing s with
  | zero =>
      obtain ⟨_, _, hok, -⟩ := h
      cases hok
  | succ fuel ih =>
      rw [rounds, yields_bind] at h
      obtain ⟨again, u, hround, hrest⟩ := roundTo_of_yields h
      cases again with
      | false =>
          rw [if_neg Bool.false_ne_true, yields_pure] at hrest
          exact ⟨u, .last hround, hrest⟩
      | true =>
          rw [if_pos rfl] at hrest
          obtain ⟨t, ht, hq⟩ := ih hrest
          exact ⟨t, .again hround ht, hq⟩

/-! ## All programs -/

section results

variable {p : AssignmentGraph} {policy : ContextPolicy C} {fieldSensitive : Bool}
  {cg : ContextGraph C}

/-- Every strategy comes to an end: after the start there are finitely many rounds, in each of which
the worklist loop ends; after the last of them no node waits and no object waits to be folded. The
run with fuel ends in the same state. -/
theorem run_terminates (hp : p.Built) (hcheck : p.check = .ok ())
    (hbuild : ContextGraph.build policy p fieldSensitive = .ok cg) (strategy : Strategy) :
    ∃ g s t, ConstraintGraph.ofContextGraph cg = .ok g ∧ seed (new g strategy) = .ok () s ∧
      RunsTo s t ∧ t.worklist.toList = [] ∧ t.pending = ∅ ∧ solve (new g strategy) = .ok () t := by
  obtain ⟨hcg, -⟩ := ContextGraph.build_wellBuilt hp hcheck hbuild
  obtain ⟨g, hok, hg⟩ := ConstraintGraph.ofContextGraph_spans hcg.edges_lt
  obtain ⟨_, t, hsolve, ht⟩ := yields_solve hcg hg strategy
  have hrun : Yields solve (new g strategy) fun _ u => u = t := ⟨_, t, hsolve, rfl⟩
  rw [solve, yields_bind] at hrun
  obtain ⟨_, s, hseed, hrounds⟩ := hrun
  rw [yields_bind, yields_get] at hrounds
  obtain ⟨u, hruns, rfl⟩ := runsTo_of_yields hrounds
  exact ⟨g, s, u, hok, hseed, hruns, ht.idle, ht.pending, hsolve⟩

/-- Two nodes wait after the start. There are two rounds, in the first of which the node 7 loads
what the node 5 stores. -/
theorem run_terminates_selfProjecting :
    ∃ cg g s t, ContextGraph.build insensitive selfProjecting true = .ok cg ∧
      ConstraintGraph.ofContextGraph cg = .ok g ∧ seed (new g .wave) = .ok () s ∧
      (s.worklist.toList = [5, 10] ∧ (s.pointsTo 7).toList = []) ∧ RunsTo s t ∧
      ((t.pointsTo 7).toList = [4, 11] ∧ t.stats.rounds = 2) ∧
      t.worklist.toList = [] ∧ t.pending = ∅ := by
  have hcheck : selfProjecting.check = .ok () := by decide +kernel
  have hstart : (after? insensitive selfProjecting true .wave seed).any (fun r => decide
      (r.2.worklist.toList = [5, 10] ∧ (r.2.pointsTo 7).toList = [])) = true := by
    decide +kernel
  have hrun : (after? insensitive selfProjecting true .wave solve).any (fun r => decide
      ((r.2.pointsTo 7).toList = [4, 11] ∧ r.2.stats.rounds = 2)) = true := by
    decide +kernel
  obtain ⟨cg, g, s, hbuild, hok, hseed, hs⟩ := exists_after_of_any hstart
  obtain ⟨cg', g', t, hbuild', hok', hsolve, ht⟩ := exists_after_of_any hrun
  cases hbuild.symm.trans hbuild'
  cases hok.symm.trans hok'
  obtain ⟨g', s', t', hok', hseed', hruns, hidle, hpending, hsolve'⟩ :=
    run_terminates built_selfProjecting hcheck hbuild .wave
  cases hok.symm.trans hok'
  cases hseed.symm.trans hseed'
  cases hsolve.symm.trans hsolve'
  exact ⟨cg, g, s, t, hbuild, hok, hseed, of_decide_eq_true hs, hruns, of_decide_eq_true ht, hidle,
    hpending⟩

end results

end Solver

end PointerAnalysis
