import PointerAnalysis.Proofs.Solver.Fixpoint

/-!
Requests. A solver can be asked for its start, for one round or for a whole run, in any order and
as often as one likes. On the constraints of a well-built context graph no request fails: each of
them leaves a state in which the next one can be carried out. In that state every object that does
not tell its fields apart is folded, and after a round what lies on a shifting cycle points to no
other objects.
-/

namespace PointerAnalysis

namespace Solver

variable {C : Type} [Context C] {s t : Solver C} {cg : ContextGraph C}

/-- What a solver can be asked for. -/
inductive Request where
  | seed
  | round
  | solve
deriving DecidableEq

/-- Carries out a request. -/
def perform : Request → SolverM C Unit
  | .seed => seed
  | .round => discard round
  | .solve => solve

theorem performAll_singleton (request : Request) (h : perform request s = .ok () t) :
    [request].forM perform s = .ok () t := by
  change EStateM.bind (perform request) (fun _ => pure ()) s = _
  rw [EStateM.bind, h]
  rfl

/-! ## Between requests -/

/-- A state in which the start is over and no request is being carried out. -/
structure Ready (cg : ContextGraph C) (s : Solver C) : Prop extends Rested s where
  initialized : s.initialized = true
  reflects : Reflects cg s

theorem Ready.round (hs : Ready cg s) :
    Yields Solver.round s fun _ t => Acts s t ∧ Ready cg t ∧ t.worklist.toList = [] := by
  let s₀ : Solver C := { s with copied := false, merged := false }
  have hreset : Act s s₀ := .reset s
  have hs₀ : s₀.WellFormed := hreset.wellFormed hs.wellFormed
  refine (hs.toRested.round hs.initialized hs.reflects).mono fun again t hends => ?_
  refine ⟨.head hreset hends.turns.acts, ⟨hends.toRested, ?_, ?_⟩, hends.idle⟩
  · exact (hends.turns.keeps hs₀).2.1.trans hs.initialized
  · exact (hs.reflects.congr (t := s₀) rfl).turns hends.turns hs₀

theorem Ready.solve (hs : Ready cg s) :
    Yields Solver.solve s fun _ t =>
      Acts s t ∧ Ready cg t ∧ t.worklist.toList = [] ∧ Acyclic t.graph := by
  have hfuel := scoreBound_lt_fuel s (capacity_le_nodeBound s)
  rw [Solver.solve, yields_bind, yields_seed_of_initialized hs.initialized, yields_bind, yields_get]
  refine (hs.toRested.rounds s.fuel hs.initialized hs.reflects (Nat.le_refl _) (by omega)).mono ?_
  rintro _ t ⟨hacts, hinit, -, hreflects, -, u, hends⟩
  exact ⟨hacts, ⟨hends.toRested, hinit, hreflects⟩, hends.idle, hends.acyclic rfl⟩

/-- Once the start is over, every request can be carried out, and the next one after it. -/
theorem Ready.perform (hs : Ready cg s) (request : Request) :
    Yields (Solver.perform request) s fun _ t => Acts s t ∧ Ready cg t ∧
      (request ≠ .seed → t.worklist.toList = []) := by
  cases request with
  | seed =>
      rw [Solver.perform, yields_seed_of_initialized hs.initialized]
      exact ⟨.refl, hs, fun h => absurd rfl h⟩
  | round =>
      rw [Solver.perform, yields_discard]
      exact hs.round.mono fun _ t ⟨hacts, ht, hidle⟩ => ⟨hacts, ht, fun _ => hidle⟩
  | solve => exact hs.solve.mono fun _ t ⟨hacts, ht, hidle, _⟩ => ⟨hacts, ht, fun _ => hidle⟩

theorem Ready.performAll (hs : Ready cg s) (requests : List Request) :
    Yields (requests.forM Solver.perform) s fun _ t => Acts s t ∧ Ready cg t := by
  induction requests generalizing s with
  | nil => exact (yields_pure _).mpr ⟨.refl, hs⟩
  | cons request requests ih =>
      refine (hs.perform request).bind fun _ t ⟨hacts, ht, _⟩ => ?_
      exact (ih ht).mono fun _ u ⟨hacts', hu⟩ => ⟨hacts.trans hacts', hu⟩

/-- What begins with the start may as well come after it. -/
theorem yields_seed_bind {α : Type} {k : PUnit → SolverM C α} {Q : α → Solver C → Prop}
    (h : Yields seed s fun _ t => t.initialized = true ∧ Yields (seed >>= k) t Q) :
    Yields (seed >>= k) s Q := by
  rw [yields_bind]
  refine h.mono ?_
  rintro _ t ⟨hinit, hq⟩
  rw [yields_bind] at hq
  exact (yields_seed_of_initialized hinit).mp hq

/-- Every request begins with the start. -/
theorem yields_perform_of_seed {request : Request} {Q : PUnit → Solver C → Prop}
    (h : Yields seed s fun _ t => t.initialized = true ∧ Yields (perform request) t Q) :
    Yields (perform request) s Q := by
  cases request with
  | seed =>
      refine Yields.mono h ?_
      rintro _ t ⟨hinit, hq⟩
      exact (yields_seed_of_initialized hinit).mp hq
  | round =>
      simp only [perform, yields_discard, Solver.round] at h ⊢
      exact yields_seed_bind h
  | solve =>
      simp only [perform, Solver.solve] at h ⊢
      exact yields_seed_bind h

section new

variable {g : ConstraintGraph C} (hcg : cg.WellBuilt) (hg : g.Spans cg cg.edges.toList)
  (strategy : Strategy)

include hcg hg

/-- The first request on the constraints of a well-built context graph. -/
theorem yields_perform_new (request : Request) :
    Yields (perform request) (new g strategy) fun _ t => Acts (new g strategy) t ∧ Ready cg t ∧
      (request ≠ .seed → t.worklist.toList = []) := by
  refine yields_perform_of_seed ((yields_seed_new hcg hg strategy).mono ?_)
  rintro _ s ⟨hacts, hs, hinit, -, hreflects, -⟩
  have hready : Ready cg s := ⟨hs, hinit, hreflects⟩
  refine ⟨hinit, (hready.perform request).mono ?_⟩
  rintro _ t ⟨hacts', ht⟩
  exact ⟨hacts.trans hacts', ht⟩

/-- Requests that follow one another lead through states that are ready, but for the first one. -/
theorem yields_performAll_new (requests : List Request) :
    Yields (requests.forM perform) (new g strategy) fun _ s =>
      Acts (new g strategy) s ∧ (s = new g strategy ∨ Ready cg s) := by
  cases requests with
  | nil => exact (yields_pure _).mpr ⟨.refl, .inl rfl⟩
  | cons first rest =>
      refine (yields_perform_new hcg hg strategy first).bind fun _ s ⟨hacts, hs, _⟩ => ?_
      exact (hs.performAll rest).mono fun _ t ⟨hacts', ht⟩ => ⟨hacts.trans hacts', .inr ht⟩

end new

/-! ## Objects that do not tell their fields apart -/

/-- Every field node of an object that does not tell its fields apart is one with the base of the
object, and whoever points to the field points to the base. -/
def FieldsFolded (s : Solver C) : Prop :=
  ∀ f mem, s.graph.contexts.IsField f → s.graph.contexts.PartOf f mem →
    s.graph.contexts.IsWhole mem →
    ∃ base, s.graph.contexts.baseOf f = .ok base ∧ s.graph.rep f = s.graph.rep base ∧
      ∀ n, f ∈ s.pointsTo n → base ∈ s.pointsTo n

/-- What lies on a shifting cycle points to no object that tells its fields apart. -/
def ShiftsWhole (s : Solver C) : Prop :=
  ∀ n, s.graph.isShifting (s.graph.rep n) → ∀ o ∈ s.pointsTo n, ¬ ContextGraph.isSpecial o →
    ∀ mem, s.graph.contexts.PartOf o mem → s.graph.contexts.IsWhole mem

theorem Rested.fieldsFolded (hs : Rested s) : FieldsFolded s := by
  intro f mem _ hpart hwhole
  have hw : s.graph.contexts.WholeAt f := ⟨mem, hpart, hwhole⟩
  refine ⟨_, hs.wellFormed.contexts.baseOf_eq hpart.lt, hs.folded.rep_home hw, fun n hn => ?_⟩
  exact hs.folded.home_mem hn hw

theorem Rested.shiftsWhole (hs : Rested s) (hidle : s.worklist.toList = []) : ShiftsWhole s := by
  intro n hshift o ho _ mem hpart
  have hdone := hs.attended _ (hs.wellFormed.live _ o ho) (by simp [hidle]) id
  exact hdone.whole hshift o ho mem hpart

/-! ## All programs -/

/-- `p = &a.x; p = &p[1]; q = p`, with the node 4 for the object `a`, 5 for its field `x`, and 6 and
7 for the pointers. -/
def walking : AssignmentGraph :=
  let g := (AssignmentGraph.empty.addObject .constant 3).2
  let g := (g.pushNode .fieldObject (some .constant) (some 0) ⟨1⟩).2
  let g := (g.addValue .constant).2
  let g := (g.addValue .constant).2
  let g := (g.addEdge .addr 5 6).2
  let g := (g.addFieldEdge 6 6 ⟨1⟩).2
  (g.addEdge .copy 6 7).2

theorem built_walking : walking.Built :=
  have h := AssignmentGraph.Built.empty.addObject .constant 3
  have hok : AssignmentGraph.addField _ 4 ⟨1⟩ = .ok (5, _) := rfl
  have h := ((h.addField hok).addValue .constant).addValue .constant
  ((h.pushEdge .addr 5 6 0 none).pushEdge .field 6 6 ⟨1⟩ none).pushEdge .copy 6 7 0 none

section results

variable {p : AssignmentGraph} {policy : ContextPolicy C} {fieldSensitive : Bool}

/-- Whatever is asked of a solver, it never halts with a fault, nor for want of fuel. -/
theorem requests_succeed (hp : p.Built) (hcheck : p.check = .ok ())
    (hbuild : ContextGraph.build policy p fieldSensitive = .ok cg) (strategy : Strategy)
    (requests : List Request) :
    ∃ g t, ConstraintGraph.ofContextGraph cg = .ok g ∧
      requests.forM perform (new g strategy) = .ok () t := by
  obtain ⟨hcg, -⟩ := ContextGraph.build_wellBuilt hp hcheck hbuild
  obtain ⟨g, hok, hg⟩ := ConstraintGraph.ofContextGraph_spans hcg.edges_lt
  obtain ⟨_, t, hrun, -⟩ := yields_performAll_new hcg hg strategy requests
  exact ⟨g, t, hok, hrun⟩

/-- A run after the first round finds what the node 8 loads, and the round after it nothing more. -/
theorem requests_succeed_shifting :
    ∃ cg g t, ContextGraph.build insensitive shifting true = .ok cg ∧
      ConstraintGraph.ofContextGraph cg = .ok g ∧
      [Request.seed, .round, .solve, .round].forM perform (new g .waveDiff) = .ok () t ∧
      t.graph.rep 6 = 5 ∧ t.graph.isShifting 5 ∧ (t.pointsTo 8).toList = [4] ∧
      t.stats.rounds = 3 := by
  have hcheck : shifting.check = .ok () := by decide +kernel
  have hrun : (after? insensitive shifting true .waveDiff
      ([Request.seed, .round, .solve, .round].forM perform)).any (fun r => decide
        (r.2.graph.rep 6 = 5 ∧ r.2.graph.isShifting 5 ∧ (r.2.pointsTo 8).toList = [4] ∧
          r.2.stats.rounds = 3)) = true := by
    decide +kernel
  obtain ⟨cg, g, t, hbuild, hok, hdone, ht⟩ := exists_after_of_any hrun
  obtain ⟨g', t', hok', hdone'⟩ := requests_succeed built_shifting hcheck hbuild .waveDiff
    [.seed, .round, .solve, .round]
  cases hok.symm.trans hok'
  cases hdone.symm.trans hdone'
  exact ⟨cg, g, t, hbuild, hok, hdone', of_decide_eq_true ht⟩

/-- After every request all objects are folded that do not tell their fields apart; and after a
round or a whole run what lies on a shifting cycle points to no others. -/
theorem folded_after_requests (hp : p.Built) (hcheck : p.check = .ok ())
    (hbuild : ContextGraph.build policy p fieldSensitive = .ok cg) (strategy : Strategy)
    (requests : List Request) (last : Request) :
    ∃ g s t, ConstraintGraph.ofContextGraph cg = .ok g ∧
      requests.forM perform (new g strategy) = .ok () s ∧ perform last s = .ok () t ∧
      FieldsFolded t ∧ (last ≠ .seed → ShiftsWhole t) := by
  obtain ⟨hcg, -⟩ := ContextGraph.build_wellBuilt hp hcheck hbuild
  obtain ⟨g, hok, hg⟩ := ConstraintGraph.ofContextGraph_spans hcg.edges_lt
  obtain ⟨_, s, hrun, -, hs⟩ := yields_performAll_new hcg hg strategy requests
  have hlast : Yields (perform last) s fun _ t =>
      Ready cg t ∧ (last ≠ .seed → t.worklist.toList = []) := by
    rcases hs with rfl | hs
    · exact (yields_perform_new hcg hg strategy last).mono fun _ t ht => ht.2
    · exact (hs.perform last).mono fun _ t ht => ht.2
  obtain ⟨_, t, hlast, ht, hidle⟩ := hlast
  refine ⟨g, s, t, hok, hrun, hlast, ht.fieldsFolded, fun hne => ?_⟩
  exact ht.shiftsWhole (hidle hne)

theorem folded_after_requests_walking :
    ∃ cg s, ContextGraph.build insensitive walking true = .ok cg ∧ Outcome cg .wave s ∧
      s.graph.contexts.IsField 5 ∧ s.graph.contexts.WholeAt 5 ∧ 5 ∈ s.pointsTo 7 ∧
      s.graph.isShifting (s.graph.rep 6) ∧ FieldsFolded s ∧ ShiftsWhole s := by
  have hcheck : walking.check = .ok () := by decide +kernel
  have hrun : (outcome? insensitive walking true .wave).any (fun r =>
      r.2.graph.contexts.nodes[5]?.any (fun n => n.kind = .fieldObject ∧ n.memObj = some 0) &&
      r.2.graph.contexts.memObjs[0]?.any (·.fieldInsensitive) && decide (5 ∈ r.2.pointsTo 7) &&
      r.2.graph.isShifting (r.2.graph.rep 6)) = true := by
    decide +kernel
  obtain ⟨cg, s, hbuild, ⟨g, hok, hsolve⟩, hs⟩ := exists_outcome_of_any hrun
  simp only [Bool.and_eq_true, Option.any_eq_true, decide_eq_true_eq] at hs
  obtain ⟨⟨⟨⟨node, hnode, hkind, hmem⟩, obj, hobj, hwhole⟩, hpoints⟩, hshift⟩ := hs
  obtain ⟨g', s', t, hok', hnone, hlast, hfolded, hshifts⟩ :=
    folded_after_requests built_walking hcheck hbuild .wave [] .solve
  cases hok.symm.trans hok'
  cases hnone
  cases hsolve.symm.trans hlast
  exact ⟨cg, s, hbuild, ⟨g, hok, hsolve⟩, ⟨node, hnode, hkind, by simp [hmem]⟩,
    ⟨0, ⟨node, hnode, hmem⟩, obj, hobj, hwhole⟩, hpoints, hshift, hfolded, hshifts (by decide)⟩

end results

end Solver

end PointerAnalysis
