import PointerAnalysis.Analysis
import PointerAnalysis.Proofs.ContextGraph.Plain
import PointerAnalysis.Proofs.Solver.Grounded

/-!
Whole analyses of programs that belong to no function. The check of a program does not ask that the
ids of memory objects be positions in their table, neither the ids in the table itself nor those of
the reserved nodes; a program where one is not can halt an analysis. Otherwise every analysis with
call strings has a solution.
-/

namespace PointerAnalysis

theorem Node.localTo_of_affinity {n : Node} (h : n.affinity = none) : n.localTo = none := by
  unfold affinity at h
  unfold localTo
  cases hvalue : n.value with
  | none => rfl
  | some v => cases v <;> simp_all [ProgramValue.localTo]

/-- Only a caller's variables are passed on in calls and returns. -/
theorem CallStringPolicy.joinsNothing (q : CallStringPolicy) {p : AssignmentGraph}
    (hcheck : p.check = .ok ()) (haffinity : ∀ n ∈ p.nodes, n.affinity = none) :
    ContextGraph.JoinsNothing q.policy p := by
  have hends : ∀ e ∈ p.edges, ∃ src dst : Node, entryAt p.nodes e.src = .ok src ∧
      entryAt p.nodes e.dst = .ok dst ∧ src.localTo = none ∧ dst.localTo = none := by
    intro e he
    obtain ⟨hsrc, hdst, -⟩ := AssignmentGraph.check_edges hcheck he
    exact ⟨p.nodes[e.src], p.nodes[e.dst], entryAt_eq_ok (Array.getElem?_eq_getElem hsrc),
      entryAt_eq_ok (Array.getElem?_eq_getElem hdst),
      Node.localTo_of_affinity (haffinity _ (Array.getElem_mem hsrc)),
      Node.localTo_of_affinity (haffinity _ (Array.getElem_mem hdst))⟩
  constructor
  · intro e he srcs dsts
    obtain ⟨src, dst, hsrc, hdst, hlocal, -⟩ := hends e he
    simp [policy, callPairs, hsrc, hdst, hlocal, bind, Except.bind, pure, Except.pure]
  · intro e he srcs dsts
    obtain ⟨src, dst, hsrc, hdst, -, hlocal⟩ := hends e he
    simp [policy, returnPairs, hsrc, hdst, hlocal, bind, Except.bind, pure, Except.pure]

namespace Analyzer

variable {C : Type} [Context C] {p : AssignmentGraph}

theorem eq_of_ofConfig {c : Config} {a : Analyzer} (h : ofConfig c = .ok a) : a.config = c := by
  unfold ofConfig at h
  split at h
  · cases h
    rfl
  · cases h

theorem exists_analyzeWith (a : Analyzer) {policy : ContextPolicy C} (hcheck : p.check = .ok ())
    (haffinity : ∀ n ∈ p.nodes, n.affinity = none) (hclosed : p.Closed)
    (hpolicy : ContextGraph.JoinsNothing policy p) : ∃ s, a.analyzeWith policy p = .ok s := by
  obtain ⟨cg, hbuild, hcg, hedges, haddr⟩ :=
    ContextGraph.exists_build hcheck haffinity hclosed hpolicy a.config.fieldSensitive
  obtain ⟨g, hok, hg⟩ := ConstraintGraph.ofContextGraph_spans hedges
  obtain ⟨_, s, hsolve, -⟩ := (Solver.grounded_new hg hcg haddr a.config.solver).solve
  have hconstraints : constraints policy p a.config.fieldSensitive = .ok g := by
    rw [constraints, hbuild]
    exact hok
  have hrun : Solver.solve.run (Solver.new g a.config.solver) = .ok _ s := hsolve
  simp only [analyzeWith, hcheck, hconstraints, hrun]
  exact ⟨_, rfl⟩

/-- Under every valid configuration with call strings, and whatever the call graph, the analysis of
a checked program without functions has a solution if its ids of memory objects are positions in
their table. -/
theorem analyze_succeeds_of_closed {c : Config} {a : Analyzer} (hconfig : ofConfig c = .ok a)
    (hcontext : c.context = .callString) (hcheck : p.check = .ok ())
    (haffinity : ∀ n ∈ p.nodes, n.affinity = none) (hclosed : p.Closed) (calls : CallGraph) :
    ∃ s, a.analyze p calls = .ok (.callString s) := by
  obtain rfl := eq_of_ofConfig hconfig
  have hpolicy := (CallStringPolicy.mk calls a.config.kLimit).joinsNothing hcheck haffinity
  obtain ⟨s, hs⟩ := a.exists_analyzeWith hcheck haffinity hclosed hpolicy
  refine ⟨s, ?_⟩
  rw [analyze, hcontext]
  dsimp only
  rw [hs]
  rfl

/-- Two objects that stand in the table in each other's place. The first one is the pointer 4 as a
whole, and the memory that is not known has the second one's fields. -/
def swapped : AssignmentGraph where
  nodes := AssignmentGraph.empty.nodes.modify blackHole ({ · with memObj := some 1 }) ++
    #[⟨4, .value, some .constant, some 0, 0, none⟩,
      ⟨5, .baseObject, some .constant, some 1, 0, none⟩,
      ⟨6, .fieldObject, some .constant, some 1, ⟨1⟩, none⟩,
      ⟨7, .value, some .constant, none, 0, none⟩, ⟨8, .value, some .inlineAsm, none, 0, none⟩]
  edges :=
    #[⟨0, .addr, 5, 7, 0, none⟩, ⟨1, .addr, blackHole, 7, 0, none⟩, ⟨2, .field, 7, 8, ⟨1⟩, none⟩,
    ⟨3, .store, 7, 8, 0, none⟩, ⟨4, .load, 8, 7, 0, none⟩, ⟨5, .call, 7, 8, 0, none⟩]
  memObjs := #[⟨1, 5, 2, none, false, true, false⟩, ⟨0, 4, 2, none, false, true, true⟩]

theorem analyze_succeeds_swapped :
    ofConfig .default = .ok ⟨.default⟩ ∧ Config.default.context = .callString ∧
      swapped.check = .ok () ∧ (∀ n ∈ swapped.nodes, n.affinity = none) ∧ swapped.Closed ∧
      ∃ s, Analyzer.analyze ⟨.default⟩ swapped .empty = .ok (.callString s) := by
  have hcheck : swapped.check = .ok () := by decide +kernel
  have haffinity : ∀ n ∈ swapped.nodes, n.affinity = none := by decide +kernel
  have hclosed : swapped.Closed := ⟨by decide +kernel, by decide +kernel⟩
  exact ⟨rfl, rfl, hcheck, haffinity, hclosed,
    analyze_succeeds_of_closed (c := .default) rfl rfl hcheck haffinity hclosed .empty⟩

/-- One object, whose id is not its position in the table. -/
def misnumbered : AssignmentGraph where
  nodes := AssignmentGraph.empty.nodes.push ⟨4, .value, some .constant, some 1, 0, none⟩
  edges := #[]
  memObjs := #[⟨1, 4, 1, none, false, true, true⟩]

/-- Why an analysis has no solution, if it has none. -/
def failure? {α : Type} : Except Failure α → Option Failure
  | .error f => some f
  | .ok _ => none

theorem eq_error_of_failure? {α : Type} {r : Except Failure α} {f : Failure}
    (h : failure? r = some f) : r = .error f := by
  cases r with
  | error f' => exact congrArg Except.error (Option.some.inj h)
  | ok a => cases h

/-- The solver sets out to fold the fields of the object with the id 1, and there is none. -/
theorem analyze_halts_misnumbered :
    ofConfig .default = .ok ⟨.default⟩ ∧ Config.default.context = .callString ∧
      misnumbered.check = .ok () ∧ (∀ n ∈ misnumbered.nodes, n.affinity = none) ∧
      Analyzer.analyze ⟨.default⟩ misnumbered .empty =
        .error (.halted (.fault (.outOfBounds 1 1))) :=
  ⟨rfl, rfl, by decide +kernel, by decide +kernel, eq_error_of_failure? (by decide +kernel)⟩

end Analyzer

end PointerAnalysis
