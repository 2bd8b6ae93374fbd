import Mathlib.Order.Bounds.Basic
import PointerAnalysis.Proofs.Solver.Fixpoint
import PointerAnalysis.Proofs.Solver.Model

/-!
Exact points-to sets. Without projections the constraints of a program are inclusions between sets,
and there is a least family of sets that satisfies them. That family is what every strategy
computes: a run ends in a family that satisfies them, and every such family is a model.
-/

namespace PointerAnalysis

variable {C : Type} [Context C] {cg : ContextGraph C}

/-- A family of sets that satisfies the inclusions which the edges of a context graph ask for. -/
structure Includes (cg : ContextGraph C) (P : NodeId → Set NodeId) : Prop where
  addr : ∀ e ∈ cg.edges, e.kind = .addr → e.src ∈ P e.dst
  copy : ∀ e ∈ cg.edges, e.kind = .copy ∨ e.kind = .call ∨ e.kind = .ret → P e.src ⊆ P e.dst
  load : ∀ e ∈ cg.edges, e.kind = .load → ∀ o ∈ P e.src, cg.Dereferenceable o → P o ⊆ P e.dst
  store : ∀ e ∈ cg.edges, e.kind = .store → ∀ o ∈ P e.dst, cg.Dereferenceable o → P e.src ⊆ P o
  fold_eq : ∀ f, cg.IsField f → cg.WholeAt f → P f = P (cg.home f)
  fold_mem : ∀ f, cg.IsField f → cg.WholeAt f → ∀ n, f ∈ P n → cg.home f ∈ P n

namespace Includes

variable {P : NodeId → Set NodeId}

theorem eq_home (h : Includes cg P) (hcg : cg.WellFormed) {n : NodeId} (hw : cg.WholeAt n) :
    P n = P (cg.home n) := by
  by_cases hfield : cg.IsField n
  · exact h.fold_eq n hfield hw
  · obtain ⟨mem, hpart, -⟩ := hw
    rw [hcg.home_of_not_isField hpart.lt hfield]

theorem home_mem (h : Includes cg P) (hcg : cg.WellFormed) {n f : NodeId} (hw : cg.WholeAt f)
    (hf : f ∈ P n) : cg.home f ∈ P n := by
  by_cases hfield : cg.IsField f
  · exact h.fold_mem f hfield hw n hf
  · obtain ⟨mem, hpart, -⟩ := hw
    rwa [hcg.home_of_not_isField hpart.lt hfield]

end Includes

namespace Valuation

/-- A family of sets as a valuation: only copies of input nodes hold anything. -/
def ofSets (cg : ContextGraph C) (P : NodeId → Set NodeId) : Valuation C where
  holds x o := ∃ n m, x = .inl n ∧ o = .inl m ∧ m ∈ P n
  below x y := ∀ n, x = .inl n → ∃ m, y = .inl m ∧ P n ⊆ P m
  whole := cg.IsWhole
  real x := ∃ n, x = .inl n

theorem flows_ofSets {P : NodeId → Set NodeId} {n m : NodeId} (h : P n ⊆ P m) :
    (ofSets cg P).Flows (.inl n) (.inl m) := by
  refine ⟨?_, ?_⟩
  · rintro _ ⟨⟩
    exact ⟨m, rfl, h⟩
  · rintro _ ⟨_, o, ⟨⟩, rfl, ho⟩
    exact ⟨m, o, rfl, rfl, h ho⟩

theorem alike_ofSets {P : NodeId → Set NodeId} {n m : NodeId} (h : P n = P m) :
    (ofSets cg P).Alike (.inl n) (.inl m) :=
  ⟨(flows_ofSets h.subset).1, (flows_ofSets h.symm.subset).1⟩

theorem isModel_ofSets (hcg : cg.WellBuilt)
    (hplain : ∀ e ∈ cg.edges, e.kind ≠ .field ∧ e.kind ≠ .anyField) {P : NodeId → Set NodeId}
    (hP : Includes cg P) : (ofSets cg P).IsModel cg where
  below_refl x n hx := ⟨n, hx, subset_rfl⟩
  below_trans x y z hxy hyz n hn := by
    obtain ⟨m, hm, hnm⟩ := hxy n hn
    obtain ⟨k, hk, hmk⟩ := hyz m hm
    exact ⟨k, hk, hnm.trans hmk⟩
  holds_of_alike := by
    rintro x y o ⟨hxy, -⟩ ⟨n, m, hn, rfl, hm⟩
    obtain ⟨k, hk, hsub⟩ := hxy n hn
    exact ⟨k, m, hk, rfl, hsub hm⟩
  fold_below := by
    rintro _ mem ⟨n, rfl⟩ hpart hwhole
    exact alike_ofSets (hP.eq_home hcg.toWellFormed ⟨mem, hpart, hwhole⟩)
  fold_holds := by
    rintro _ _ mem - hpart hwhole ⟨n, m, rfl, rfl, hm⟩
    exact ⟨n, _, rfl, rfl, hP.home_mem hcg.toWellFormed ⟨mem, hpart, hwhole⟩ hm⟩
  real n _ := ⟨n, rfl⟩
  whole _ h := h
  edges e he := by
    have hderef : ∀ m, ¬ Place.Inert cg (.inl m) → cg.Dereferenceable m := fun m hm => by
      refine (ContextGraph.dereferenceable_iff hcg.toWellFormed).mpr fun hinert => hm ?_
      exact hinert.imp_left fun heq => by rw [heq]
    have hcopy : P e.src ⊆ P e.dst → (ofSets cg P).Admits cg .copy (.inl e.src) (.inl e.dst) :=
      fun hsub => ⟨fun _ => (flows_ofSets hsub).1, fun hk => absurd hk Bool.false_ne_true,
        (flows_ofSets hsub).2⟩
    cases hkind : e.kind with
    | addr => exact ⟨nofun, nofun, _, _, rfl, rfl, hP.addr e he hkind⟩
    | copy => exact hcopy (hP.copy e he (.inl hkind))
    | call => exact hcopy (hP.copy e he (.inr (.inl hkind)))
    | ret => exact hcopy (hP.copy e he (.inr (.inr hkind)))
    | fork => exact absurd hkind (hcg.threads e he).1
    | join => exact absurd hkind (hcg.threads e he).2
    | field => exact absurd hkind (hplain e he).1
    | anyField => exact absurd hkind (hplain e he).2
    | load =>
        refine ⟨nofun, nofun, ?_⟩
        rintro _ ⟨_, m, ⟨⟩, rfl, hm⟩ hinert
        exact flows_ofSets (hP.load e he hkind m hm (hderef m hinert))
    | store =>
        refine ⟨nofun, nofun, ?_⟩
        rintro _ ⟨_, m, ⟨⟩, rfl, hm⟩ hinert
        exact flows_ofSets (hP.store e he hkind m hm (hderef m hinert))

end Valuation

namespace Solver

variable {g : ConstraintGraph C} {strategy : Strategy} {s : Solver C}

section plain

variable (h : Solved cg g strategy s) (hcg : cg.WellBuilt)
  (hplain : ∀ e ∈ cg.edges, e.kind ≠ .field ∧ e.kind ≠ .anyField)

include h hcg hplain

/-- A run finds nothing that is not in every family of sets that satisfies the inclusions. -/
theorem Solved.mem_of_includes {P : NodeId → Set NodeId} (hP : Includes cg P) {n o : NodeId}
    (ho : o ∈ s.pointsTo n) : n < cg.nodes.size ∧ o < cg.nodes.size ∧ o ∈ P n := by
  have hwf := h.wellFormed
  have hV := Valuation.isModel_ofSets hcg hplain hP
  have hsound := h.sound hcg hV
  have hn := hwf.lt_of_mem_pointsTo ho
  -- no field has been made
  have hlt : ∀ m, m < s.graph.slots.size → m < cg.nodes.size ∧
      s.graph.contexts.place m = .inl m := by
    intro m hm
    obtain ⟨k, hreal⟩ := hsound.real m hm
    rw [hwf.graph.size_eq] at hm
    rcases hsound.grew.node_cases hm with hm | ⟨node, mem, -, -, -, -, hplace⟩
    · exact hm
    · rw [hplace] at hreal
      cases hreal
  have holds := hsound.holds_of_mem hV hn ho
  rw [(hlt n hn).2, (hlt o (hwf.target_lt ho)).2] at holds
  obtain ⟨_, _, ⟨⟩, ⟨⟩, hin⟩ := holds
  exact ⟨(hlt n hn).1, (hlt o (hwf.target_lt ho)).1, hin⟩

/-- The sets in which a run ends satisfy the inclusions. -/
theorem Solved.includes : Includes cg fun n => {o | o ∈ s.pointsTo n} := by
  have hcomplete : Complete s := h.complete fun _ n hn => by
    obtain ⟨e, he, hstutters, -⟩ := h.exists_stutters hn
    exact (hplain e he).1 hstutters.1
  have hpassed := hcomplete.passedBut fun _ => False
  have hwf := h.wellFormed
  have hext := h.reflects.contexts
  have hhome : ∀ f, cg.WholeAt f → s.graph.contexts.home f = cg.home f := fun f hw =>
    hext.home_eq hcg.toWellFormed hwf.contexts (hw.elim fun _ hw => hw.1.lt)
  have hinert : ∀ n, ∀ o ∈ s.pointsTo n, cg.Dereferenceable o → ¬ s.graph.contexts.Inert o := by
    intro n o ho hderef
    have huniv : Includes cg fun _ => Set.univ := by constructor <;> simp
    have hlt := (h.mem_of_includes hcg hplain huniv ho).2.1
    rw [hext.inert_iff hlt]
    exact (ContextGraph.dereferenceable_iff hcg.toWellFormed).mp hderef
  refine ⟨fun e he hkind => h.seeded e he hkind, ?_, ?_, ?_, ?_, ?_⟩
  · intro e he hkind
    have hcopy : ConstraintKind.ofEdge e.kind e.offset = .copy := by
      rcases hkind with hk | hk | hk <;> rw [hk] <;> rfl
    exact hcomplete.subset_of_linked (h.reflects.linked_of_copy he hcopy)
  · intro e he hkind o ho hderef
    have hload : ConstraintKind.ofEdge e.kind e.offset = .load := by rw [hkind]; rfl
    have hinert := hinert _ o ho hderef
    exact hcomplete.subset_of_linked (h.reflects.linked_of_load he hwf hpassed hload ho hinert)
  · intro e he hkind o ho hderef
    have hstore : ConstraintKind.ofEdge e.kind e.offset = .store := by rw [hkind]; rfl
    have hinert := hinert _ o ho hderef
    exact hcomplete.subset_of_linked (h.reflects.linked_of_store he hwf hpassed hstore ho hinert)
  · intro f _ hw
    have hrep := hcomplete.folded.rep_home (hext.wholeAt hw)
    rw [hhome f hw] at hrep
    simp only [pointsTo, hrep]
  · intro f _ hw n hf
    have hin := hcomplete.folded.home_mem hf (hext.wholeAt hw)
    rwa [hhome f hw] at hin

/-- A run computes the least family of sets that satisfies the inclusions. -/
theorem Solved.isLeast : IsLeast {P | Includes cg P} fun n => {o | o ∈ s.pointsTo n} :=
  ⟨h.includes hcg hplain, fun _ hP _ _ ho => (h.mem_of_includes hcg hplain hP ho).2.2⟩

end plain

/-! ## Programs without projections -/

/-- `p = &a.x; q = p; *p = q; r = *q; q = r`, with the node 4 for the object `a`, 5 for its field
`x`, and 6, 7 and 8 for the pointers. -/
def folding : AssignmentGraph :=
  let g := (AssignmentGraph.empty.addObject .constant 2).2
  let g := (g.pushNode .fieldObject (some .constant) (some 0) ⟨1⟩).2
  let g := (g.addValue .constant).2
  let g := (g.addValue .constant).2
  let g := (g.addValue .constant).2
  let g := (g.addEdge .addr 5 6).2
  let g := (g.addEdge .copy 6 7).2
  let g := (g.addEdge .store 7 6).2
  let g := (g.addEdge .load 7 8).2
  (g.addEdge .copy 8 7).2

theorem built_folding : folding.Built :=
  have h := AssignmentGraph.Built.empty.addObject .constant 2
  have hok : AssignmentGraph.addField _ 4 ⟨1⟩ = .ok (5, _) := rfl
  have h := (((h.addField hok).addValue .constant).addValue .constant).addValue .constant
  have h := (h.pushEdge .addr 5 6 0 none).pushEdge .copy 6 7 0 none
  have h := (h.pushEdge .store 7 6 0 none).pushEdge .load 7 8 0 none
  h.pushEdge .copy 8 7 0 none

section results

variable {p : AssignmentGraph} {policy : ContextPolicy C} {fieldSensitive : Bool}

/-- Without projections, every strategy ends with the least sets that satisfy the inclusions, so all
strategies end with the same. -/
theorem exact_of_no_projection (hp : p.Built) (hcheck : p.check = .ok ())
    (hplain : ∀ e ∈ p.edges, e.kind ≠ .field ∧ e.kind ≠ .anyField)
    (hbuild : ContextGraph.build policy p fieldSensitive = .ok cg) :
    ∃ P, IsLeast {P | Includes cg P} P ∧
      ∀ strategy, ∃ s, Outcome cg strategy s ∧ ∀ n o, o ∈ s.pointsTo n ↔ o ∈ P n := by
  obtain ⟨hcg, hedges⟩ := ContextGraph.build_wellBuilt hp hcheck hbuild
  have hplain : ∀ e ∈ cg.edges, e.kind ≠ .field ∧ e.kind ≠ .anyField := fun e he => by
    obtain ⟨pe, hpe, hkind, -⟩ := hedges e he
    exact hkind ▸ hplain pe hpe
  obtain ⟨_, t, -, ht⟩ := exists_outcome hcg .baseline
  have hleast := ht.isLeast hcg hplain
  refine ⟨_, hleast, fun strategy => ?_⟩
  obtain ⟨_, s, houtcome, hs⟩ := exists_outcome hcg strategy
  refine ⟨s, houtcome, fun n o => ?_⟩
  have hsame := (hs.isLeast hcg hplain).unique hleast
  exact Set.ext_iff.mp (congrFun hsame n) o

theorem exact_of_no_projection_folding :
    ∃ cg P, ContextGraph.build insensitive folding false = .ok cg ∧ IsLeast {P | Includes cg P} P ∧
      ∀ strategy, ∃ s, Outcome cg strategy s ∧ ∀ n o, o ∈ s.pointsTo n ↔ o ∈ P n := by
  have hcheck : folding.check = .ok () := by decide +kernel
  have hplain : ∀ e ∈ folding.edges, e.kind ≠ .field ∧ e.kind ≠ .anyField := by decide +kernel
  have hbuild : (outcome? insensitive folding false .baseline).any (fun _ => true) = true := by
    decide +kernel
  obtain ⟨cg, -, hbuild, -⟩ := exists_outcome_of_any hbuild
  obtain ⟨P, hP⟩ := exact_of_no_projection built_folding hcheck hplain hbuild
  exact ⟨cg, P, hbuild, hP⟩

end results

end Solver

end PointerAnalysis
