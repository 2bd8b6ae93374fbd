import Mathlib.Tactic.Common
import PointerAnalysis.Solver.Run

/-!
Total correctness of computations on the state of a solver. A computation yields a property at a
state if it runs there without a fault and within its fuel, and its result and the state it leaves
have the property. One rule for each way of putting computations together lets such statements be
proved step by step.
-/

namespace PointerAnalysis

namespace Solver

variable {C : Type} [Context C] {α β : Type}

/-- The computation succeeds, and `Q` holds of its result and of the state it leaves. -/
def Yields (m : SolverM C α) (s : Solver C) (Q : α → Solver C → Prop) : Prop :=
  ∃ a s', m s = .ok a s' ∧ Q a s'

variable {m : SolverM C α} {s : Solver C} {Q : α → Solver C → Prop}

theorem Yields.mono {Q' : α → Solver C → Prop} (h : Yields m s Q) (hQ : ∀ a s', Q a s' → Q' a s') :
    Yields m s Q' := by
  obtain ⟨a, s', hok, hq⟩ := h
  exact ⟨a, s', hok, hQ a s' hq⟩

@[simp] theorem yields_pure (a : α) : Yields (pure a) s Q ↔ Q a s := by
  constructor
  · rintro ⟨_, _, hok, hq⟩
    cases hok
    exact hq
  · exact fun h => ⟨a, s, rfl, h⟩

theorem yields_bind {f : α → SolverM C β} {Q : β → Solver C → Prop} :
    Yields (m >>= f) s Q ↔ Yields m s fun a s' => Yields (f a) s' Q := by
  constructor
  · rintro ⟨b, s'', hok, hq⟩
    cases hm : m s with
    | ok a s' =>
        refine ⟨a, s', hm, b, s'', ?_, hq⟩
        simpa [bind, EStateM.bind, hm] using hok
    | error e s' => simp [bind, EStateM.bind, hm] at hok
  · rintro ⟨a, s', hm, b, s'', hok, hq⟩
    exact ⟨b, s'', by simpa [bind, EStateM.bind, hm] using hok, hq⟩

@[simp] theorem yields_map {f : α → β} {Q : β → Solver C → Prop} :
    Yields (f <$> m) s Q ↔ Yields m s fun a s' => Q (f a) s' := by
  simp only [← bind_pure_comp, yields_bind, yields_pure]

theorem Yields.bind {f : α → SolverM C β} {Q' : β → Solver C → Prop} (h : Yields m s Q)
    (hf : ∀ a s', Q a s' → Yields (f a) s' Q') : Yields (m >>= f) s Q' :=
  yields_bind.mpr (h.mono hf)

@[simp] theorem yields_get {Q : Solver C → Solver C → Prop} :
    Yields (get : SolverM C (Solver C)) s Q ↔ Q s s := by
  constructor
  · rintro ⟨_, _, hok, hq⟩
    cases hok
    exact hq
  · exact fun h => ⟨s, s, rfl, h⟩

@[simp] theorem yields_set (t : Solver C) {Q : PUnit → Solver C → Prop} :
    Yields (set t : SolverM C PUnit) s Q ↔ Q ⟨⟩ t := by
  constructor
  · rintro ⟨_, _, hok, hq⟩
    cases hok
    exact hq
  · exact fun h => ⟨⟨⟩, t, rfl, h⟩

@[simp] theorem yields_modify (f : Solver C → Solver C) {Q : PUnit → Solver C → Prop} :
    Yields (modify f : SolverM C PUnit) s Q ↔ Q ⟨⟩ (f s) := by
  constructor
  · rintro ⟨_, _, hok, hq⟩
    cases hok
    exact hq
  · exact fun h => ⟨⟨⟩, f s, rfl, h⟩

@[simp] theorem yields_count (f : SolverStats → SolverStats) {Q : PUnit → Solver C → Prop} :
    Yields (count f : SolverM C Unit) s Q ↔ Q ⟨⟩ { s with stats := f s.stats } :=
  yields_modify _

theorem yields_orHalt {r : Except Fault α} {a : α} (h : r = .ok a) :
    Yields (orHalt r : SolverM C α) s Q ↔ Q a s := by
  subst h
  exact yields_pure a

@[simp] theorem yields_rep (n : NodeId) {Q : NodeId → Solver C → Prop} :
    Yields (rep n : SolverM C NodeId) s Q ↔ Q (s.graph.rep n) s := by
  simp only [rep, yields_bind, yields_get, yields_pure]

@[simp] theorem yields_discard {Q : PUnit → Solver C → Prop} :
    Yields (discard m) s Q ↔ Yields m s fun _ s' => Q ⟨⟩ s' := by
  have h : discard m = m >>= fun _ => pure ⟨⟩ := rfl
  simp only [h, yields_bind, yields_pure]

theorem yields_edge {e : EdgeId} {c : Constraint} (h : s.graph.edge? e = some c)
    {Q : Constraint → Solver C → Prop} : Yields (edge e : SolverM C Constraint) s Q ↔ Q c s := by
  rw [edge, yields_bind, yields_get, yields_orHalt (a := c) (by simp [ConstraintGraph.edge, h])]

theorem yields_onGraph {f : ConstraintGraph C → Except Fault (α × ConstraintGraph C)} {a : α}
    {g : ConstraintGraph C} (h : f s.graph = .ok (a, g)) :
    Yields (onGraph f) s Q ↔ Q a { s with graph := g } := by
  simp only [onGraph, yields_bind, yields_get, yields_orHalt h, yields_modify, yields_pure]

/-! ## Loops -/

/-- A loop whose rounds keep a property. -/
theorem Yields.forM_of_keeps {P : Solver C → Prop} {f : α → SolverM C PUnit} (hs : P s)
    (xs : List α) (h : ∀ x ∈ xs, ∀ t, P t → Yields (f x) t fun _ u => P u) :
    Yields (xs.forM f) s fun _ t => P t := by
  induction xs generalizing s with
  | nil => exact ⟨⟨⟩, s, rfl, hs⟩
  | cons x xs ih =>
      change Yields (f x >>= fun _ => xs.forM f) s _
      refine (h x List.mem_cons_self s hs).bind fun _ t ht => ?_
      exact ih ht fun y hy => h y (List.mem_cons_of_mem x hy)

section Loops

variable {I : Solver C → Prop} {R : Solver C → Solver C → Prop} (hrefl : ∀ s, R s s)
  (htrans : ∀ {s t u}, R s t → R t u → R s u) (hI : ∀ {s t}, I s → R s t → I t)
include hrefl htrans hI

/-- A loop, if each round is related to the one before and what it establishes lasts, as long as an
invariant holds. -/
theorem Yields.forM {f : α → SolverM C PUnit} {P : α → Solver C → Prop} (hs : I s)
    (hpost : ∀ x {s t}, I s → R s t → P x s → P x t) (xs : List α)
    (h : ∀ x ∈ xs, ∀ t, I t → R s t → Yields (f x) t fun _ u => R t u ∧ P x u) :
    Yields (xs.forM f) s fun _ u => R s u ∧ ∀ x ∈ xs, P x u := by
  induction xs generalizing s with
  | nil => exact ⟨⟨⟩, s, rfl, hrefl s, by simp⟩
  | cons x xs ih =>
      change Yields (f x >>= fun _ => xs.forM f) s _
      refine (h x List.mem_cons_self s hs (hrefl s)).bind fun _ t ⟨hst, hx⟩ => ?_
      have ht := hI hs hst
      refine (ih ht fun y hy u hu htu =>
        h y (List.mem_cons_of_mem x hy) u hu (htrans hst htu)).mono ?_
      rintro _ u ⟨htu, hxs⟩
      refine ⟨htrans hst htu, fun y hy => ?_⟩
      rcases List.mem_cons.mp hy with rfl | hy
      · exact hpost y ht htu hx
      · exact hxs y hy

/-- A loop that collects results. -/
theorem Yields.mapM {f : α → SolverM C β} {P : α → β → Solver C → Prop} (hs : I s)
    (hpost : ∀ x y {s t}, I s → R s t → P x y s → P x y t) (xs : List α)
    (h : ∀ x ∈ xs, ∀ t, I t → R s t → Yields (f x) t fun y u => R t u ∧ P x y u) :
    Yields (xs.mapM f) s fun ys u => R s u ∧ (∀ x ∈ xs, ∃ y ∈ ys, P x y u) ∧
      ∀ y ∈ ys, ∃ x ∈ xs, P x y u := by
  induction xs generalizing s with
  | nil => exact ⟨[], s, rfl, hrefl s, by simp, by simp⟩
  | cons x xs ih =>
      rw [List.mapM_cons]
      refine (h x List.mem_cons_self s hs (hrefl s)).bind fun y t ⟨hst, hxy⟩ => ?_
      have ht := hI hs hst
      refine (ih ht fun z hz u hu htu =>
        h z (List.mem_cons_of_mem x hz) u hu (htrans hst htu)).bind ?_
      rintro ys u ⟨htu, hxs, hys⟩
      refine (yields_pure _).mpr ⟨htrans hst htu, fun z hz => ?_, fun z hz => ?_⟩
      · rcases List.mem_cons.mp hz with rfl | hz
        · exact ⟨y, List.mem_cons_self, hpost z y ht htu hxy⟩
        · obtain ⟨w, hw, hzw⟩ := hxs z hz
          exact ⟨w, List.mem_cons_of_mem y hw, hzw⟩
      · rcases List.mem_cons.mp hz with rfl | hz
        · exact ⟨x, List.mem_cons_self, hpost x z ht htu hxy⟩
        · obtain ⟨w, hw, hwz⟩ := hys z hz
          exact ⟨w, List.mem_cons_of_mem x hw, hwz⟩

end Loops

end Solver

end PointerAnalysis
