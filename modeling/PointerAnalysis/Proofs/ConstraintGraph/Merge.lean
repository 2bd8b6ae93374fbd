import PointerAnalysis.ConstraintGraph.Merge
import PointerAnalysis.Proofs.ConstraintGraph.Consistent

/-!
Merging two nodes of a constraint graph. The constraints of the merged graph are those of the old
one with the merged node renamed to its representative, without the address constraints of the
merged node and without the direct constraints between it and the group that is being merged.
-/

namespace PointerAnalysis

namespace Constraint

/-- The constraint between the images of the end points. -/
def rename (f : NodeId → NodeId) (c : Constraint) : Constraint := ⟨f c.src, f c.dst, c.kind⟩

/-- The constraint with its end at one side moved to another node. -/
def withNear (c : Constraint) (side : Side) (n : NodeId) : Constraint :=
  match side with
  | .incoming => { c with dst := n }
  | .outgoing => { c with src := n }

/-- Whether a constraint is moved when the node at one of its ends is merged into `rep`, rather than
dropped. -/
def Stays (rep : NodeId) (members : IdSet) (side : Side) (c : Constraint) : Prop :=
  match c.kind.edgeClass with
  | .addr => False
  | .load | .store => True
  | .direct => c.farEnd side ≠ rep ∧ c.farEnd side ∉ members

instance (rep : NodeId) (members : IdSet) (side : Side) (c : Constraint) :
    Decidable (c.Stays rep members side) := by
  unfold Stays
  split <;> infer_instance

@[simp] theorem kind_withNear (c : Constraint) (side : Side) (n : NodeId) :
    (c.withNear side n).kind = c.kind := by
  cases side <;> rfl

@[simp] theorem nearEnd_withNear (c : Constraint) (side : Side) (n : NodeId) :
    (c.withNear side n).nearEnd side = n := by
  cases side <;> rfl

/-- Of the constraints inside the group only those stay that are moved whatever their ends are. -/
theorem stays_of_mem {rep : NodeId} {members : IdSet} {side : Side} {c c' : Constraint}
    (hfar : c.farEnd side ∈ members) (h : c.Stays rep members side) (hkind : c'.kind = c.kind)
    (side' : Side) : c'.Stays rep members side' := by
  cases hcls : c.kind.edgeClass <;> simp only [Stays, hcls] at h
  case direct => exact absurd hfar h.2
  all_goals simp [Stays, hkind, hcls]

end Constraint

namespace ConstraintGraph

variable {C : Type} [Context C]

/-! ## Moving constraints -/

/-- What moving constraints from a side of `sub` to `rep` does, if `P` tells which ones are moved:
the others keep their ids, and those that stay are attached to `rep`. -/
structure Moves (g g' : ConstraintGraph C) (side : Side) (rep : NodeId) (members : IdSet)
    (P : Constraint → Prop) : Prop where
  same : SameNodes g g'
  indexed : g'.Indexed
  fresh : Fresh g g'
  kept : ∀ e c, g.edge? e = some c → ¬ P c → g'.edge? e = some c
  has_iff : ∀ c, g'.Has c ↔ g.Has c ∧ ¬ P c ∨
    ∃ c₀, g.Has c₀ ∧ P c₀ ∧ c₀.Stays rep members side ∧ c = c₀.withNear side rep

/-- Whether a shifting constraint among those that `P` tells is dropped. -/
def DropsShifting (g : ConstraintGraph C) (side : Side) (rep : NodeId) (members : IdSet)
    (P : Constraint → Prop) : Prop :=
  ∃ c, g.Has c ∧ P c ∧ c.kind.edgeClass = .direct ∧ ¬ c.Stays rep members side ∧ c.kind.isShifting

theorem Moves.none (g : ConstraintGraph C) (hg : g.Indexed) (side : Side) (rep : NodeId)
    (members : IdSet) {P : Constraint → Prop} (hP : ∀ c, g.Has c → ¬ P c) :
    Moves g g side rep members P where
  same := .refl g
  indexed := hg
  fresh := .refl g
  kept _ _ h _ := h
  has_iff c := by
    constructor
    · exact fun h => .inl ⟨h, hP c h⟩
    · rintro (⟨h, -⟩ | ⟨c₀, h, hc₀, -⟩)
      · exact h
      · exact absurd hc₀ (hP c₀ h)

variable {g : ConstraintGraph C} {side : Side} {rep sub : NodeId} {members : IdSet}

/-- Moving first some and then others is moving both, if what was moved first is not moved again. -/
theorem Moves.trans {g₁ g₂ : ConstraintGraph C} {P Q : Constraint → Prop}
    (h₁ : Moves g g₁ side rep members P) (h₂ : Moves g₁ g₂ side rep members Q)
    (hQ : ∀ c : Constraint, Q (c.withNear side rep) → False) :
    Moves g g₂ side rep members fun c => P c ∨ Q c where
  same := h₁.same.trans h₂.same
  indexed := h₂.indexed
  fresh := h₁.fresh.trans h₂.fresh
  kept e c h hPQ := h₂.kept e c (h₁.kept e c h fun hp => hPQ (.inl hp)) fun hq => hPQ (.inr hq)
  has_iff c := by
    rw [h₂.has_iff]
    simp only [h₁.has_iff]
    constructor
    · rintro (⟨⟨h, hp⟩ | ⟨c₀, h, hp, hs, rfl⟩, hq⟩ |
        ⟨c₀, ⟨h, hp⟩ | ⟨c₁, h, hp, hs, rfl⟩, hq, hs', rfl⟩)
      · exact .inl ⟨h, by tauto⟩
      · exact .inr ⟨c₀, h, .inl hp, hs, rfl⟩
      · exact .inr ⟨c₀, h, .inr hq, hs', rfl⟩
      · exact (hQ c₁ hq).elim
    · rintro (⟨h, hpq⟩ | ⟨c₀, h, hpq, hs, rfl⟩)
      · exact .inl ⟨.inl ⟨h, by tauto⟩, by tauto⟩
      · by_cases hp : P c₀
        · exact .inl ⟨.inr ⟨c₀, h, hp, hs, rfl⟩, fun hq => hQ c₀ hq⟩
        · exact .inr ⟨c₀, .inl ⟨h, hp⟩, hpq.resolve_left hp, hs, rfl⟩

theorem Moves.dropsShifting_or {g₁ : ConstraintGraph C} {P Q : Constraint → Prop}
    (h₁ : Moves g g₁ side rep members P) (hQ : ∀ c : Constraint, Q (c.withNear side rep) → False) :
    g.DropsShifting side rep members P ∨ g₁.DropsShifting side rep members Q ↔
      g.DropsShifting side rep members fun c => P c ∨ Q c := by
  constructor
  · rintro (⟨c, h, hp, rest⟩ | ⟨c, h, hq, rest⟩)
    · exact ⟨c, h, .inl hp, rest⟩
    · rcases (h₁.has_iff c).mp h with ⟨h, -⟩ | ⟨c₀, -, -, -, rfl⟩
      · exact ⟨c, h, .inr hq, rest⟩
      · exact (hQ c₀ hq).elim
  · rintro ⟨c, h, hpq, rest⟩
    by_cases hp : P c
    · exact .inl ⟨c, h, hp, rest⟩
    · exact .inr ⟨c, (h₁.has_iff c).mpr (.inl ⟨h, hp⟩), hpq.resolve_left hp, rest⟩

section one

variable {e : EdgeId} {c : Constraint}

/-- Removing a constraint takes away nothing else. -/
theorem removeEdge_has (hg : g.Intact) (he : g.edge? e = some c) :
    ∃ g', g.removeEdge e = .ok (c, g') ∧ SameNodes g g' ∧ g'.Indexed ∧ Fresh g g' ∧
      (∀ e' c', g.edge? e' = some c' → c' ≠ c → g'.edge? e' = some c') ∧
      ∀ c', g'.Has c' ↔ g.Has c' ∧ c' ≠ c := by
  obtain ⟨g', hok, hsame, hindexed, hsize, hedge⟩ := removeEdge_spec hg.toIndexed he
  have hkept : ∀ e' c', g.edge? e' = some c' → c' ≠ c → g'.edge? e' = some c' := by
    intro e' c' he' hc
    refine (hedge e' c').mpr ⟨he', ?_⟩
    rintro rfl
    exact hc (Option.some.inj (he'.symm.trans he))
  have hfresh : Fresh g g' :=
    ⟨Nat.le_of_eq hsize.symm, fun e' c' he' => .inl ((hedge e' c').mp he').1⟩
  refine ⟨g', hok, hsame, hindexed, hfresh, hkept, fun c' => ?_⟩
  constructor
  · rintro ⟨e', he'⟩
    obtain ⟨he', hne'⟩ := (hedge e' c').mp he'
    exact ⟨⟨e', he'⟩, fun hc => hne' (hg.unique e' e c (hc ▸ he') he)⟩
  · rintro ⟨⟨e', he'⟩, hc⟩
    exact ⟨e', hkept e' c' he' hc⟩

/-- Adding a constraint between live nodes that does not copy a node to itself. -/
theorem addEdge_of_isLive (hg : g.Intact) {src dst : NodeId} {kind : ConstraintKind}
    (hsrc : g.isLive src) (hdst : g.isLive dst) (hne : kind = .copy → src ≠ dst) :
    ∃ r g', g.addEdge src dst kind = .ok (r, g') ∧ SameNodes g g' ∧ g'.Indexed ∧ Fresh g g' ∧
      (∀ e c, g.edge? e = some c → g'.edge? e = some c) ∧
      ∀ c, g'.Has c ↔ g.Has c ∨ c = ⟨src, dst, kind⟩ := by
  obtain ⟨r, g', hok, hsame, hindexed, hfresh, hkept, hhas, -, -⟩ :=
    addEdge_spec hg (isLive_lt hsrc) (isLive_lt hdst) kind
  refine ⟨r, g', hok, hsame, hindexed, hfresh, hkept, fun c => ?_⟩
  have hloop : ¬ (kind = .copy ∧ src = dst) := fun h => hne h.1 h.2
  rw [hhas, between, hg.rep_of_isLive src hsrc, hg.rep_of_isLive dst hdst]
  simp only [hloop, not_false_eq_true, and_true]

/-- A constraint that stays is removed and added again at `rep`. -/
theorem retarget_moves (hg : g.Intact) (hrep : g.isLive rep) (he : g.edge? e = some c)
    (hstays : c.Stays rep members side) :
    ∃ r g', g.retarget side e rep = .ok (r, g') ∧ Moves g g' side rep members (· = c) := by
  obtain ⟨g₁, hok₁, hsame₁, hindexed₁, hfresh₁, hkept₁, hhas₁⟩ := removeEdge_has hg he
  have hcons₁ : g₁.Intact := ⟨hsame₁.partitioned hg.toPartitioned, hindexed₁⟩
  have hlive : ∀ n, g.isLive n → g₁.isLive n := fun n hn => by rwa [hsame₁.isLive]
  have hne : c.kind = .copy → c.farEnd side ≠ rep := by
    intro hkind
    simp only [Constraint.Stays, hkind, ConstraintKind.edgeClass] at hstays
    exact hstays.1
  have hadd : ∃ r g₂, g.retarget side e rep = .ok (r, g₂) ∧ SameNodes g₁ g₂ ∧ g₂.Indexed ∧
      Fresh g₁ g₂ ∧ (∀ e c, g₁.edge? e = some c → g₂.edge? e = some c) ∧
      ∀ c', g₂.Has c' ↔ g₁.Has c' ∨ c' = c.withNear side rep := by
    cases side with
    | incoming =>
        obtain ⟨r, g₂, hok, hrest⟩ :=
          addEdge_of_isLive hcons₁ (hlive _ (hg.isLive_src ⟨e, he⟩)) (hlive rep hrep) hne
        exact ⟨r, g₂, by simpa [retarget, hok₁, bind, Except.bind] using hok, hrest⟩
    | outgoing =>
        obtain ⟨r, g₂, hok, hrest⟩ := addEdge_of_isLive hcons₁ (hlive rep hrep)
          (hlive _ (hg.isLive_dst ⟨e, he⟩)) fun hkind => (hne hkind).symm
        exact ⟨r, g₂, by simpa [retarget, hok₁, bind, Except.bind] using hok, hrest⟩
  obtain ⟨r, g₂, hok, hsame₂, hindexed₂, hfresh₂, hkept₂, hhas₂⟩ := hadd
  refine ⟨r, g₂, hok, hsame₁.trans hsame₂, hindexed₂, hfresh₁.trans hfresh₂, ?_, fun c' => ?_⟩
  · exact fun e' c' he' hc => hkept₂ e' c' (hkept₁ e' c' he' hc)
  · rw [hhas₂, hhas₁]
    refine or_congr_right ⟨fun h => ⟨c, ⟨e, he⟩, rfl, hstays, h⟩, ?_⟩
    rintro ⟨c₀, -, rfl, -, h⟩
    exact h

theorem moveEdge_of_stays (hg : g.Intact) (hrep : g.isLive rep) (he : g.edge? e = some c)
    (hstays : c.Stays rep members side) (shifts : Bool) :
    ∃ g', moveEdge side rep members (shifts, g) e = .ok (shifts, g') ∧
      Moves g g' side rep members (· = c) := by
  obtain ⟨r, g', hretarget, hmoves⟩ := retarget_moves hg hrep he hstays
  refine ⟨g', ?_, hmoves⟩
  cases hclass : c.kind.edgeClass <;> simp only [Constraint.Stays, hclass] at hstays
  all_goals
    simp [moveEdge, edge, he, hclass, hretarget, hstays, bind, Except.bind, pure, Except.pure]

theorem moveEdge_of_not_stays (hg : g.Intact) (he : g.edge? e = some c)
    (hstays : ¬ c.Stays rep members side) (shifts : Bool) :
    ∃ g', moveEdge side rep members (shifts, g) e =
        .ok (shifts || c.kind.edgeClass = .direct && c.kind.isShifting, g') ∧
      Moves g g' side rep members (· = c) := by
  obtain ⟨g', hok, hsame, hindexed, hfresh, hkept, hhas⟩ := removeEdge_has hg he
  refine ⟨g', ?_, hsame, hindexed, hfresh, hkept, fun c' => ?_⟩
  · cases hclass : c.kind.edgeClass <;> simp only [Constraint.Stays, hclass] at hstays
    case addr => simp [moveEdge, edge, he, hclass, hok, bind, Except.bind, pure, Except.pure]
    case direct =>
      have hfar : c.farEnd side = rep ∨ c.farEnd side ∈ members := by tauto
      simp [moveEdge, edge, he, hclass, hfar, hok, bind, Except.bind, pure, Except.pure]
    all_goals exact absurd trivial hstays
  · rw [hhas]
    constructor
    · exact .inl
    · rintro (h | ⟨c₀, -, rfl, hs, -⟩)
      · exact h
      · exact absurd hs hstays

/-- Moving one constraint. -/
theorem moveEdge_spec (side : Side) (members : IdSet) (hg : g.Intact) (hrep : g.isLive rep)
    (he : g.edge? e = some c) (shifts : Bool) :
    ∃ shifts' g', moveEdge side rep members (shifts, g) e = .ok (shifts', g') ∧
      Moves g g' side rep members (· = c) ∧
      (shifts' = true ↔ shifts = true ∨ g.DropsShifting side rep members (· = c)) := by
  by_cases hstays : c.Stays rep members side
  · obtain ⟨g', hok, hmoves⟩ := moveEdge_of_stays hg hrep he hstays shifts
    refine ⟨shifts, g', hok, hmoves, .inl, ?_⟩
    rintro (h | ⟨c₀, -, rfl, -, hnot, -⟩)
    · exact h
    · exact absurd hstays hnot
  · obtain ⟨g', hok, hmoves⟩ := moveEdge_of_not_stays hg he hstays shifts
    refine ⟨_, g', hok, hmoves, ?_⟩
    simp only [Bool.or_eq_true, Bool.and_eq_true, decide_eq_true_eq]
    refine or_congr_right ⟨fun h => ⟨c, ⟨e, he⟩, rfl, h.1, hstays, h.2⟩, ?_⟩
    rintro ⟨c₀, -, rfl, hclass, -, h⟩
    exact ⟨hclass, h⟩

end one

theorem Moves.congr {g' : ConstraintGraph C} {P Q : Constraint → Prop}
    (h : Moves g g' side rep members P) (hPQ : ∀ c, g.Has c → (P c ↔ Q c)) :
    Moves g g' side rep members Q where
  same := h.same
  indexed := h.indexed
  fresh := h.fresh
  kept e c he hq := h.kept e c he fun hp => hq ((hPQ c ⟨e, he⟩).mp hp)
  has_iff c := by
    rw [h.has_iff]
    constructor
    · rintro (⟨hc, hp⟩ | ⟨c₀, hc, hp, rest⟩)
      · exact .inl ⟨hc, fun hq => hp ((hPQ c hc).mpr hq)⟩
      · exact .inr ⟨c₀, hc, (hPQ c₀ hc).mp hp, rest⟩
    · rintro (⟨hc, hp⟩ | ⟨c₀, hc, hq, rest⟩)
      · exact .inl ⟨hc, fun hq => hp ((hPQ c hc).mp hq)⟩
      · exact .inr ⟨c₀, hc, (hPQ c₀ hc).mpr hq, rest⟩

theorem DropsShifting.congr {P Q : Constraint → Prop} (hPQ : ∀ c, g.Has c → (P c ↔ Q c)) :
    g.DropsShifting side rep members P ↔ g.DropsShifting side rep members Q := by
  constructor
  · rintro ⟨c, hc, hp, rest⟩
    exact ⟨c, hc, (hPQ c hc).mp hp, rest⟩
  · rintro ⟨c, hc, hq, rest⟩
    exact ⟨c, hc, (hPQ c hc).mpr hq, rest⟩

/-- Moving the constraints of a list of ids, all at the same side of `sub`. -/
theorem foldlM_moveEdge_spec (members : IdSet) (hrep : g.isLive rep) (hne : sub ≠ rep)
    (es : List EdgeId) (hg : g.Intact) (hnodup : es.Nodup)
    (hes : ∀ e ∈ es, ∃ c, g.edge? e = some c ∧ c.nearEnd side = sub) (shifts : Bool) :
    ∃ shifts' g', es.foldlM (moveEdge side rep members) (shifts, g) = .ok (shifts', g') ∧
      Moves g g' side rep members (fun c => ∃ e ∈ es, g.edge? e = some c) ∧
      (shifts' = true ↔ shifts = true ∨
        g.DropsShifting side rep members fun c => ∃ e ∈ es, g.edge? e = some c) := by
  induction es generalizing g shifts with
  | nil =>
      refine ⟨shifts, g, rfl, .none g hg.toIndexed side rep members (by simp), ?_⟩
      simp [DropsShifting]
  | cons e es ih =>
      obtain ⟨hnot, hnodup⟩ := List.nodup_cons.mp hnodup
      obtain ⟨c, he, -⟩ := hes e List.mem_cons_self
      obtain ⟨shifts₁, g₁, hok₁, hmoves₁, hshifts₁⟩ :=
        moveEdge_spec side members hg hrep he shifts
      have hkept : ∀ e' ∈ es, ∀ c', g.edge? e' = some c' → g₁.edge? e' = some c' := by
        intro e' he' c' hedge
        refine hmoves₁.kept e' c' hedge ?_
        rintro rfl
        exact hnot (hg.unique e e' c' he hedge ▸ he')
      have hsame : ∀ c', (∃ e' ∈ es, g₁.edge? e' = some c') ↔ ∃ e' ∈ es, g.edge? e' = some c' := by
        intro c'
        constructor
        · rintro ⟨e', he', hedge⟩
          obtain ⟨c'', hedge', -⟩ := hes e' (List.mem_cons_of_mem e he')
          have := hkept e' he' c'' hedge'
          exact ⟨e', he', by rw [hedge', ← this, hedge]⟩
        · rintro ⟨e', he', hedge⟩
          exact ⟨e', he', hkept e' he' c' hedge⟩
      have hcons₁ : g₁.Intact :=
        ⟨hmoves₁.same.partitioned hg.toPartitioned, hmoves₁.indexed⟩
      obtain ⟨shifts₂, g₂, hok₂, hmoves₂, hshifts₂⟩ :=
        ih (by rwa [hmoves₁.same.isLive]) hcons₁ hnodup (fun e' he' => by
          obtain ⟨c', hedge, hnear'⟩ := hes e' (List.mem_cons_of_mem e he')
          exact ⟨c', hkept e' he' c' hedge, hnear'⟩) shifts₁
      have hagain : ∀ c : Constraint, (∃ e ∈ es, g₁.edge? e = some (c.withNear side rep)) →
          False := by
        intro c' h
        obtain ⟨e', he', hedge⟩ := (hsame _).mp h
        obtain ⟨c'', hedge', hnear'⟩ := hes e' (List.mem_cons_of_mem e he')
        rw [hedge] at hedge'
        cases hedge'
        rw [Constraint.nearEnd_withNear] at hnear'
        exact hne hnear'.symm
      have hpred : ∀ c', g.Has c' → ((c' = c ∨ ∃ e' ∈ es, g₁.edge? e' = some c') ↔
          ∃ e' ∈ e :: es, g.edge? e' = some c') := by
        intro c' _
        have hc : g.edge? e = some c' ↔ c' = c := by rw [he, Option.some.injEq, eq_comm]
        simp [hsame, hc]
      refine ⟨shifts₂, g₂, ?_, (hmoves₁.trans hmoves₂ hagain).congr hpred, ?_⟩
      · rw [List.foldlM_cons]
        simp [hok₁, hok₂, bind, Except.bind]
      · rw [hshifts₂, hshifts₁, or_assoc, hmoves₁.dropsShifting_or hagain,
          DropsShifting.congr hpred]

theorem moveClass_spec (side : Side) (members : IdSet) (hg : g.Intact) (hrep : g.isLive rep)
    (hne : sub ≠ rep) (shifts : Bool) (cls : EdgeClass) :
    ∃ shifts' g', moveClass side sub rep members (shifts, g) cls = .ok (shifts', g') ∧
      Moves g g' side rep members (fun c => c.nearEnd side = sub ∧ c.kind.edgeClass = cls) ∧
      (shifts' = true ↔ shifts = true ∨
        g.DropsShifting side rep members fun c => c.nearEnd side = sub ∧
        c.kind.edgeClass = cls) := by
  have hnodup : (g.edgesAt side sub cls).toList.Nodup :=
    (g.edgesAt side sub cls).ascending.imp Nat.ne_of_lt
  obtain ⟨shifts', g', hok, hmoves, hshifts⟩ := foldlM_moveEdge_spec members hrep hne
    (g.edgesAt side sub cls).toList hg hnodup (fun e he => by
      obtain ⟨c, hedge, -, hnear⟩ := (hg.listed side sub cls e).mp he
      exact ⟨c, hedge, hnear⟩) shifts
  have hpred : ∀ c, g.Has c → ((∃ e ∈ (g.edgesAt side sub cls).toList, g.edge? e = some c) ↔
      c.nearEnd side = sub ∧ c.kind.edgeClass = cls) := by
    rintro c ⟨e, he⟩
    constructor
    · rintro ⟨e', hmem, he'⟩
      obtain ⟨c', hedge, hcls, hnear⟩ := (hg.listed side sub cls e').mp hmem
      rw [he'] at hedge
      cases hedge
      exact ⟨hnear, hcls⟩
    · rintro ⟨rfl, rfl⟩
      exact ⟨e, hg.mem_edgesAt he side, he⟩
  refine ⟨shifts', g', hok, hmoves.congr hpred, ?_⟩
  rw [hshifts, DropsShifting.congr hpred]

/-- Moving the constraints of several classes in turn. -/
theorem foldlM_moveClass_spec (side : Side) (members : IdSet) (hrep : g.isLive rep)
    (hne : sub ≠ rep) (classes : List EdgeClass) (hg : g.Intact) (shifts : Bool) :
    ∃ shifts' g', classes.foldlM (moveClass side sub rep members) (shifts, g) = .ok (shifts', g') ∧
      Moves g g' side rep members (fun c => c.nearEnd side = sub ∧ c.kind.edgeClass ∈ classes) ∧
      (shifts' = true ↔ shifts = true ∨
        g.DropsShifting side rep members fun c => c.nearEnd side = sub ∧
        c.kind.edgeClass ∈ classes) := by
  induction classes generalizing g shifts with
  | nil =>
      refine ⟨shifts, g, rfl, .none g hg.toIndexed side rep members (by simp), ?_⟩
      simp [DropsShifting]
  | cons cls classes ih =>
      obtain ⟨shifts₁, g₁, hok₁, hmoves₁, hshifts₁⟩ :=
        moveClass_spec side members hg hrep hne shifts cls
      obtain ⟨shifts₂, g₂, hok₂, hmoves₂, hshifts₂⟩ := ih (by rwa [hmoves₁.same.isLive])
        ⟨hmoves₁.same.partitioned hg.toPartitioned, hmoves₁.indexed⟩ shifts₁
      have hagain : ∀ c : Constraint, (c.withNear side rep).nearEnd side = sub ∧
          (c.withNear side rep).kind.edgeClass ∈ classes → False := by
        rintro c ⟨hnear, -⟩
        exact hne (c.nearEnd_withNear side rep ▸ hnear).symm
      have hpred : ∀ c, g.Has c → ((c.nearEnd side = sub ∧ c.kind.edgeClass = cls ∨
          c.nearEnd side = sub ∧ c.kind.edgeClass ∈ classes) ↔
          c.nearEnd side = sub ∧ c.kind.edgeClass ∈ cls :: classes) := by
        intro c _
        rw [List.mem_cons]
        tauto
      refine ⟨shifts₂, g₂, ?_, (hmoves₁.trans hmoves₂ hagain).congr hpred, ?_⟩
      · rw [List.foldlM_cons]
        simp [hok₁, hok₂, bind, Except.bind]
      · rw [hshifts₂, hshifts₁, or_assoc, hmoves₁.dropsShifting_or hagain,
          DropsShifting.congr hpred]

theorem moveSide_spec (hg : g.Intact) (hrep : g.isLive rep) (hne : sub ≠ rep) (side : Side)
    (members : IdSet) :
    ∃ shifts g', g.moveSide side sub rep members = .ok (shifts, g') ∧
      Moves g g' side rep members (fun c => c.nearEnd side = sub) ∧
      (shifts = true ↔ g.DropsShifting side rep members fun c => c.nearEnd side = sub) := by
  obtain ⟨shifts, g', hok, hmoves, hshifts⟩ :=
    foldlM_moveClass_spec side members hrep hne EdgeClass.all hg false
  have hpred : ∀ c : Constraint, g.Has c →
      ((c.nearEnd side = sub ∧ c.kind.edgeClass ∈ EdgeClass.all) ↔ c.nearEnd side = sub) := by
    intro c _
    cases hcls : c.kind.edgeClass <;> simp [EdgeClass.all]
  refine ⟨shifts, g', hok, hmoves.congr hpred, ?_⟩
  rw [hshifts, DropsShifting.congr hpred]
  simp

/-! ## Merging a group -/

/-- Whether a constraint survives when `subs` are merged away, out of the group `members`. -/
def Survives (subs : List NodeId) (members : IdSet) (c : Constraint) : Prop :=
  match c.kind.edgeClass with
  | .addr => c.src ∉ subs ∧ c.dst ∉ subs
  | .load | .store => True
  | .direct => c.src ∈ subs ∨ c.dst ∈ subs → ¬ (c.src ∈ members ∧ c.dst ∈ members)

/-- The renaming of each of `subs` to `rep`. -/
def redirect (subs : List NodeId) (rep n : NodeId) : NodeId := if n ∈ subs then rep else n

theorem survives_singleton_iff (hrep : rep ∈ members) (hsub : sub ∈ members) (c : Constraint) :
    Survives [sub] members c ↔
      (c.dst = sub → c.Stays rep members .incoming) ∧
        (c.src = sub → c.Stays rep members .outgoing) := by
  have hne : ∀ n, n ∉ members → n ≠ rep := fun n hn h => hn (h ▸ hrep)
  cases hcls : c.kind.edgeClass with
  | addr =>
      simp only [Survives, Constraint.Stays, hcls, List.mem_singleton]
      tauto
  | load => simp [Survives, Constraint.Stays, hcls]
  | store => simp [Survives, Constraint.Stays, hcls]
  | direct =>
      simp only [Survives, Constraint.Stays, hcls, List.mem_singleton, Constraint.farEnd]
      constructor
      · intro h
        refine ⟨fun hdst => ?_, fun hsrc => ?_⟩
        · have hout : c.src ∉ members := fun hm => h (.inr hdst) ⟨hm, hdst ▸ hsub⟩
          exact ⟨hne _ hout, hout⟩
        · have hout : c.dst ∉ members := fun hm => h (.inl hsrc) ⟨hsrc ▸ hsub, hm⟩
          exact ⟨hne _ hout, hout⟩
      · rintro ⟨hin, hout⟩ (hsrc | hdst) ⟨hs, hd⟩
        · exact (hout hsrc).2 hd
        · exact (hin hdst).2 hs

section both

variable {g₁ g₂ : ConstraintGraph C} (h₁ : Moves g g₁ .incoming rep members (·.dst = sub))
  (hsub : sub ∈ members)

include h₁ hsub

/-- What moving both sides leaves: the constraints that stay at each side where they touch `sub`. -/
theorem Moves.has_both_iff (h₂ : Moves g₁ g₂ .outgoing rep members (·.src = sub)) (c : Constraint) :
    g₂.Has c ↔ ∃ c₀, g.Has c₀ ∧ ((c₀.dst = sub → c₀.Stays rep members .incoming) ∧
      (c₀.src = sub → c₀.Stays rep members .outgoing)) ∧ c = c₀.rename (redirect [sub] rep) := by
  have hrename : ∀ c₀ : Constraint, c₀.rename (redirect [sub] rep) =
      ⟨if c₀.src = sub then rep else c₀.src, if c₀.dst = sub then rep else c₀.dst, c₀.kind⟩ := by
    simp [Constraint.rename, redirect]
  have hloop : ∀ {c₀ c' : Constraint}, c₀.src = sub → c₀.Stays rep members .incoming →
      c'.kind = c₀.kind → c'.Stays rep members .outgoing := fun hsrc hs hkind =>
    Constraint.stays_of_mem (show _ ∈ members by rwa [Constraint.farEnd, hsrc]) hs hkind .outgoing
  rw [h₂.has_iff]
  simp only [h₁.has_iff, Constraint.withNear, hrename]
  constructor
  · rintro (⟨⟨h, hdst⟩ | ⟨c₀, h, hdst, hs, rfl⟩, hsrc⟩ |
      ⟨c₁, ⟨h, hdst⟩ | ⟨c₀, h, hdst, hs, rfl⟩, hsrc, hs', rfl⟩)
    · exact ⟨c, h, ⟨fun hd => absurd hd hdst, fun hs => absurd hs hsrc⟩, by simp [hsrc, hdst]⟩
    · exact ⟨c₀, h, ⟨fun _ => hs, fun hs => absurd hs hsrc⟩, by simp_all⟩
    · exact ⟨c₁, h, ⟨fun hd => absurd hd hdst, fun _ => hs'⟩, by simp [hsrc, hdst]⟩
    · exact ⟨c₀, h, ⟨fun _ => hs, fun _ => hloop hsrc hs rfl⟩, by simp_all⟩
  · rintro ⟨c₀, h, ⟨hin, hout⟩, rfl⟩
    by_cases hdst : c₀.dst = sub <;> by_cases hsrc : c₀.src = sub
    · exact .inr ⟨{ c₀ with dst := rep }, .inr ⟨c₀, h, hdst, hin hdst, rfl⟩, hsrc,
        hloop hsrc (hin hdst) rfl, by simp [hsrc, hdst]⟩
    · exact .inl ⟨.inr ⟨c₀, h, hdst, hin hdst, by simp [hsrc, hdst]⟩, by simp [hsrc]⟩
    · exact .inr ⟨c₀, .inl ⟨h, hdst⟩, hsrc, hout hsrc, by simp [hsrc, hdst]⟩
    · rw [if_neg hsrc, if_neg hdst]
      exact .inl ⟨.inl ⟨h, hdst⟩, hsrc⟩

theorem Moves.dropsShifting_both_iff :
    g.DropsShifting .incoming rep members (·.dst = sub) ∨
        g₁.DropsShifting .outgoing rep members (·.src = sub) ↔
      ∃ c, g.Has c ∧ c.kind.edgeClass = .direct ∧
        ¬ ((c.dst = sub → c.Stays rep members .incoming) ∧
          (c.src = sub → c.Stays rep members .outgoing)) ∧ c.kind.isShifting := by
  have hself : ∀ c : Constraint, c.kind.edgeClass = .direct → c.src = sub →
      ¬ c.Stays rep members .incoming := by
    intro c hcls hsrc hstays
    simp only [Constraint.Stays, hcls, Constraint.farEnd, hsrc] at hstays
    exact hstays.2 hsub
  constructor
  · rintro (⟨c, h, hdst, hcls, hs, hshift⟩ | ⟨c, h, hsrc, hcls, hs, hshift⟩)
    · exact ⟨c, h, hcls, fun hsurv => hs (hsurv.1 hdst), hshift⟩
    · rcases (h₁.has_iff c).mp h with ⟨h, -⟩ | ⟨c₀, h, -, hs₀, rfl⟩
      · exact ⟨c, h, hcls, fun hsurv => hs (hsurv.2 hsrc), hshift⟩
      · exact absurd hs₀ (hself c₀ hcls hsrc)
  · rintro ⟨c, h, hcls, hnot, hshift⟩
    by_cases hin : c.dst = sub ∧ ¬ c.Stays rep members .incoming
    · exact .inl ⟨c, h, hin.1, hcls, hin.2, hshift⟩
    · have hout : c.src = sub ∧ ¬ c.Stays rep members .outgoing := by tauto
      have hdst : ¬ c.dst = sub := fun hd => hin ⟨hd, hself c hcls hout.1⟩
      exact .inr ⟨c, (h₁.has_iff c).mpr (.inl ⟨h, hdst⟩), hout.1, hcls, hout.2, hshift⟩

end both

/-- Both sides together: no constraint is left at `sub`, and those that survive are renamed. -/
theorem moveEdges_spec (hg : g.Intact) (hrep : g.isLive rep) (hne : sub ≠ rep)
    (hrepm : rep ∈ members) (hsub : sub ∈ members) :
    ∃ shifts g', g.moveEdges sub rep members = .ok (shifts, g') ∧ SameNodes g g' ∧ g'.Indexed ∧
      Fresh g g' ∧
      (∀ e c, g.edge? e = some c → c.src ≠ sub → c.dst ≠ sub → g'.edge? e = some c) ∧
      (∀ c, g'.Has c ↔ ∃ c₀, g.Has c₀ ∧ Survives [sub] members c₀ ∧
        c = c₀.rename (redirect [sub] rep)) ∧
      (shifts = true ↔ ∃ c, g.Has c ∧ c.kind.edgeClass = .direct ∧ ¬ Survives [sub] members c ∧
        c.kind.isShifting) := by
  simp only [survives_singleton_iff hrepm hsub]
  obtain ⟨shifts₁, g₁, hok₁, h₁, hshifts₁⟩ := moveSide_spec hg hrep hne .incoming members
  have hcons₁ : g₁.Intact := ⟨h₁.same.partitioned hg.toPartitioned, h₁.indexed⟩
  have hrep₁ : g₁.isLive rep := by rwa [h₁.same.isLive]
  obtain ⟨shifts₂, g₂, hok₂, h₂, hshifts₂⟩ := moveSide_spec hcons₁ hrep₁ hne .outgoing members
  simp only [Constraint.nearEnd] at h₁ h₂ hshifts₁ hshifts₂
  refine ⟨shifts₁ || shifts₂, g₂, ?_, h₁.same.trans h₂.same, h₂.indexed, h₁.fresh.trans h₂.fresh,
    fun e c he hsrc hdst => h₂.kept e c (h₁.kept e c he hdst) hsrc, h₁.has_both_iff hsub h₂, ?_⟩
  · simp [moveEdges, hok₁, hok₂, bind, Except.bind, pure, Except.pure]
  · rw [Bool.or_eq_true, hshifts₁, hshifts₂]
    exact h₁.dropsShifting_both_iff hsub

/-- What is left when `subs` are merged into `rep`, out of the group `members`: the quotient of the
graph, without the constraints that do not survive. -/
structure Merged (g g' : ConstraintGraph C) (rep : NodeId) (subs : List NodeId) (members : IdSet) :
    Prop where
  intact : g'.Intact
  contexts : g'.contexts = g.contexts
  size : g'.slots.size = g.slots.size
  isLive_iff : ∀ n, g'.isLive n ↔ g.isLive n ∧ n ∉ subs
  rep_eq : ∀ n, g'.rep n = redirect subs rep (g.rep n)
  fresh : Fresh g g'
  kept : ∀ e c, g.edge? e = some c → c.src ∉ subs → c.dst ∉ subs → g'.edge? e = some c
  has_iff : ∀ c, g'.Has c ↔ ∃ c₀, g.Has c₀ ∧ Survives subs members c₀ ∧
    c = c₀.rename (redirect subs rep)
  isShifting_iff : ∀ n, g'.isShifting n ↔ g.isShifting n ∨ n = rep ∧ ((∃ m ∈ subs, g.isShifting m) ∨
    ∃ c, g.Has c ∧ c.kind.edgeClass = .direct ∧ ¬ Survives subs members c ∧ c.kind.isShifting)

theorem Merged.consistent {g g' : ConstraintGraph C} {rep : NodeId} {subs : List NodeId}
    {members : IdSet} (h : Merged g g' rep subs members) (hg : g.Consistent) : g'.Consistent :=
  ⟨h.intact, by rw [h.size, h.contexts, hg.size_eq]⟩

theorem isShifting_setShifting (g : ConstraintGraph C) (n m : NodeId) :
    (g.setShifting n).isShifting m ↔ m = n ∨ g.isShifting m := by
  simp [isShifting, setShifting]

theorem mem_foldl_insert_reps (xs : List NodeId) (r : NodeId) (reps : Std.TreeMap NodeId NodeId)
    (n : NodeId) :
    (xs.foldl (fun reps m => reps.insert m r) reps).getD n n =
      if n ∈ xs then r else reps.getD n n := by
  induction xs generalizing reps with
  | nil => simp
  | cons x xs ih =>
      rw [List.foldl_cons, ih, Std.TreeMap.getD_insert]
      by_cases hx : n = x
      · subst hx
        simp
      · have hx' : ¬ x = n := fun h => hx h.symm
        simp [hx, hx']

section retire

variable {g' : ConstraintGraph C} (hsub : g.isLive sub)

include hsub

theorem node?_of_slots (hslots : g'.slots = g.slots.setIfInBounds sub none) (n : NodeId) :
    g'.node? n = if n = sub then none else g.node? n := by
  rw [node?, hslots]
  exact node?_setSlot g (isLive_lt hsub)

theorem isLive_iff_of_slots (hslots : g'.slots = g.slots.setIfInBounds sub none) (n : NodeId) :
    g'.isLive n ↔ g.isLive n ∧ n ≠ sub := by
  rw [isLive, node?_of_slots hsub hslots]
  by_cases hn : n = sub
  · simp [hn]
  · simp [hn, isLive]

/-- The nodes that `sub` stands for, itself included. -/
theorem Partitioned.mem_insert_subs (hg : g.Partitioned) (n : NodeId) :
    n ∈ (g.subs.getD sub ∅).insert sub ↔ g.rep n = sub := by
  rw [IdSet.mem_insert, hg.mem_subs]
  constructor
  · rintro (rfl | ⟨h, -⟩)
    · exact hg.rep_of_isLive n hsub
    · exact h
  · intro h
    by_cases hn : n = sub
    · exact .inl hn
    · exact .inr ⟨h, hn⟩

/-- The nodes are still grouped by their representatives when `rep` takes over those of `sub`. -/
theorem Partitioned.of_redirect (hg : g.Partitioned) (hrep : g.isLive rep) (hne : sub ≠ rep)
    (hslots : g'.slots = g.slots.setIfInBounds sub none)
    (hrepeq : ∀ n, g'.rep n = redirect [sub] rep (g.rep n))
    (hsubs : ∀ r n, n ∈ g'.subs.getD r ∅ ↔ r = rep ∧ (n ∈ g.subs.getD rep ∅ ∨ g.rep n = sub) ∨
      r ≠ rep ∧ r ≠ sub ∧ n ∈ g.subs.getD r ∅) : g'.Partitioned := by
  have hlive := isLive_iff_of_slots hsub hslots
  have hsize : g'.slots.size = g.slots.size := by simp [hslots]
  constructor
  case isLive_rep =>
    intro n hn
    rw [hrepeq n, hlive]
    have hnl := hg.isLive_rep n (hsize ▸ hn)
    by_cases h : g.rep n = sub
    · simp [redirect, h, hrep, Ne.symm hne]
    · simp [redirect, h, hnl]
  case rep_of_isLive =>
    intro n hn
    obtain ⟨hn, hns⟩ := (hlive n).mp hn
    rw [hrepeq n, hg.rep_of_isLive n hn]
    simp [redirect, hns]
  case rep_of_size_le =>
    intro n hn
    rw [hrepeq n, hg.rep_of_size_le n (hsize ▸ hn)]
    have hns : n ≠ sub := by
      rintro rfl
      exact absurd (isLive_lt hsub) (Nat.not_lt.mpr (hsize ▸ hn))
    simp [redirect, hns]
  case mem_subs =>
    intro r n
    rw [hsubs, hrepeq n, hg.mem_subs, hg.mem_subs]
    by_cases h : g.rep n = sub
    · have hnr : n ≠ rep := by
        rintro rfl
        exact hne (h.symm.trans (hg.rep_of_isLive n hrep))
      simp only [redirect, h, List.mem_singleton, if_true]
      grind
    · simp only [redirect, h, List.mem_singleton, if_false]
      grind

end retire

/-- Handing over the nodes that `sub` represents, once `sub` is dead. -/
theorem mergeRep_spec (hg : g.Partitioned) (hrep : g.isLive rep) (hsub : g.isLive sub)
    (hne : sub ≠ rep) {g₁ : ConstraintGraph C} (hslots : g₁.slots = g.slots.setIfInBounds sub none)
    (hreps : g₁.reps = g.reps) (hsubs : g₁.subs = g.subs) :
    ∃ g', g₁.mergeRep sub rep = .ok g' ∧ g'.Partitioned ∧
      g' = { g₁ with reps := g'.reps, subs := g'.subs } ∧
      ∀ n, g'.rep n = redirect [sub] rep (g.rep n) := by
  have hmoved := hg.mem_insert_subs hsub
  obtain ⟨g', hok, hsame, hreps', hsubs'⟩ :
      ∃ g', g₁.mergeRep sub rep = .ok g' ∧ g' = { g₁ with reps := g'.reps, subs := g'.subs } ∧
        g'.reps = ((g₁.subs.getD sub ∅).insert sub).toList.foldl (fun reps m => reps.insert m rep)
          g₁.reps ∧
        g'.subs = (g₁.subs.erase sub).insert rep
          ((g₁.subs.erase sub).getD rep ∅ ∪ (g₁.subs.getD sub ∅).insert sub) :=
    ⟨_, if_neg hne, rfl, rfl, rfl⟩
  rw [hsubs, hreps] at hreps'
  rw [hsubs] at hsubs'
  have hrepeq : ∀ n, g'.rep n = redirect [sub] rep (g.rep n) := by
    intro n
    have hmem := hmoved n
    rw [IdSet.mem_def] at hmem
    rw [ConstraintGraph.rep, hreps', mem_foldl_insert_reps]
    simp only [hmem, redirect, List.mem_singleton]
    rfl
  have hslots' : g'.slots = g.slots.setIfInBounds sub none := by rw [hsame, hslots]
  refine ⟨g', hok, hg.of_redirect hsub hrep hne hslots' hrepeq ?_, hsame, hrepeq⟩
  intro r n
  rw [hsubs', ← hmoved n, Std.TreeMap.getD_insert, Std.TreeMap.getD_erase, Std.TreeMap.getD_erase]
  by_cases hr : rep = r
  · subst hr
    simp [hne]
  · have hr' : ¬ r = rep := fun h => hr h.symm
    by_cases hrs : sub = r
    · simp [hr, hr', hrs]
    · have hrs' : ¬ r = sub := fun h => hrs h.symm
      simp [hr, hr', hrs, hrs']

theorem removeNode_eq_ok (hsub : g.isLive sub) (hempty : ∀ side cls, g.edgesAt side sub cls = ∅) :
    g.removeNode sub = .ok { g with slots := g.slots.setIfInBounds sub none } := by
  obtain ⟨node, hnode⟩ := Option.isSome_iff_exists.mp hsub
  have hat : ∀ side cls, ((node.side side).get cls).isEmpty = true := by
    intro side cls
    have h := hempty side cls
    rw [edgesAt, hnode] at h
    simp only at h
    rw [h]
    rfl
  have hnodeEmpty : node.isEmpty = true := by
    simp only [ConstraintNode.isEmpty, ClassSets.isEmpty, Bool.and_eq_true, List.all_eq_true]
    exact ⟨fun cls _ => hat .incoming cls, fun cls _ => hat .outgoing cls⟩
  simp [removeNode, hnode, hnodeEmpty]

/-- Replacing a node without constraints by its representative leaves the constraints alone. -/
theorem retire_spec (hg : g.Intact) (hrep : g.isLive rep) (hsub : g.isLive sub) (hne : sub ≠ rep)
    (hends : ∀ c, g.Has c → c.src ≠ sub ∧ c.dst ≠ sub) :
    ∃ g', (do (← g.removeNode sub).mergeRep sub rep) = .ok g' ∧ g'.Intact ∧
      g'.contexts = g.contexts ∧ g'.slots.size = g.slots.size ∧ g'.edges = g.edges ∧
      g'.shifting = g.shifting ∧ (∀ n, g'.isLive n ↔ g.isLive n ∧ n ∉ [sub]) ∧
      ∀ n, g'.rep n = redirect [sub] rep (g.rep n) := by
  have hempty : ∀ side cls, g.edgesAt side sub cls = ∅ := by
    intro side cls
    refine IdSet.ext fun e => ?_
    simp only [IdSet.not_mem_empty, iff_false]
    intro he
    obtain ⟨c, hedge, -, hnear⟩ := (hg.listed side sub cls e).mp he
    cases side with
    | incoming => exact (hends c ⟨e, hedge⟩).2 hnear
    | outgoing => exact (hends c ⟨e, hedge⟩).1 hnear
  let g₁ : ConstraintGraph C := { g with slots := g.slots.setIfInBounds sub none }
  have hok₁ : g.removeNode sub = .ok g₁ := removeNode_eq_ok hsub hempty
  obtain ⟨g', hok, hpart, hsame, hrepeq⟩ :=
    mergeRep_spec hg.toPartitioned hrep hsub hne (show g₁.slots = _ from rfl) rfl rfl
  have hslots : g'.slots = g.slots.setIfInBounds sub none := by rw [hsame]
  have hedges : g'.edges = g.edges := by rw [hsame]
  have hnode := node?_of_slots hsub hslots
  have hat : ∀ side n cls, g'.edgesAt side n cls = g.edgesAt side n cls := by
    intro side n cls
    by_cases hn : n = sub
    · subst hn
      rw [hempty, edgesAt, hnode, if_pos rfl]
    · rw [edgesAt, hnode, if_neg hn, edgesAt]
  have hindexed : g'.Indexed :=
    hg.toIndexed.congr hedges (by rw [hsame]) (by rw [hsame]) hat
  refine ⟨g', ?_,
    ⟨hpart, hindexed⟩, by rw [hsame], by simp [hslots], hedges, by rw [hsame], ?_, hrepeq⟩
  · rw [hok₁]
    exact hok
  · intro n
    rw [isLive_iff_of_slots hsub hslots, List.mem_singleton]

/-- Merging one node into another. -/
theorem merge_spec (hg : g.Intact) (hrep : g.isLive rep) (hsub : g.isLive sub) (hne : sub ≠ rep)
    (hrepm : rep ∈ members) (hsubm : sub ∈ members) :
    ∃ g', g.merge sub rep members = .ok g' ∧ Merged g g' rep [sub] members := by
  obtain ⟨shifts, g₁, hok₁, hsame₁, hindexed₁, hfresh₁, hkept₁, hhas₁, hshifts₁⟩ :=
    moveEdges_spec hg hrep hne hrepm hsubm
  have hne' : ¬ rep = sub := fun h => hne h.symm
  let g₂ := if shifts || g₁.isShifting sub then g₁.setShifting rep else g₁
  have hsame₂ : g₂ = { g₁ with shifting := g₂.shifting } := by
    simp only [g₂]
    split <;> rfl
  have hshifting₂ : ∀ n, g₂.isShifting n ↔
      g₁.isShifting n ∨ n = rep ∧ (shifts = true ∨ g₁.isShifting sub) := by
    intro n
    by_cases h : (shifts || g₁.isShifting sub) = true
    · simp only [g₂, if_pos h, isShifting_setShifting]
      rw [Bool.or_eq_true] at h
      tauto
    · simp only [g₂, if_neg h]
      rw [Bool.or_eq_true] at h
      tauto
  have hpart₂ := hsame₁.partitioned hg.toPartitioned
  have hcons₂ : g₂.Intact := by
    rw [hsame₂]
    exact ⟨⟨hpart₂.1, hpart₂.2, hpart₂.3, hpart₂.4⟩, hindexed₁.congr rfl rfl rfl fun _ _ _ => rfl⟩
  have hlive₂ : ∀ n, g₂.isLive n = g.isLive n := by
    rw [hsame₂]
    exact hsame₁.isLive
  have hedges₂ : g₂.edges = g₁.edges := by rw [hsame₂]
  have hhas₂ : ∀ c, g₂.Has c ↔ g₁.Has c := fun c => by simp only [Has, edge?, hedges₂]
  -- no constraint ends at `sub` any more
  have hends : ∀ c, g₂.Has c → c.src ≠ sub ∧ c.dst ≠ sub := by
    intro c hc
    obtain ⟨c₀, -, -, rfl⟩ := (hhas₁ c).mp ((hhas₂ c).mp hc)
    simp only [Constraint.rename, redirect, List.mem_singleton]
    constructor <;> split <;> assumption
  obtain ⟨g', hok, hcons, hcontexts, hsize, hedges, hshifting, hlive, hrepeq⟩ :=
    retire_spec hcons₂ (by rwa [hlive₂]) (by rwa [hlive₂]) hne hends
  have hedge? : ∀ e, g'.edge? e = g₁.edge? e := fun e => by rw [edge?, hedges, hedges₂, edge?]
  refine ⟨g', ?_, ?_⟩
  · simp only [merge, hok₁]
    exact hok
  · refine ⟨hcons, ?_, ?_, ?_, ?_, ⟨?_, ?_⟩, ?_, ?_, ?_⟩
    · rw [hcontexts, hsame₂]
      exact hsame₁.contexts
    · rw [hsize, hsame₂]
      exact hsame₁.size
    · intro n
      rw [hlive, hlive₂]
    · intro n
      rw [hrepeq, hsame₂]
      exact congrArg _ (hsame₁.rep n)
    · rw [hedges, hedges₂]
      exact hfresh₁.size_le
    · intro e c he
      exact hfresh₁.edge e c (hedge? e ▸ he)
    · intro e c he hsrc hdst
      rw [hedge?]
      exact hkept₁ e c he (by simpa using hsrc) (by simpa using hdst)
    · intro c
      rw [← hhas₁]
      simp only [Has, hedge?]
    · intro n
      have hsh : ∀ m, g₁.isShifting m = g.isShifting m := fun m => by
        rw [isShifting, hsame₁.shifting, isShifting]
      have hsh' : g'.isShifting n = g₂.isShifting n := by rw [isShifting, hshifting, isShifting]
      rw [hsh', hshifting₂, hshifts₁, hsh, hsh]
      simp only [List.mem_singleton, exists_eq_left]
      rw [or_comm (a := g.isShifting sub = true)]

section snoc

variable {subs : List NodeId}

theorem redirect_append (n : NodeId) :
    redirect [sub] rep (redirect subs rep n) = redirect (subs ++ [sub]) rep n := by
  by_cases hn : n ∈ subs <;> simp [redirect, hn]

/-- Renaming some of the group to `rep` neither hides nor reveals another node of it. -/
theorem redirect_eq_iff (hne : sub ≠ rep) (hsub : sub ∉ subs) (n : NodeId) :
    redirect subs rep n = sub ↔ n = sub := by
  by_cases hn : n ∈ subs
  · have hns : n ≠ sub := fun h => hsub (h ▸ hn)
    simp [redirect, hn, hne.symm, hns]
  · simp [redirect, hn]

theorem redirect_mem_iff (hrep : rep ∈ members) (hsubs : ∀ n ∈ subs, n ∈ members) (n : NodeId) :
    redirect subs rep n ∈ members ↔ n ∈ members := by
  by_cases hn : n ∈ subs
  · simp [redirect, hn, hrep, hsubs n hn]
  · simp [redirect, hn]

variable (hne : sub ≠ rep) (hsub : sub ∉ subs) (hrepm : rep ∈ members)
  (hsubs : ∀ n ∈ subs, n ∈ members)

include hne hsub hrepm hsubs

theorem survives_append_iff (c : Constraint) : Survives (subs ++ [sub]) members c ↔
    Survives subs members c ∧ Survives [sub] members (c.rename (redirect subs rep)) := by
  have heq := redirect_eq_iff hne hsub
  have hmem := redirect_mem_iff hrepm hsubs
  cases hcls : c.kind.edgeClass with
  | addr =>
      simp only [Survives, Constraint.rename, hcls, List.mem_append, List.mem_singleton, heq]
      tauto
  | load => simp [Survives, Constraint.rename, hcls]
  | store => simp [Survives, Constraint.rename, hcls]
  | direct =>
      simp only [Survives, Constraint.rename, hcls, List.mem_append, List.mem_singleton, heq, hmem]
      tauto

variable {g₁ g₂ : ConstraintGraph C} (h₁ : Merged g g₁ rep subs members)

include h₁

/-- A shifting constraint is dropped either by the earlier merges or by the last one. -/
theorem Merged.drops_append_iff :
    (∃ c, g.Has c ∧ c.kind.edgeClass = .direct ∧ ¬ Survives (subs ++ [sub]) members c ∧
        c.kind.isShifting) ↔
      (∃ c, g.Has c ∧ c.kind.edgeClass = .direct ∧ ¬ Survives subs members c ∧ c.kind.isShifting) ∨
      ∃ c, g₁.Has c ∧ c.kind.edgeClass = .direct ∧ ¬ Survives [sub] members c ∧
        c.kind.isShifting := by
  have hsurvives := survives_append_iff hne hsub hrepm hsubs
  constructor
  · rintro ⟨c, hc, hcls, hnot, hsh⟩
    by_cases hs : Survives subs members c
    · exact .inr ⟨_, (h₁.has_iff _).mpr ⟨c, hc, hs, rfl⟩, hcls,
        fun h => hnot ((hsurvives c).mpr ⟨hs, h⟩), hsh⟩
    · exact .inl ⟨c, hc, hcls, hs, hsh⟩
  · rintro (⟨c, hc, hcls, hnot, hsh⟩ | ⟨c₁, hc₁, hcls, hnot, hsh⟩)
    · exact ⟨c, hc, hcls, fun h => hnot ((hsurvives c).mp h).1, hsh⟩
    · obtain ⟨c, hc, -, rfl⟩ := (h₁.has_iff c₁).mp hc₁
      exact ⟨c, hc, hcls, fun h => hnot ((hsurvives c).mp h).2, hsh⟩

/-- Merging one node after others is merging them all. -/
theorem Merged.snoc (h₂ : Merged g₁ g₂ rep [sub] members) :
    Merged g g₂ rep (subs ++ [sub]) members where
  intact := h₂.intact
  contexts := h₂.contexts.trans h₁.contexts
  size := h₂.size.trans h₁.size
  isLive_iff n := by
    rw [h₂.isLive_iff, h₁.isLive_iff, List.mem_append]
    tauto
  rep_eq n := by rw [h₂.rep_eq, h₁.rep_eq, redirect_append]
  fresh := h₁.fresh.trans h₂.fresh
  kept e c he hsrc hdst := by
    simp only [List.mem_append, not_or] at hsrc hdst
    exact h₂.kept e c (h₁.kept e c he hsrc.1 hdst.1) hsrc.2 hdst.2
  has_iff c := by
    have hsurvives := survives_append_iff hne hsub hrepm hsubs
    rw [h₂.has_iff]
    constructor
    · rintro ⟨c₁, hc₁, hs₁, rfl⟩
      obtain ⟨c₀, hc₀, hs₀, rfl⟩ := (h₁.has_iff c₁).mp hc₁
      refine ⟨c₀, hc₀, (hsurvives c₀).mpr ⟨hs₀, hs₁⟩, ?_⟩
      simp [Constraint.rename, redirect_append]
    · rintro ⟨c₀, hc₀, hs, rfl⟩
      obtain ⟨hs₀, hs₁⟩ := (hsurvives c₀).mp hs
      refine ⟨_, (h₁.has_iff _).mpr ⟨c₀, hc₀, hs₀, rfl⟩, hs₁, ?_⟩
      simp [Constraint.rename, redirect_append]
  isShifting_iff n := by
    rw [h₂.isShifting_iff, h₁.isShifting_iff, h₁.drops_append_iff hne hsub hrepm hsubs]
    simp only [List.mem_singleton, exists_eq_left, h₁.isShifting_iff, hne, false_and, or_false,
      List.mem_append, or_and_right, exists_or, exists_eq_left]
    grind

end snoc

end ConstraintGraph

end PointerAnalysis
