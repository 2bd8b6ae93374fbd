import PointerAnalysis.Proofs.ConstraintGraph.Consistent
import PointerAnalysis.Proofs.ContextGraph.Fields

/-!
Constraint graphs as they are built and as they grow. The graph of a context graph has exactly the
constraints of its edges, between nodes that all represent themselves. Looking up a field leaves the
graph as it is or adds one node that has no constraint.
-/

namespace PointerAnalysis

namespace ConstraintGraph

variable {C : Type} [Context C]

/-! ## Construction -/

/-- The constraint of an edge of a context graph. -/
def constraintOf (e : ContextEdge) : Constraint := ⟨e.src, e.dst, .ofEdge e.kind e.offset⟩

/-- The graph has exactly the constraints of some edges, and nothing was merged. -/
structure Spans (g : ConstraintGraph C) (cg : ContextGraph C) (edges : List ContextEdge) :
    Prop where
  consistent : g.Consistent
  contexts : g.contexts = cg
  rep_eq : ∀ n, g.rep n = n
  isLive : ∀ n, n < cg.nodes.size → g.isLive n
  has_iff : ∀ c, g.Has c ↔ ∃ e ∈ edges, c = constraintOf e ∧ ¬ (c.kind = .copy ∧ c.src = c.dst)
  isShifting_iff : ∀ n, g.isShifting n ↔
    ∃ e ∈ edges, e.src = n ∧ e.dst = n ∧ (constraintOf e).kind.isShifting

theorem start_spans (cg : ContextGraph C) : (start cg).Spans cg [] where
  consistent := by
    have hlive : ∀ n, (start cg).isLive n ↔ n < cg.nodes.size := by
      intro n
      simp only [isLive, node?, start, Array.getElem?_replicate]
      split <;> simp_all
    have hrep : ∀ n, (start cg).rep n = n := fun n => by simp [rep, start]
    have hedge : ∀ e, (start cg).edge? e = none := fun e => by simp [edge?, start]
    refine ⟨⟨⟨?_, ?_, ?_, ?_⟩, ⟨?_, ?_, ?_, ?_⟩⟩, by simp [start]⟩
    · intro n hn
      rw [hrep, hlive]
      simpa [start] using hn
    · exact fun n _ => hrep n
    · exact fun n _ => hrep n
    · intro r n
      rw [hrep]
      simp only [start, Std.TreeMap.getD_emptyc, IdSet.not_mem_empty, false_iff, not_and, not_not]
      exact id
    · intro side n cls e
      simp only [hedge, reduceCtorEq, false_and, exists_false, iff_false]
      simp only [edgesAt, node?, start, Array.getElem?_replicate]
      split
      · rename_i node hnode
        split at hnode
        · cases Option.some.inj hnode
          cases side <;> cases cls <;> exact IdSet.not_mem_empty
        · simp at hnode
      · exact IdSet.not_mem_empty
    · intro cls e
      simp only [hedge, reduceCtorEq, false_and, exists_false, iff_false]
      cases cls <;> exact IdSet.not_mem_empty
    · intro c e
      rw [hedge]
      simp [find?, start]
    · rintro c ⟨e, he⟩
      simp [hedge] at he
  contexts := rfl
  rep_eq n := by simp [rep, start]
  isLive n hn := by simp [ConstraintGraph.isLive, node?, start, hn]
  has_iff c := by simp [Has, edge?, start]
  isShifting_iff n := by simp [isShifting, start]

theorem addContextEdge_spans {g : ConstraintGraph C} {cg : ContextGraph C}
    {edges : List ContextEdge}
    (hg : g.Spans cg edges) {e : ContextEdge} (hsrc : e.src < cg.nodes.size)
    (hdst : e.dst < cg.nodes.size) :
    ∃ g', g.addContextEdge e = .ok g' ∧ g'.Spans cg (edges ++ [e]) := by
  let kind := ConstraintKind.ofEdge e.kind e.offset
  let g₁ := if e.src = e.dst ∧ kind.isShifting then g.setShifting e.src else g
  have hsame : g₁ = { g with shifting := g₁.shifting } := by
    simp only [g₁]
    split <;> rfl
  have hshifting : ∀ n, g₁.isShifting n ↔
      g.isShifting n ∨ e.src = n ∧ e.dst = n ∧ kind.isShifting := by
    intro n
    by_cases h : e.src = e.dst ∧ kind.isShifting
    · simp only [g₁, if_pos h, isShifting, setShifting, IdSet.mem_insert, decide_eq_true_eq]
      constructor
      · rintro (rfl | hn)
        · exact .inr ⟨rfl, h.1.symm, h.2⟩
        · exact .inl hn
      · rintro (hn | ⟨rfl, -, -⟩)
        · exact .inr hn
        · exact .inl rfl
    · simp only [g₁, if_neg h]
      constructor
      · exact .inl
      · rintro (hn | ⟨rfl, hd, hk⟩)
        · exact hn
        · exact absurd ⟨hd.symm, hk⟩ h
  have hc := hg.consistent
  have hcons : g₁.Consistent := by
    rw [hsame]
    exact ⟨⟨⟨hc.isLive_rep, hc.rep_of_isLive, hc.rep_of_size_le, hc.mem_subs⟩,
      hc.toIndexed.congr rfl rfl rfl fun _ _ _ => rfl⟩, hc.size_eq⟩
  have hrep : ∀ n, g₁.rep n = n := by
    rw [hsame]
    exact hg.rep_eq
  have hsize : g₁.slots.size = cg.nodes.size := by
    rw [hsame, ← hg.contexts]
    exact hc.size_eq
  obtain ⟨r, g', hok, hnodes, hindexed, -, -, hhas, -, -⟩ :=
    addEdge_spec hcons.toIntact (hsize ▸ hsrc) (hsize ▸ hdst) kind
  have hcons' : g'.Consistent :=
    ⟨⟨hnodes.partitioned hcons.toPartitioned, hindexed⟩, hnodes.size_eq hcons⟩
  refine ⟨g', ?_, ⟨hcons', ?_, ?_, ?_, ?_, ?_⟩⟩
  · have heq : g.addContextEdge e = (do return (← g₁.addEdge e.src e.dst kind).2) := rfl
    rw [heq, hok]
    rfl
  · rw [hnodes.contexts, hsame]
    exact hg.contexts
  · intro n
    rw [hnodes.rep, hrep]
  · intro n hn
    rw [hnodes.isLive, hsame]
    exact hg.isLive n hn
  · intro c
    have hhas₁ : g₁.Has c ↔ g.Has c := by rw [hsame]; rfl
    rw [hhas, hhas₁, hg.has_iff]
    simp only [between, hrep, List.mem_append, List.mem_singleton, or_and_right, exists_or,
      exists_eq_left]
    refine or_congr_right (and_congr_right fun heq => ?_)
    rw [heq]
  · intro n
    have h : g'.isShifting n = g₁.isShifting n := by
      rw [isShifting, hnodes.shifting, isShifting]
    rw [h, hshifting, hg.isShifting_iff]
    simp only [List.mem_append, List.mem_singleton, or_and_right, exists_or, exists_eq_left]
    rfl

/-- Every context graph whose edges join nodes that exist has a constraint graph. -/
theorem ofContextGraph_spans {cg : ContextGraph C}
    (hedges : ∀ e ∈ cg.edges, e.src < cg.nodes.size ∧ e.dst < cg.nodes.size) :
    ∃ g, ofContextGraph cg = .ok g ∧ g.Spans cg cg.edges.toList := by
  have hfold : ∀ (todo done : List ContextEdge) (g : ConstraintGraph C), g.Spans cg done →
      (∀ e ∈ todo, e.src < cg.nodes.size ∧ e.dst < cg.nodes.size) →
      ∃ g', todo.foldlM addContextEdge g = .ok g' ∧ g'.Spans cg (done ++ todo) := by
    intro todo
    induction todo with
    | nil => exact fun done g hg _ => ⟨g, rfl, by simpa using hg⟩
    | cons e todo ih =>
        intro done g hg htodo
        obtain ⟨hsrc, hdst⟩ := htodo e List.mem_cons_self
        obtain ⟨g₁, hok₁, hg₁⟩ := addContextEdge_spans hg hsrc hdst
        obtain ⟨g', hok, hg'⟩ := ih _ g₁ hg₁ fun e' he' => htodo e' (List.mem_cons_of_mem e he')
        refine ⟨g', ?_, by simpa using hg'⟩
        rw [List.foldlM_cons, hok₁]
        exact hok
  obtain ⟨g, hok, hg⟩ :=
    hfold cg.edges.toList [] (start cg) (start_spans cg) (by simpa using hedges)
  exact ⟨g, hok, by simpa using hg⟩

/-! ## Fields -/

/-- The graph with one more node, which has no constraint. -/
structure Grown (g g' : ConstraintGraph C) : Prop where
  consistent : g'.Consistent
  size : g'.slots.size = g.slots.size + 1
  isLive_iff : ∀ n, g'.isLive n ↔ g.isLive n ∨ n = g.slots.size
  edges : g'.edges = g.edges
  reps : g'.reps = g.reps
  shifting : g'.shifting = g.shifting

/-- The graph grows by a node that is alive. -/
theorem Grown.dead_iff {g g' : ConstraintGraph C} (h : Grown g g') (n : NodeId) :
    n < g'.slots.size ∧ ¬ g'.isLive n ↔ n < g.slots.size ∧ ¬ g.isLive n := by
  rw [h.size, h.isLive_iff]
  grind

section append

variable (g : ConstraintGraph C) (contexts : ContextGraph C) (k : Nat)

/-- The graph with more nodes, which have no constraints. -/
def append : ConstraintGraph C :=
  { g with contexts, slots := g.slots ++ Array.replicate k (some {}) }

variable {g contexts k}

theorem node?_append (n : Nat) : (g.append contexts k).node? n =
    if g.slots.size ≤ n ∧ n < g.slots.size + k then some {} else g.node? n := by
  simp only [node?, append, Array.getElem?_append, Array.getElem?_replicate]
  by_cases hlt : n < g.slots.size
  · simp [hlt, Nat.not_le.mpr hlt]
  · have hle := Nat.not_lt.mp hlt
    by_cases hk : n < g.slots.size + k
    · have hsub : n - g.slots.size < k := by omega
      simp [hlt, hle, hk, hsub]
    · have hsub : ¬ n - g.slots.size < k := by omega
      simp [hlt, hk, hsub]

theorem isLive_append (n : Nat) : (g.append contexts k).isLive n ↔
    g.isLive n ∨ g.slots.size ≤ n ∧ n < g.slots.size + k := by
  rw [isLive, node?_append]
  split
  · simp_all
  · rename_i hn
    simp [isLive, hn]

theorem edgesAt_append (side : Side) (n : NodeId) (cls : EdgeClass) :
    (g.append contexts k).edgesAt side n cls = g.edgesAt side n cls := by
  rw [edgesAt, node?_append]
  split
  · rename_i node hnode
    split at hnode
    · rename_i hn
      have hdead : ¬ g.isLive n := fun h => Nat.not_lt.mpr hn.1 (isLive_lt h)
      rw [edgesAt_of_not_isLive hdead]
      cases Option.some.inj hnode
      cases side <;> cases cls <;> rfl
    · rw [edgesAt, hnode]
  · rename_i hnode
    split at hnode
    · cases hnode
    · rw [edgesAt, hnode]

theorem Intact.append (hg : g.Intact) : (g.append contexts k).Intact := by
  have hsize : (g.append contexts k).slots.size = g.slots.size + k := by
    simp [ConstraintGraph.append]
  refine ⟨⟨?_, ?_, ?_, hg.mem_subs⟩, hg.toIndexed.congr rfl rfl rfl edgesAt_append⟩
  · intro n hn
    rw [isLive_append]
    by_cases hlt : n < g.slots.size
    · exact .inl (hg.isLive_rep n hlt)
    · have hle := Nat.not_lt.mp hlt
      have hrep : (g.append contexts k).rep n = n := hg.rep_of_size_le n hle
      rw [hrep]
      exact .inr ⟨hle, hsize ▸ hn⟩
  · intro n hn
    rcases (isLive_append n).mp hn with h | h
    · exact hg.rep_of_isLive n h
    · exact hg.rep_of_size_le n h.1
  · intro n hn
    rw [hsize] at hn
    exact hg.rep_of_size_le n (by omega)

end append

theorem grown_append {g : ConstraintGraph C} (hg : g.Consistent) {contexts : ContextGraph C}
    (hsize : contexts.nodes.size = g.contexts.nodes.size + 1) : Grown g (g.append contexts 1) where
  consistent := by
    refine ⟨hg.toIntact.append, ?_⟩
    simp [append, hsize, hg.size_eq]
  size := by simp [append]
  isLive_iff n := by
    rw [isLive_append]
    exact or_congr_right ⟨fun h => Nat.le_antisymm (Nat.le_of_lt_succ h.2) h.1,
      fun h => ⟨Nat.le_of_eq h.symm, Nat.lt_succ_of_le (Nat.le_of_eq h)⟩⟩
  edges := rfl
  reps := rfl
  shifting := rfl

theorem field_of_found {g : ConstraintGraph C} (hg : g.Consistent) {n f : NodeId} {offset : Offset}
    (hf : g.contexts.field n offset = .ok (f, g.contexts)) (hlt : f < g.contexts.nodes.size) :
    g.field n offset = .ok (f, g) := by
  rw [← hg.size_eq] at hlt
  simp [field, hf, bind, Except.bind, pure, Except.pure, extendTo, hlt]

theorem field_of_made {g : ConstraintGraph C} (hg : g.Consistent) {n base : NodeId}
    {offset : Offset}
    {key : FieldKey C} (hok : g.contexts.field n offset = .ok (g.contexts.makeField key base)) :
    ∃ g', g.field n offset = .ok (g.slots.size, g') ∧
      g'.contexts = (g.contexts.makeField key base).2 ∧ Grown g g' := by
  let made := g.contexts.makeField key base
  have hnew : made.1 = g.slots.size := hg.size_eq.symm
  refine ⟨g.append made.2 1, ?_, rfl,
    grown_append hg (by simp [made, ContextGraph.makeField, ContextGraph.attachField])⟩
  change g.contexts.field n offset = .ok made at hok
  simp [field, hok, bind, Except.bind, pure, Except.pure, hnew, extendTo, append]

/-- A lookup of a field finds a node that stands for it, or makes one. -/
theorem field_spec {g : ConstraintGraph C} (hg : g.Consistent) (hc : g.contexts.WellFormed)
    {n : NodeId} (hn : n < g.contexts.nodes.size) (offset : Offset) :
    (∃ f, g.field n offset = .ok (f, g) ∧ f < g.contexts.nodes.size ∧
        g.contexts.Projects n offset f ∧ (g.contexts.WholeAt f → g.contexts.home f = f)) ∨
      ∃ key g', g.contexts.KeyOf n offset key ∧ ¬ g.contexts.WholeAt n ∧
        g.contexts.fieldNodes[key]? = none ∧ g.field n offset = .ok (g.slots.size, g') ∧
        g'.contexts = (g.contexts.makeField key (g.contexts.home n)).2 ∧ Grown g g' := by
  by_cases hp : ∃ mem, g.contexts.PartOf n mem
  · obtain ⟨mem, hp⟩ := hp
    obtain ⟨key, hkey, rfl⟩ := hc.exists_keyOf hp offset
    by_cases hw : g.contexts.WholeAt n
    · have hlt := hc.home_lt hn
      have hpart := hc.partOf_home hp
      have hwhole : g.contexts.WholeAt (g.contexts.home n) := by
        obtain ⟨mem', hp', hw⟩ := hw
        exact ⟨mem', hc.partOf_home hp', hw⟩
      refine .inl ⟨g.contexts.home n, field_of_found hg (ContextGraph.field_of_wholeAt hc hw) hlt,
        hlt, .whole hw hwhole (hc.home_home _), fun _ => hc.home_home _⟩
    · cases hf : g.contexts.fieldNodes[key]? with
      | some f =>
          obtain ⟨hfpart, -, hhome⟩ := hc.home_of_keyOf hkey hf
          refine .inl ⟨f,
            field_of_found hg (ContextGraph.field_of_registered hc hkey hw hf) hfpart.lt,
            hfpart.lt, .field key hkey hf, fun hwf => ?_⟩
          obtain ⟨mem', hp', hw'⟩ := hwf
          exact absurd ⟨_, hp, hfpart.unique hp' ▸ hw'⟩ hw
      | none =>
          obtain ⟨g', hok, hcontexts, hgrown⟩ :=
            field_of_made hg (ContextGraph.field_of_missing hc hkey hw hf)
          exact .inr ⟨key, g', hkey, hw, hf, hok, hcontexts, hgrown⟩
  · have hp : ∀ mem, ¬ g.contexts.PartOf n mem := fun mem hm => hp ⟨mem, hm⟩
    refine .inl ⟨n, field_of_found hg (ContextGraph.field_of_not_partOf hn hp) hn, hn, .self hp rfl,
      ?_⟩
    rintro ⟨mem, hpart, -⟩
    exact absurd hpart (hp mem)

end ConstraintGraph

end PointerAnalysis
