import PointerAnalysis.Proofs.Solver.Sane
import PointerAnalysis.Proofs.Solver.Score

/-!
Draining the worklist. A node that does not wait has been attended to: the constraints it answers
for have passed on all that it points to. Visits keep this up, so once no node waits all nodes have
been attended to; and the score bounds how long that takes.
-/

namespace PointerAnalysis

namespace Solver

variable {C : Type} [Context C] {active : NodeId → Prop} {s t u : Solver C}

/-! ## Nodes that have been attended to -/

/-- The constraints a node answers for have passed on all that it points to, the direct ones only
where the strategy has them dealt with together with the others; and if the node lies on a shifting
cycle, what it points to does not tell fields apart. -/
structure Done (s : Solver C) (n : NodeId) : Prop where
  passes : ∀ c, s.graph.Has c → c.holder = n →
  (c.kind.edgeClass = .direct → s.strategy = .baseline) →
    ∀ o ∈ s.facts.pointsTo n, Passes s c o
  whole : s.graph.isShifting n → ∀ o ∈ s.facts.pointsTo n, ∀ mem, s.graph.contexts.PartOf o mem →
    s.graph.contexts.IsWhole mem

/-- All nodes but those in `out` wait or have been attended to. -/
def Attended (out : NodeId → Prop) (s : Solver C) : Prop :=
  ∀ n, s.graph.isLive n → n ∉ s.worklist.toList → ¬ out n → Done s n

theorem isLive_holder (hs : s.WellFormed) {c : Constraint} (hc : s.graph.Has c) :
    s.graph.isLive c.holder := by
  unfold Constraint.holder
  split
  · exact hs.graph.isLive_dst hc
  · exact hs.graph.isLive_src hc

/-- A node that does not wait answers for no other constraints than before, unless they are new
copies that have passed on everything at once. -/
theorem Frame.has_at (h : Frame s t) (hs : s.WellFormed) {c : Constraint} (hc : t.graph.Has c)
    (hout : c.holder ∉ t.worklist.toList) :
    (∃ c₀, s.graph.Has c₀ ∧ c = c₀.rename t.graph.rep ∧ c₀.holder = c.holder) ∨
      c.kind = .copy ∧ s.strategy = .waveDiff := by
  rcases h.has c hc with ⟨c₀, hc₀, rfl, -⟩ | ⟨hkind, hwork, -⟩
  · refine .inl ⟨c₀, hc₀, rfl, ?_⟩
    rw [Constraint.holder_rename] at hout ⊢
    by_contra hne
    exact hout (h.joined _ (isLive_holder hs hc₀) (Ne.symm hne))
  · refine .inr ⟨hkind, ?_⟩
    by_contra hst
    refine hout ?_
    rw [Constraint.holder, if_neg (by simp [hkind])]
    exact hwork hst

theorem Done.frame {n : NodeId} (h : Done s n) (hframe : Frame s t) (hs : s.WellFormed)
    (ht : t.WellFormed) (hout : n ∉ t.worklist.toList) : Done t n := by
  obtain ⟨hcalm, hshift⟩ := hframe.calm n hout
  refine ⟨fun c hc hholder hdirect o ho => ?_, fun hsh o ho mem hmem => ?_⟩
  · subst hholder
    rcases hframe.has_at hs hc hout with ⟨c₀, hc₀, hc, hsame⟩ | ⟨hkind, hst⟩
    · have ho := hcalm o ho
      have hpass := h.passes c₀ hc₀ hsame
        (fun hclass => hframe.strategy ▸ hdirect (by rw [hc]; exact hclass)) o ho
      rw [hc]
      exact hpass.frame hframe hs ht (hs.target _ _ ho).1
    · have hbase := hdirect (by rw [hkind]; rfl)
      rw [hframe.strategy, hst] at hbase
      cases hbase
  · have ho := hcalm o ho
    have hlt := (hs.target _ _ ho).1
    have hmem := (hframe.contexts.partOf_iff hlt).mp hmem
    exact hframe.contexts.isWhole (h.whole (hshift hsh) o ho mem hmem)

theorem Attended.frame {out : NodeId → Prop} (h : Attended out s) (hframe : Frame s t)
    (hs : s.WellFormed) (ht : t.WellFormed) : Attended out t := by
  intro n hn hwork hout
  by_cases hlt : n < s.graph.slots.size
  · exact (h n (hframe.live n hlt hn) (fun hin => hwork (hframe.worklist n hin)) hout).frame hframe
      hs ht hwork
  · -- a new node that does not wait points to nothing
    have hempty : ∀ o, o ∉ t.facts.pointsTo n := fun o ho =>
      hlt (ConstraintGraph.isLive_lt (hs.live n o ((hframe.calm n hwork).1 o ho)))
    exact ⟨fun _ _ _ _ o ho => absurd ho (hempty o), fun _ o ho => absurd ho (hempty o)⟩

/-! ## Turns -/

/-- A step of a run, or a change of who waits. -/
inductive Turn (active : NodeId → Prop) : Solver C → Solver C → Prop where
  | move {s t : Solver C} (h : Move active s t) : Turn active s t
  | queue (s : Solver C) (w : WorkList) (hlt : ∀ n ∈ w.toList, n < s.graph.slots.size)
      (hnodup : w.toList.Nodup) : Turn active s { s with worklist := w }

/-- Any number of turns. -/
abbrev Turns (active : NodeId → Prop) : Solver C → Solver C → Prop :=
  Relation.ReflTransGen (Turn active)

theorem Moves.turns (h : Moves active s t) : Turns active s t := h.lift id fun _ _ => .move

theorem WellFormed.queue (hs : s.WellFormed) {w : WorkList}
    (hlt : ∀ n ∈ w.toList, n < s.graph.slots.size) (hnodup : w.toList.Nodup) :
    ({ s with worklist := w } : Solver C).WellFormed :=
  ⟨hs.1, hs.2, hs.3, hs.4, hs.5, hlt, hnodup, hs.8⟩

theorem Sane.queue (hs : Sane s) {w : WorkList} (hlt : ∀ n ∈ w.toList, n < s.graph.slots.size)
    (hnodup : w.toList.Nodup) : Sane { s with worklist := w } :=
  hs.congr (hs.wellFormed.queue hlt hnodup) rfl rfl rfl rfl

theorem Turn.wellFormed (h : Turn active s t) (hs : s.WellFormed) : t.WellFormed := by
  cases h with
  | move h => exact h.wellFormed hs
  | queue w hlt hnodup => exact hs.queue hlt hnodup

theorem Turns.wellFormed (h : Turns active s t) (hs : s.WellFormed) : t.WellFormed := by
  induction h with
  | refl => exact hs
  | tail _ hturn ih => exact hturn.wellFormed ih

theorem Move.initialized (h : Move active s t) : t.initialized = s.initialized := by
  cases h with
  | step h =>
      cases h with
      | gain n objs hdue htidy => exact initialized_learned s n objs
      | link src dst e g hdue hok => exact initialized_linked s g src dst
      | _ => rfl
  | collapse h =>
      cases h with
      | tally stats => rfl
      | spill n f hf hwhole hnew => exact initialized_learned s n _
      | fuse r subs members hgroup hdue hfused => exact hfused.initialized
  | clear => rfl
  | record facts h => rfl

/-- What turns do not change, and what they only extend. -/
theorem Turns.keeps (h : Turns active s t) (hs : s.WellFormed) :
    t.strategy = s.strategy ∧ t.initialized = s.initialized ∧
      s.graph.contexts.Extends t.graph.contexts := by
  induction h with
  | refl => exact ⟨rfl, rfl, .refl _⟩
  | tail hturns hturn ih =>
      obtain ⟨hstrategy, hinit, hext⟩ := ih
      cases hturn with
      | move h =>
          have hframe := h.frame (Turns.wellFormed hturns hs)
          exact ⟨hframe.strategy.trans hstrategy, h.initialized.trans hinit,
            hext.trans hframe.contexts⟩
      | queue w hlt hnodup => exact ⟨hstrategy, hinit, hext⟩

theorem Turns.advances {N : Nat} (h : Turns active s t) (hs : s.WellFormed)
    (hN : s.graph.contexts.capacity ≤ N) : Advances N s t := by
  induction h with
  | refl => exact (Progress.refl s).toAdvances
  | @tail u v hturns hturn ih =>
      have hu := Turns.wellFormed hturns hs
      refine ih.trans ?_
      cases hturn with
      | move h =>
          have hcap := (Turns.keeps hturns hs).2.2.capacity_eq
          refine (Progress.toAdvances (h.progress hu ?_))
          rw [hu.graph.size_eq]
          exact Nat.le_trans hu.contexts.size_le_capacity (hcap ▸ hN)
      | queue w hlt hnodup => exact ⟨Nat.le_refl _, .inl, .inl⟩

/-! ## Serving -/

/-- What is asked of the visits of a strategy. -/
def Deals (active : NodeId → Prop) (visit : NodeId → SolverM C Unit) (strategy : Strategy) : Prop :=
  ∀ s n, Sane s → s.strategy = strategy → s.graph.isLive n →
    Yields (visit n) s fun _ t => Moves active s t ∧ Sane t ∧
      ∀ c, s.graph.Has c → c.holder = n → (c.kind.edgeClass = .direct → strategy = .baseline) →
        ∀ o ∈ s.facts.pointsTo n, Passes t c o

theorem deals_visitFully (strategy : Strategy) :
    Deals (C := C) (fun _ => True) visitFully strategy := by
  intro s n hs _ hn
  refine (hs.visitFully (fun _ => True) hn trivial).mono fun _ t ⟨hsteps, hpass⟩ => ?_
  exact ⟨hsteps.moves, hsteps.sane hs, fun c hc hholder _ => hpass c hc hholder⟩

theorem deals_visitIndirect {strategy : Strategy} (hst : strategy ≠ .baseline) :
    Deals (C := C) (fun _ => False) visitIndirect strategy := by
  intro s n hs _ hn
  refine (hs.visitIndirect (fun _ => False) hn).mono fun _ t ⟨hattends, ht, hpass⟩ => ?_
  refine ⟨hattends.moves, ht, fun c hc hholder hdirect o ho => ?_⟩
  cases hkind : c.kind with
  | addr =>
      rw [Passes, hkind]
      trivial
  | load => exact hpass c hc ⟨.inl hkind, hholder⟩ o ho
  | store => exact hpass c hc ⟨.inr hkind, hholder⟩ o ho
  | copy => exact absurd (hdirect (by rw [hkind]; rfl)) hst
  | field offset => exact absurd (hdirect (by rw [hkind]; rfl)) hst
  | anyField => exact absurd (hdirect (by rw [hkind]; rfl)) hst

/-- A node that was served and does not wait again has been attended to. -/
theorem Sane.serve {visit : NodeId → SolverM C Unit} {strategy : Strategy}
    (hvisit : Deals active visit strategy) (hs : Sane s) (hst : s.strategy = strategy) {n : NodeId}
    (hn : n < s.graph.slots.size) :
    Yields (serve visit n) s fun _ t => Moves active s t ∧ Sane t ∧ t.pending = ∅ ∧
      (t.graph.isLive n → n ∉ t.worklist.toList → Done t n) := by
  have hwf := hs.wellFormed
  have hlive := hwf.graph.isLive_rep n hn
  rw [Solver.serve, yields_bind, yields_rep, yields_bind, yields_get, if_pos hlive, yields_bind]
  refine (hs.settle active hlive).mono ?_
  rintro _ u ⟨hsu, hu, rfl, hsame, hwhole⟩
  have hframe := hsu.frame hwf
  have hsize := hframe.size_le hwf hu.wellFormed
  have hrep : u.graph.rep (s.graph.rep n) = u.graph.rep n := hframe.rep_rep n
  have hlive' : u.graph.isLive (u.graph.rep n) :=
    hu.wellFormed.graph.isLive_rep n (Nat.lt_of_lt_of_le hn hsize)
  rw [hrep, yields_bind]
  refine (hvisit u _ hu (hframe.strategy.trans hst) hlive').mono ?_
  rintro _ v ⟨huv, hv, hpass⟩
  refine (hv.foldPending active).mono ?_
  rintro _ t ⟨hvt, ht, hpending⟩
  have hut : Moves active u t := huv.trans hvt
  have hmoves : Moves active s t := hsu.trans hut
  refine ⟨hmoves, ht, hpending, fun hlivet hout => ?_⟩
  -- a node that is still alive stood for itself all along
  have hframe' := hut.frame hu.wellFormed
  have hlivev := hframe'.live n (Nat.lt_of_lt_of_le hn hsize) hlivet
  have hself := hu.wellFormed.graph.rep_of_isLive n hlivev
  have hselfs := hwf.graph.rep_of_isLive n (hframe.live n hn hlivev)
  rw [hself] at hpass
  rw [hselfs] at hwhole
  obtain ⟨hcalm, -⟩ := hframe'.calm n hout
  obtain ⟨hcalm', hshift⟩ := (hmoves.frame hwf).calm n hout
  refine ⟨fun c hc hholder hdirect o ho => ?_, fun hsh o ho mem hmem => ?_⟩
  · subst hholder
    have hlt := (hu.wellFormed.target _ _ (hcalm o ho)).1
    rcases hframe'.has_at hu.wellFormed hc hout with ⟨c₀, hc₀, hc, hholder⟩ | ⟨hkind, hst'⟩
    · have hst' : t.strategy = strategy := (hmoves.frame hwf).strategy.trans hst
      have hpassed := hpass c₀ hc₀ hholder
        (fun hclass => hst' ▸ hdirect (by rw [hc]; exact hclass)) o (hcalm o ho)
      rw [hc]
      exact hpassed.frame (hvt.frame hv.wellFormed) hv.wellFormed ht.wellFormed
        (Nat.lt_of_lt_of_le hlt (huv.frame hu.wellFormed).contexts.size_le)
    · have hbase := hdirect (by rw [hkind]; rfl)
      rw [hframe'.strategy, hst'] at hbase
      cases hbase
  · have ho := hcalm' o ho
    have hlt := (hwf.target _ _ ho).1
    refine hframe'.contexts.isWhole ((hwhole (hshift hsh)).2 o ho mem ?_)
    exact ((hmoves.frame hwf).contexts.partOf_iff hlt).mp hmem

/-- A node that is taken off the worklist is a node of the graph, and so are those that are left. -/
theorem Coherent.of_pop {allowed : NodeId → Prop} (hs : s.Coherent allowed) {n : NodeId}
    {w : WorkList} (hpop : s.worklist.pop? = some (n, w)) : n < s.graph.slots.size ∧
      (∀ m ∈ w.toList, m < s.graph.slots.size) ∧ w.toList.Nodup := by
  have hlt := hs.worklist_lt
  have hnodup := hs.worklist_nodup
  rw [WorkList.toList_of_pop? hpop] at hlt hnodup
  exact ⟨hlt n List.mem_cons_self, fun m hm => hlt m (List.mem_cons_of_mem n hm),
    (List.nodup_cons.mp hnodup).2⟩

/-- The worklist can be drained, and then all nodes have been attended to. -/
theorem Sane.drain {visit : NodeId → SolverM C Unit} {strategy : Strategy}
    (hvisit : Deals active visit strategy) {N : Nat} (fuel : Nat) (hs : Sane s)
    (hst : s.strategy = strategy) (hpending : s.pending = ∅)
    (hattended : Attended (fun _ => False) s) (hN : s.graph.contexts.capacity ≤ N)
    (hfuel : s.worklist.toList.length + (scoreBound N - score N s) < fuel) :
    Yields (drain visit fuel) s fun _ t => Turns active s t ∧ Sane t ∧ t.pending = ∅ ∧
      t.worklist.toList = [] ∧ Attended (fun _ => False) t := by
  induction fuel generalizing s with
  | zero => exact absurd hfuel (Nat.not_lt_zero _)
  | succ fuel ih =>
      rw [Solver.drain, yields_bind, yields_get]
      cases hpop : s.worklist.pop? with
      | none =>
          exact (yields_pure _).mpr
            ⟨.refl, hs, hpending, WorkList.pop?_eq_none_iff.mp hpop, hattended⟩
      | some p =>
          obtain ⟨n, w⟩ := p
          have hwf := hs.wellFormed
          have hlist := WorkList.toList_of_pop? hpop
          obtain ⟨hn, hlt, hnodup⟩ := hwf.coherent.of_pop hpop
          have hs₁ : Sane { s with worklist := w } := hs.queue hlt hnodup
          have hqueue : Turn active s { s with worklist := w } := .queue s w hlt hnodup
          have hattended₁ : Attended (· = n) { s with worklist := w } := by
            intro m hm hout hne
            have hdone := hattended m hm
              (by rw [hlist]; exact fun hin => (List.mem_cons.mp hin).elim hne hout) id
            exact ⟨hdone.passes, hdone.whole⟩
          simp only [yields_bind, yields_modify]
          refine (hs₁.serve hvisit hst hn).mono ?_
          rintro _ t ⟨hmoves, ht, hpending', hdone⟩
          have hframe := hmoves.frame hs₁.wellFormed
          have hprogress := (hmoves.progress hs₁.wellFormed hN).worklist
          have hattended' : Attended (fun _ => False) t := by
            intro m hm hout _
            by_cases hmn : m = n
            · subst hmn
              exact hdone hm hout
            · exact hattended₁.frame hframe hs₁.wellFormed ht.wellFormed m hm hout hmn
          have hscore := score_le_scoreBound N t
          have hsame : score N { s with worklist := w } = score N s := rfl
          have hlength : s.worklist.toList.length = w.toList.length + 1 := by rw [hlist]; rfl
          refine (ih ht (hframe.strategy.trans hst) hpending' hattended' ?_ ?_).mono ?_
          · rw [hframe.contexts.capacity_eq]
            exact hN
          · change t.worklist.toList.length + score N { s with worklist := w } ≤
              w.toList.length + score N t at hprogress
            omega
          · rintro _ v ⟨hturns, hv⟩
            exact ⟨.head hqueue (hmoves.turns.trans hturns), hv⟩

end Solver

end PointerAnalysis
