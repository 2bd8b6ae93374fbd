import PointerAnalysis.Proofs.Solver.Fold

/-!
Visits. A visit is made of steps, and when it is over each constraint it dealt with has passed on
the objects it was given. What has been passed on stays so, whatever happens later.
-/

namespace PointerAnalysis

/-- The end of a constraint whose pointees it is about. -/
def Constraint.holder (c : Constraint) : NodeId := if c.kind = .store then c.dst else c.src

@[simp] theorem Constraint.holder_rename (c : Constraint) (f : NodeId → NodeId) :
    (c.rename f).holder = f c.holder := by
  unfold holder rename
  split <;> rfl

namespace Solver

variable {C : Type} [Context C] {active : NodeId → Prop} {s s' t u : Solver C}

/-! ## What a constraint asks for -/

/-- A constraint has done what it has to do for an object that its holder points to. -/
def Passes (s : Solver C) (c : Constraint) (o : NodeId) : Prop :=
  match c.kind with
  | .addr => True
  | .copy => o ∈ s.facts.pointsTo c.dst
  | .field offset => ∃ f ∈ s.facts.pointsTo c.dst, s.graph.contexts.Projects o offset f ∧
      (offset.isZero → s.graph.contexts.home o = o → s.graph.Linked o f)
  | .anyField => (∀ mem, ¬ s.graph.contexts.PartOf o mem) ∧ o ∈ s.facts.pointsTo c.dst ∨
      s.graph.contexts.WholeAt o ∧ ∃ f ∈ s.facts.pointsTo c.dst,
        s.graph.contexts.WholeAt f ∧ s.graph.contexts.home f = s.graph.contexts.home o
  | .load => ¬ s.graph.contexts.Inert o → s.graph.Linked o c.dst
  | .store => ¬ s.graph.contexts.Inert o → s.graph.Linked c.src o

theorem linked_congr {g : ConstraintGraph C} {a a' b b' : NodeId} (ha : g.rep a = g.rep a')
    (hb : g.rep b = g.rep b') : g.Linked a b ↔ g.Linked a' b' := by
  unfold ConstraintGraph.Linked
  rw [ha, hb]

theorem rep_rep (hs : s.WellFormed) (n : NodeId) : s.graph.rep (s.graph.rep n) = s.graph.rep n :=
  (Frame.refl hs).rep_rep n

/-- What has been passed on stays so. -/
theorem Passes.frame {c : Constraint} {o : NodeId} (h : Passes s c o) (hframe : Frame s s')
    (hs : s.WellFormed) (hs' : s'.WellFormed) (ho : o < s.graph.contexts.nodes.size) :
    Passes s' (c.rename s'.graph.rep) o := by
  have hhome : ∀ n, n < s.graph.contexts.nodes.size →
      s'.graph.contexts.home n = s.graph.contexts.home n := fun n hn =>
    hframe.contexts.home_eq hs.contexts hs'.contexts hn
  unfold Passes at h ⊢
  simp only [Constraint.rename]
  cases hkind : c.kind with
  | addr => trivial
  | copy =>
      rw [hkind] at h
      exact hframe.pointsTo _ o h
  | field offset =>
      rw [hkind] at h
      obtain ⟨f, hf, hproj, hfirst⟩ := h
      refine ⟨f, hframe.pointsTo _ f hf, hproj.extends hframe.contexts hs.contexts hs'.contexts ho,
        ?_⟩
      intro hzero hself
      exact hframe.linked o f (hfirst hzero ((hhome o ho).symm.trans hself))
  | anyField =>
      rw [hkind] at h
      rcases h with ⟨hnone, hin⟩ | ⟨hwhole, f, hin, hf, heq⟩
      · refine .inl ⟨fun mem hmem => hnone mem ((hframe.contexts.partOf_iff ho).mp hmem), ?_⟩
        exact hframe.pointsTo _ o hin
      · refine .inr ⟨hframe.contexts.wholeAt hwhole, f, hframe.pointsTo _ f hin,
          hframe.contexts.wholeAt hf, ?_⟩
        rw [hhome o ho, hhome f (hs.target _ _ hin).1, heq]
  | load =>
      rw [hkind] at h
      intro hinert
      rw [hframe.contexts.inert_iff ho] at hinert
      exact (linked_congr rfl (rep_rep hs' c.dst)).mpr (hframe.linked _ _ (h hinert))
  | store =>
      rw [hkind] at h
      intro hinert
      rw [hframe.contexts.inert_iff ho] at hinert
      exact (linked_congr (rep_rep hs' c.src) rfl).mpr (hframe.linked _ _ (h hinert))

theorem rename_of_has (hs : s.WellFormed) {c : Constraint} (hc : s.graph.Has c) :
    c.rename s.graph.rep = c := by
  rw [Constraint.rename, hs.rep_src hc, hs.rep_dst hc]

theorem Passes.grows {c : Constraint} {o : NodeId} (h : Passes s c o) (hframe : Frame s t)
    (hgrows : Grows s t) (hs : s.WellFormed) (ht : t.WellFormed) (hc : s.graph.Has c)
    (ho : o < s.graph.contexts.nodes.size) : Passes t c o := by
  have hp := h.frame hframe hs ht ho
  rwa [rename_of_has ht (hgrows.has hc)] at hp

/-- A constraint that is there and has passed on an object. -/
structure Settled (s : Solver C) (c : Constraint) (o : NodeId) : Prop where
  has : s.graph.Has c
  lt : o < s.graph.contexts.nodes.size
  passes : Passes s c o

theorem Settled.grows {c : Constraint} {o : NodeId} (h : Settled s c o) (hframe : Frame s t)
    (hgrows : Grows s t) (hs : s.WellFormed) (ht : t.WellFormed) : Settled t c o :=
  ⟨hgrows.has h.has, Nat.lt_of_lt_of_le h.lt hframe.contexts.size_le,
    h.passes.grows hframe hgrows hs ht h.has h.lt⟩

theorem Settled.steps {c : Constraint} {o : NodeId} (h : Settled s c o) (hs : s.WellFormed)
    (hsteps : Steps active s t) : Settled t c o :=
  h.grows (hsteps.frame hs) (hsteps.grows hs) hs (hsteps.wellFormed hs)

/-! ## Loops -/

/-- A loop of visits. -/
theorem yields_forM_steps (active : NodeId → Prop) {α : Type} {f : α → SolverM C PUnit}
    {P : α → Solver C → Prop} (hs : s.WellFormed)
    (hP : ∀ x {s t}, s.WellFormed → Steps active s t → P x s → P x t) (xs : List α)
    (h : ∀ x ∈ xs, ∀ t, t.WellFormed → Steps active s t →
      Yields (f x) t fun _ u => Steps active t u ∧ P x u) :
    Yields (xs.forM f) s fun _ u => Steps active s u ∧ ∀ x ∈ xs, P x u :=
  Yields.forM (I := WellFormed) (R := Steps active) (fun _ => .refl) (fun h h' => h.trans h')
    (fun ht h => Steps.wellFormed h ht) hs hP xs h

/-- A loop over constraints, each of which is to pass on some objects. -/
theorem yields_forM_edges (active : NodeId → Prop) {f : EdgeId → SolverM C Unit} (objs : IdSet)
    {P : Constraint → Prop} (hs : s.WellFormed)
    (hobjs : ∀ o ∈ objs, o < s.graph.contexts.nodes.size) (edges : List EdgeId)
    (hedges : ∀ e ∈ edges, ∃ c, s.graph.edge? e = some c ∧ P c)
    (h : ∀ t, t.WellFormed → Steps active s t → ∀ e c, t.graph.edge? e = some c → s.graph.Has c →
      P c → Yields (f e) t fun _ u => Steps active t u ∧ ∀ o ∈ objs, Passes u c o) :
    Yields (edges.forM f) s fun _ t => Steps active s t ∧
      ∀ e ∈ edges, ∀ c, s.graph.edge? e = some c → ∀ o ∈ objs, Settled t c o := by
  refine yields_forM_steps active
    (P := fun e t => ∀ c, s.graph.edge? e = some c → ∀ o ∈ objs, Settled t c o)
    hs (fun e t u ht hsteps hP c he o ho => (hP c he o ho).steps ht hsteps) edges ?_
  intro e he t ht hsteps
  obtain ⟨c, hec, hc⟩ := hedges e he
  refine (h t ht hsteps e c ((hsteps.grows hs).edge e c hec) ⟨e, hec⟩ hc).mono ?_
  rintro _ u ⟨hsteps', hpass⟩
  have hsu : Steps active s u := hsteps.trans hsteps'
  refine ⟨hsteps', fun c' he' o ho => ?_⟩
  cases hec.symm.trans he'
  exact ⟨(hsu.grows hs).has ⟨e, hec⟩,
    Nat.lt_of_lt_of_le (hobjs o ho) (hsu.frame hs).contexts.size_le, hpass o ho⟩

/-! ## Single constraints -/

theorem yields_processAddr (active : NodeId → Prop) (hs : s.WellFormed) {e : EdgeId}
    {c : Constraint}
    (he : s.graph.edge? e = some c) (hkind : c.kind = .addr) (htidy : Tidy s c.dst {c.src}) :
    Yields (processAddr e) s fun _ t => Steps active s t ∧ c.src ∈ t.facts.pointsTo c.dst := by
  have hc : s.graph.Has c := ⟨e, he⟩
  rw [processAddr, yields_bind, yields_count, yields_bind,
    yields_edge (c := c) (by exact he), yields_bind, yields_rep, yields_discard, yields_learn]
  have htally : Step active s _ := .tally s { s.stats with addrs := s.stats.addrs + 1 }
  have hrep := hs.rep_dst hc
  simp only [hrep]
  refine ⟨.tail (.single htally) (.gain _ c.dst {c.src} (fun o ho => ?_) htidy), ?_⟩
  · exact .addr c hc hkind rfl (IdSet.mem_singleton.mp ho).symm
  · exact (mem_pointsTo_learned _ _ _).mpr (.inr ⟨rfl, IdSet.mem_singleton.mpr rfl⟩)

theorem yields_processCopy (hs : s.WellFormed) {c : Constraint} (hc : s.graph.Has c)
    (hkind : c.kind = .copy) (hactive : active c.src) {objs : IdSet}
    (hobjs : ∀ o ∈ objs, o ∈ s.facts.pointsTo c.src) (htidy : Tidy s c.dst objs) :
    Yields (processCopy c objs) s fun _ t => Steps active s t ∧ ∀ o ∈ objs, Passes t c o := by
  rw [processCopy, yields_bind, yields_count, yields_bind, yields_rep, yields_discard, yields_learn]
  have htally : Step active s _ := .tally s { s.stats with copies := s.stats.copies + 1 }
  have hrep := hs.rep_dst hc
  simp only [hrep]
  refine ⟨.tail (.single htally) (.gain _ c.dst objs (fun o ho => ?_) htidy), fun o ho => ?_⟩
  · exact .copy c hc hkind rfl hactive (hobjs o ho)
  · rw [Passes, hkind]
    exact (mem_pointsTo_learned _ _ _).mpr (.inr ⟨rfl, ho⟩)

theorem linked_of_addEdge (hs : s.WellFormed) {src dst : NodeId} (hsrc : src < s.graph.slots.size)
    (hdst : dst < s.graph.slots.size) {e : EdgeId} {g : ConstraintGraph C}
    (hok : s.graph.addEdge src dst .copy = .ok (some e, g)) : g.Linked src dst := by
  obtain ⟨r, g', hok', hnodes, -, -, -, hhas, -, hsome⟩ :=
    s.graph.addEdge_spec hs.graph.toIntact hsrc hdst .copy
  cases hok.symm.trans hok'
  by_cases hrep : s.graph.rep src = s.graph.rep dst
  · exact .inl (by rw [hnodes.rep, hnodes.rep, hrep])
  · refine .inr ((hhas _).mpr (.inr ⟨?_, fun h => hrep h.2⟩))
    simp [ConstraintGraph.between, hnodes.rep]

/-- Adding a copy constraint that is due links its ends. -/
theorem yields_link (active : NodeId → Prop) (hs : s.WellFormed) {src dst : NodeId}
    (hdue : LinkDue s src dst) :
    Yields (addCopy src dst) s fun _ t => Steps active s t ∧ t.pending = s.pending ∧
      t.graph.Linked src dst := by
  obtain ⟨hsrc, hdst⟩ := hdue.lt hs
  refine yields_addCopy hs.graph hsrc hdst (fun hold => ⟨.refl, rfl, hold⟩) fun e g hok => ?_
  refine ⟨.single (.link s src dst e g hdue hok), pending_linked s g src dst, ?_⟩
  rw [graph_linked]
  exact linked_of_addEdge hs hsrc hdst hok

theorem yields_isInert {o : NodeId}
    (ho : ∀ mem, s.graph.contexts.PartOf o mem → mem < s.graph.contexts.memObjs.size) :
    Yields (isInert o) s fun b t => t = s ∧ (b = true ↔ s.graph.contexts.Inert o) := by
  obtain ⟨const, free, hconst, hfree, hinert⟩ := ContextGraph.inert_spec ho
  rw [isInert, yields_bind, yields_get, yields_bind, yields_orHalt hconst, hinert]
  cases const with
  | true => simp
  | false =>
      simp only [Bool.false_eq_true, if_false, false_or]
      rw [yields_orHalt hfree]
      exact ⟨rfl, .rfl⟩

theorem yields_unless_inert {o : NodeId}
    (ho : ∀ mem, s.graph.contexts.PartOf o mem → mem < s.graph.contexts.memObjs.size)
    {k : SolverM C Unit} {Q : Unit → Solver C → Prop} (hinert : s.graph.contexts.Inert o → Q () s)
    (hk : ¬ s.graph.contexts.Inert o → Yields k s Q) :
    Yields (do if ← isInert o then pure () else k) s Q := by
  rw [yields_bind]
  refine (yields_isInert ho).mono ?_
  rintro b _ ⟨rfl, hb⟩
  cases b with
  | true => exact (yields_pure _).mpr (hinert (hb.mp rfl))
  | false => exact hk fun h => Bool.false_ne_true (hb.mpr h)

/-- What a projection of an object has to find: the field, and if it is the first one, linked with
the object. -/
structure Projected (s : Solver C) (offset : Offset) (o f : NodeId) : Prop where
  projects : s.graph.contexts.Projects o offset f
  home : s.graph.contexts.WholeAt f → s.graph.contexts.home f = f
  linked : offset.isZero → s.graph.contexts.home o = o → s.graph.Linked o f

/-- As long as no object gives up telling its fields apart, a node remains its own home. -/
theorem home_eq_self_of_steps (hsteps : Steps active s t) (hpending : t.pending = s.pending)
    (hs : s.WellFormed) {f : NodeId} (hf : f < s.graph.contexts.nodes.size)
    (hself : s.graph.contexts.WholeAt f → s.graph.contexts.home f = f)
    (hwhole : t.graph.contexts.WholeAt f) : t.graph.contexts.home f = f := by
  obtain ⟨mem, hpart, hwhole⟩ := hwhole
  have hext := (hsteps.frame hs).contexts
  rw [hext.home_eq hs.contexts (hsteps.wellFormed hs).contexts hf]
  refine hself ⟨mem, (hext.partOf_iff hf).mp hpart, ?_⟩
  rcases (hsteps.grows hs).whole mem hwhole with hw | hw
  · exact hw
  · exact hs.pending_whole mem (hpending ▸ hw)

/-- As long as no object gives up telling its fields apart, what a projection found stands. -/
theorem Projected.steps {offset : Offset} {o f : NodeId} (h : Projected s offset o f)
    (hsteps : Steps active s t) (hpending : t.pending = s.pending) (hs : s.WellFormed)
    (ho : o < s.graph.contexts.nodes.size) (hf : f < s.graph.contexts.nodes.size) :
    Projected t offset o f := by
  have ht := hsteps.wellFormed hs
  have hframe := hsteps.frame hs
  refine ⟨h.projects.extends hframe.contexts hs.contexts ht.contexts ho,
    home_eq_self_of_steps hsteps hpending hs hf h.home, fun hzero hself => ?_⟩
  rw [hframe.contexts.home_eq hs.contexts ht.contexts ho] at hself
  exact hframe.linked o f (h.linked hzero hself)

/-- Linking the field that was found with its object, if it is the first one. -/
theorem yields_linkFirst (active : NodeId → Prop) (hs : s.WellFormed) {c : Constraint}
    {offset : Offset} {o f : NodeId} (hc : s.graph.Has c) (hkind : c.kind = .field offset)
    (ho : o ∈ s.facts.pointsTo c.src) (hproj : s.graph.contexts.Projects o offset f)
    (hself : s.graph.contexts.WholeAt f → s.graph.contexts.home f = f) :
    Yields (do
        let base ← orHalt ((← get).graph.contexts.baseOf o)
        if offset.isZero ∧ base = o ∧ f ≠ o then addCopy base f
        return f) s
      fun f t => (Steps active s t ∧ t.pending = s.pending) ∧ Projected t offset o f := by
  have hlt := (hs.target _ _ ho).1
  rw [yields_bind, yields_get, yields_bind, yields_orHalt (hs.contexts.baseOf_eq hlt)]
  by_cases hcond : offset.isZero ∧ s.graph.contexts.home o = o ∧ f ≠ o
  · obtain ⟨hzero, hhome, hne⟩ := id hcond
    rw [if_pos hcond, yields_bind, hhome]
    have hdue : LinkDue s o f := by
      cases hproj with
      | self _ hf => exact absurd hf hne
      | whole _ hf heq => exact absurd ((hself hf).symm.trans (heq.trans hhome)) hne
      | field key hkey hf => exact .first c offset o f key hc hkind hzero ho hhome hkey hf
    refine (yields_link active hs hdue).mono fun _ t ⟨hsteps, hpending, hlinked⟩ => ?_
    rw [yields_pure]
    have ht := hsteps.wellFormed hs
    have hf : f < s.graph.contexts.nodes.size := hs.graph.size_eq ▸ (hdue.lt hs).2
    exact ⟨⟨hsteps, hpending⟩, hproj.extends (hsteps.frame hs).contexts hs.contexts ht.contexts hlt,
      home_eq_self_of_steps hsteps hpending hs hf hself, fun _ _ => hlinked⟩
  · rw [if_neg hcond]
    refine (yields_pure _).mpr ⟨⟨.refl, rfl⟩, hproj, hself, fun hzero hhome => ?_⟩
    have : f = o := by
      by_contra hne
      exact hcond ⟨hzero, hhome, hne⟩
    exact .inl (by rw [this])

/-- The field at an offset is found or made. -/
theorem yields_project (active : NodeId → Prop) (hs : s.WellFormed) {c : Constraint}
    {offset : Offset} {o : NodeId} (hc : s.graph.Has c) (hkind : c.kind = .field offset)
    (ho : o ∈ s.facts.pointsTo c.src) :
    Yields (project offset o) s
      fun f t => (Steps active s t ∧ t.pending = s.pending) ∧ Projected t offset o f := by
  have hlt := (hs.target _ _ ho).1
  rw [project, yields_bind]
  rcases ConstraintGraph.field_spec hs.graph hs.contexts hlt offset with
    ⟨f, hok, -, hproj, hself⟩ | ⟨key, g, hkey, hwhole, hnew, hok, hcontexts, hgrown⟩
  · rw [yields_onGraph hok]
    exact yields_linkFirst active hs hc hkind ho hproj hself
  · rw [yields_onGraph hok]
    have hstep : Step active s { s with graph := g } :=
      .grow s c offset o key g hc hkind ho hkey hwhole hnew hcontexts hgrown
    have hs' := hstep.wellFormed hs
    have hkey' := hkey.extends (Steps.frame (.single hstep) hs).contexts
    have hget : g.contexts.fieldNodes[key]? = some s.graph.slots.size := by
      rw [hcontexts, ContextGraph.fieldNodes_makeField]
      exact .inl ⟨rfl, hs.graph.size_eq⟩
    have hself : g.contexts.WholeAt s.graph.slots.size →
        g.contexts.home s.graph.slots.size = s.graph.slots.size := by
      rintro ⟨mem, hpart, hw⟩
      have hmem := (hs'.contexts.home_of_keyOf hkey' hget).1.unique hpart
      rcases (hstep.grows hs).whole mem hw with h | h
      · exact absurd ⟨mem, hmem ▸ hkey.partOf, h⟩ hwhole
      · exact absurd ⟨mem, hmem ▸ hkey.partOf, hs.pending_whole mem h⟩ hwhole
    refine (yields_linkFirst active hs' ((hstep.grows hs).has hc) hkind ho (.field key hkey' hget)
      hself).mono ?_
    rintro f t ⟨⟨hsteps, hpending⟩, hprojected⟩
    exact ⟨⟨.head hstep hsteps, hpending⟩, hprojected⟩

/-- A load links what it reads with what it writes, unless the object is inert. -/
theorem yields_processLoad (active : NodeId → Prop) (hs : s.WellFormed) {e : EdgeId}
    {c : Constraint} {o : NodeId}
    (he : s.graph.edge? e = some c) (hkind : c.kind = .load) (ho : o ∈ s.facts.pointsTo c.src) :
    Yields (processLoad o e) s fun _ t => Steps active s t ∧ Passes t c o := by
  simp only [Passes, hkind]
  refine yields_unless_inert (hs.contexts.mem_lt o) (fun h => ⟨.refl, absurd h⟩) fun hinert => ?_
  have htally : Step active s _ := .tally s { s.stats with loads := s.stats.loads + 1 }
  rw [yields_bind, yields_count, yields_bind, yields_edge (c := c) (by exact he)]
  refine (yields_link active (htally.wellFormed hs) (.load c o ⟨e, he⟩ hkind ho hinert)).mono ?_
  rintro _ t ⟨hsteps, -, hlinked⟩
  exact ⟨.head htally hsteps, fun _ => hlinked⟩

/-- A store links what it reads with the object that it writes, unless that is inert. -/
theorem yields_processStore (active : NodeId → Prop) (hs : s.WellFormed) {e : EdgeId}
    {c : Constraint} {o : NodeId}
    (he : s.graph.edge? e = some c) (hkind : c.kind = .store) (ho : o ∈ s.facts.pointsTo c.dst) :
    Yields (processStore o e) s fun _ t => Steps active s t ∧ Passes t c o := by
  simp only [Passes, hkind]
  refine yields_unless_inert (hs.contexts.mem_lt o) (fun h => ⟨.refl, absurd h⟩) fun hinert => ?_
  have htally : Step active s _ := .tally s { s.stats with stores := s.stats.stores + 1 }
  rw [yields_bind, yields_count, yields_bind, yields_edge (c := c) (by exact he)]
  refine (yields_link active (htally.wellFormed hs) (.store c o ⟨e, he⟩ hkind ho hinert)).mono ?_
  rintro _ t ⟨hsteps, -, hlinked⟩
  exact ⟨.head htally hsteps, fun _ => hlinked⟩

theorem yields_processField (hs : s.WellFormed) {c : Constraint} {offset : Offset}
    (hc : s.graph.Has c) (hkind : c.kind = .field offset) (hactive : active c.src) {objs : IdSet}
    (hobjs : ∀ o ∈ objs, o ∈ s.facts.pointsTo c.src) :
    Yields (processProjection c (project offset) objs) s
      fun _ t => Steps active s t ∧ ∀ o ∈ objs, Passes t c o := by
  have htally : Step active s _ := .tally s { s.stats with projections := s.stats.projections + 1 }
  have hs' := htally.wellFormed hs
  rw [processProjection, yields_bind, yields_count, yields_bind]
  refine (Yields.mapM (I := WellFormed)
    (R := fun t u : Solver C => Steps active t u ∧ u.pending = t.pending)
    (fun _ => ⟨.refl, rfl⟩) (fun h h' => ⟨h.1.trans h'.1, h'.2.trans h.2⟩)
    (fun ht h => Steps.wellFormed h.1 ht)
    (P := fun o f t => o < t.graph.contexts.nodes.size ∧ Projected t offset o f) hs'
    (fun o f t u ht h hP => ⟨Nat.lt_of_lt_of_le hP.1 (Steps.frame h.1 ht).contexts.size_le,
      hP.2.steps h.1 h.2 ht hP.1 (hP.2.projects.lt ht.contexts hP.1)⟩) objs.toList ?_).mono ?_
  · rintro o ho t ht ⟨hsteps, -⟩
    have hpts := hsteps.pointsTo hs' (hobjs o ho)
    have hlt := (ht.target _ _ hpts).1
    by_cases hspecial : ContextGraph.isSpecial o
    · simp only [hspecial, if_true, yields_pure]
      have hnone : ∀ mem, ¬ t.graph.contexts.PartOf o mem := fun mem =>
        ht.contexts.special o mem hspecial
      refine ⟨⟨.refl, trivial⟩, hlt, .self hnone rfl, fun hw => ?_, fun _ _ => .inl rfl⟩
      obtain ⟨mem, hpart, -⟩ := hw
      exact absurd hpart (hnone mem)
    · simp only [hspecial, Bool.false_eq_true, if_false]
      refine (yields_project active ht ((hsteps.grows hs').has hc) hkind hpts).mono ?_
      rintro f u ⟨hR, hprojected⟩
      exact ⟨hR, Nat.lt_of_lt_of_le hlt (hR.1.frame ht).contexts.size_le, hprojected⟩
  · rintro fields t ⟨⟨hsteps, -⟩, hall, hback⟩
    have ht := hsteps.wellFormed hs'
    have hc' := (hsteps.grows hs').has hc
    rw [yields_bind, yields_rep, yields_discard, yields_learn, ht.rep_dst hc']
    refine ⟨.head htally (.tail hsteps (.gain t c.dst _ ?_ ?_)), fun o ho => ?_⟩
    · intro f hf
      obtain ⟨o, ho, -, hprojected⟩ := hback f (IdSet.mem_ofList.mp hf)
      exact .field c offset o hc' hkind rfl hactive (hsteps.pointsTo hs' (hobjs o ho))
        hprojected.projects hprojected.home
    · intro f hf mem hpart hwhole
      obtain ⟨o, ho, -, hprojected⟩ := hback f (IdSet.mem_ofList.mp hf)
      refine .inr (.inl ?_)
      rwa [hprojected.home ⟨mem, hpart, hwhole⟩]
    · obtain ⟨f, hf, -, hprojected⟩ := hall o ho
      simp only [Passes, hkind, graph_learned]
      refine ⟨f, ?_, hprojected.projects, hprojected.linked⟩
      exact (mem_pointsTo_learned _ _ _).mpr (.inr ⟨rfl, IdSet.mem_ofList.mpr hf⟩)

/-- The whole object of a node, whose object gives up telling its fields apart. -/
theorem yields_widen (active : NodeId → Prop) (hs : s.WellFormed) {o : NodeId}
    (ho : o < s.graph.contexts.nodes.size) (hdue : WidenDue s o) :
    Yields (widen o) s fun f t => Steps active s t ∧ f = t.graph.contexts.home o ∧
      ∀ mem, t.graph.contexts.PartOf o mem → t.graph.contexts.IsWhole mem := by
  rw [widen, yields_bind]
  refine (yields_markFieldInsensitive active hs ho hdue).mono fun _ t ⟨hsteps, hwhole⟩ => ?_
  have hext := (hsteps.frame hs).contexts
  have hlt := Nat.lt_of_lt_of_le ho hext.size_le
  rw [yields_bind, yields_get, yields_orHalt ((hsteps.wellFormed hs).contexts.baseOf_eq hlt)]
  exact ⟨hsteps, rfl, fun mem hmem => hwhole mem ((hext.partOf_iff ho).mp hmem)⟩

theorem yields_processAnyField (hs : s.WellFormed) {c : Constraint} (hc : s.graph.Has c)
    (hkind : c.kind = .anyField) (hactive : active c.src) {objs : IdSet}
    (hobjs : ∀ o ∈ objs, o ∈ s.facts.pointsTo c.src) :
    Yields (processProjection c widen objs) s
      fun _ t => Steps active s t ∧ ∀ o ∈ objs, Passes t c o := by
  have htally : Step active s _ := .tally s { s.stats with projections := s.stats.projections + 1 }
  have hs' := htally.wellFormed hs
  rw [processProjection, yields_bind, yields_count, yields_bind]
  refine (Yields.mapM (I := WellFormed) (R := Steps active) (fun _ => .refl)
    (fun h h' => h.trans h') (fun ht h => Steps.wellFormed h ht)
    (P := fun o f t => o < t.graph.contexts.nodes.size ∧ f = t.graph.contexts.home o ∧
      ∀ mem, t.graph.contexts.PartOf o mem →
      t.graph.contexts.IsWhole mem) hs' ?_ objs.toList ?_).mono ?_
  · rintro o f t u ht hsteps ⟨hlt, rfl, hwhole⟩
    have hext := (Steps.frame hsteps ht).contexts
    refine ⟨Nat.lt_of_lt_of_le hlt hext.size_le, ?_, fun mem hmem => ?_⟩
    · rw [hext.home_eq ht.contexts (Steps.wellFormed hsteps ht).contexts hlt]
    · exact hext.isWhole (hwhole mem ((hext.partOf_iff hlt).mp hmem))
  · intro o ho t ht hsteps
    have hpts := hsteps.pointsTo hs' (hobjs o ho)
    have hlt := (ht.target _ _ hpts).1
    by_cases hspecial : ContextGraph.isSpecial o
    · simp only [hspecial, if_true, yields_pure]
      have hnone : ∀ mem, ¬ t.graph.contexts.PartOf o mem := fun mem =>
        ht.contexts.special o mem hspecial
      refine ⟨.refl, hlt, ?_, fun mem hmem => absurd hmem (hnone mem)⟩
      exact (ContextGraph.WellFormed.home_of_not_partOf hnone).symm
    · simp only [hspecial, Bool.false_eq_true, if_false]
      refine (yields_widen active ht hlt
        (.anyField c ((hsteps.grows hs').has hc) hkind hpts)).mono ?_
      rintro f u ⟨hsteps', hf, hwhole⟩
      exact ⟨hsteps', Nat.lt_of_lt_of_le hlt (hsteps'.frame ht).contexts.size_le, hf, hwhole⟩
  · rintro fields t ⟨hsteps, hall, hback⟩
    have ht := hsteps.wellFormed hs'
    have hc' := (hsteps.grows hs').has hc
    rw [yields_bind, yields_rep, yields_discard, yields_learn, ht.rep_dst hc']
    refine ⟨.head htally (.tail hsteps (.gain t c.dst _ ?_ ?_)), fun o ho => ?_⟩
    · intro f hf
      obtain ⟨o, ho, hlt, rfl, hwhole⟩ := hback f (IdSet.mem_ofList.mp hf)
      refine .anyField c o hc' hkind rfl hactive (hsteps.pointsTo hs' (hobjs o ho)) ?_
      by_cases hnone : ∀ mem, ¬ t.graph.contexts.PartOf o mem
      · exact .inl ⟨hnone, ContextGraph.WellFormed.home_of_not_partOf hnone⟩
      · simp only [not_forall, not_not] at hnone
        obtain ⟨mem, hmem⟩ := hnone
        exact .inr ⟨⟨mem, hmem, hwhole mem hmem⟩, rfl⟩
    · intro f hf mem hpart hwhole
      obtain ⟨o, ho, hlt, rfl, -⟩ := hback f (IdSet.mem_ofList.mp hf)
      refine .inr (.inl ?_)
      rwa [ht.contexts.home_home]
    · obtain ⟨f, hf, hlt, rfl, hwhole⟩ := hall o ho
      have hin : t.graph.contexts.home o ∈
          (t.learned c.dst (.ofList fields)).facts.pointsTo c.dst :=
        (mem_pointsTo_learned _ _ _).mpr (.inr ⟨rfl, IdSet.mem_ofList.mpr hf⟩)
      simp only [Passes, hkind, graph_learned]
      by_cases hnone : ∀ mem, ¬ t.graph.contexts.PartOf o mem
      · rw [ContextGraph.WellFormed.home_of_not_partOf hnone] at hin
        exact .inl ⟨hnone, hin⟩
      · simp only [not_forall, not_not] at hnone
        obtain ⟨mem, hmem⟩ := hnone
        refine .inr ⟨⟨mem, hmem, hwhole mem hmem⟩, _, hin, ?_, ht.contexts.home_home o⟩
        exact ⟨mem, ht.contexts.partOf_home hmem, hwhole mem hmem⟩

/-! ## Nodes -/

theorem yields_sendAlong (hs : s.WellFormed) {e : EdgeId} {c : Constraint}
    (he : s.graph.edge? e = some c) (hclass : c.kind.edgeClass = .direct) (hactive : active c.src)
    {objs : IdSet} (hobjs : ∀ o ∈ objs, o ∈ s.facts.pointsTo c.src)
    (htidy : c.kind = .copy → Tidy s c.dst objs) :
    Yields (sendAlong objs e) s fun _ t => Steps active s t ∧ ∀ o ∈ objs, Passes t c o := by
  have hc : s.graph.Has c := ⟨e, he⟩
  rw [sendAlong, yields_bind, yields_edge (c := c) he]
  cases hkind : c.kind with
  | copy => exact yields_processCopy hs hc hkind hactive hobjs (htidy hkind)
  | field offset => exact yields_processField hs hc hkind hactive hobjs
  | anyField => exact yields_processAnyField hs hc hkind hactive hobjs
  | addr => simp [hkind, ConstraintKind.edgeClass] at hclass
  | load => simp [hkind, ConstraintKind.edgeClass] at hclass
  | store => simp [hkind, ConstraintKind.edgeClass] at hclass

theorem Tidy.steps {n : NodeId} {objs : IdSet} (h : Tidy s n objs) (hsteps : Steps active s t)
    (hs : s.WellFormed) (hobjs : ∀ o ∈ objs, o < s.graph.contexts.nodes.size) : Tidy t n objs := by
  intro f hf mem hpart hwhole
  have hext := (hsteps.frame hs).contexts
  have hgrows := hsteps.grows hs
  rw [hext.home_eq hs.contexts (hsteps.wellFormed hs).contexts (hobjs f hf)]
  rcases hgrows.whole mem hwhole with hw | hw
  · rcases h f hf mem ((hext.partOf_iff (hobjs f hf)).mp hpart) hw with hm | hin | hold
    · exact .inl (hgrows.pending mem hm)
    · exact .inr (.inl hin)
    · exact .inr (.inr (hsteps.pointsTo hs hold))
  · exact .inl hw

/-- All direct constraints of a node pass on the objects that it sends. -/
theorem yields_send (active : NodeId → Prop) (hs : s.WellFormed) {n : NodeId} (hactive : active n)
    {objs : IdSet}
    (hobjs : ∀ o ∈ objs, o ∈ s.facts.pointsTo n)
    (htidy : ∀ c, s.graph.Has c → c.kind = .copy → c.src = n → Tidy s c.dst objs) :
    Yields (send n objs) s fun _ t => Steps active s t ∧ ∀ c, s.graph.Has c →
      c.kind.edgeClass = .direct → c.src = n → ∀ o ∈ objs, Passes t c o := by
  have hlt : ∀ o ∈ objs, o < s.graph.contexts.nodes.size :=
    fun o ho => (hs.target _ _ (hobjs o ho)).1
  rw [send]
  by_cases hempty : objs.isEmpty = true
  · rw [if_pos hempty, yields_pure]
    exact ⟨.refl, fun _ _ _ _ o ho => absurd ho (IdSet.isEmpty_iff.mp hempty o)⟩
  · rw [if_neg hempty, yields_bind, yields_get]
    refine (yields_forM_edges active objs
      (P := fun c => c.kind.edgeClass = .direct ∧ c.src = n) hs hlt _ ?_ ?_).mono ?_
    · exact fun e he => (hs.graph.listed .outgoing n .direct e).mp he
    · rintro t ht hsteps e c hec hc ⟨hclass, rfl⟩
      exact yields_sendAlong ht hec hclass hactive (fun o ho => hsteps.pointsTo hs (hobjs o ho))
        fun hkind => (htidy c hc hkind rfl).steps hsteps hs hlt
    · rintro _ t ⟨hsteps, hall⟩
      refine ⟨hsteps, ?_⟩
      rintro c ⟨e, he⟩ hclass rfl o ho
      have hlisted := (hs.graph.listed .outgoing _ .direct e).mpr ⟨c, he, hclass, rfl⟩
      exact (hall e hlisted c he o ho).passes

/-! ## Loads and stores -/

theorem holder_of_load {c : Constraint} (h : c.kind = .load) : c.holder = c.src := by
  simp [Constraint.holder, h]

theorem holder_of_store {c : Constraint} (h : c.kind = .store) : c.holder = c.dst := by
  simp [Constraint.holder, h]

theorem mem_loads (hs : s.WellFormed) {n : NodeId} {e : EdgeId} :
    e ∈ s.graph.edgesAt .outgoing n .load ↔
      ∃ c, s.graph.edge? e = some c ∧ c.kind = .load ∧ c.holder = n := by
  rw [hs.graph.listed]
  refine exists_congr fun c => and_congr_right fun _ => ?_
  cases hkind : c.kind <;>
    simp [ConstraintKind.edgeClass, Constraint.holder, Constraint.nearEnd, hkind]

theorem mem_stores (hs : s.WellFormed) {n : NodeId} {e : EdgeId} :
    e ∈ s.graph.edgesAt .incoming n .store ↔
      ∃ c, s.graph.edge? e = some c ∧ c.kind = .store ∧ c.holder = n := by
  rw [hs.graph.listed]
  refine exists_congr fun c => and_congr_right fun _ => ?_
  cases hkind : c.kind <;>
    simp [ConstraintKind.edgeClass, Constraint.holder, Constraint.nearEnd, hkind]

theorem yields_loads (active : NodeId → Prop) (hs : s.WellFormed) {n o : NodeId}
    (ho : o ∈ s.facts.pointsTo n) {edges : List EdgeId} (hedges : ∀ e ∈ edges, ∃ c,
      s.graph.edge? e = some c ∧ c.kind = .load ∧ c.holder = n) :
    Yields (edges.forM (processLoad o)) s fun _ t => Steps active s t ∧
      ∀ e ∈ edges, ∀ c, s.graph.edge? e = some c → Settled t c o := by
  have hin : o ∈ ({o} : IdSet) := IdSet.mem_singleton.mpr rfl
  have hlt : ∀ p ∈ ({o} : IdSet), p < s.graph.contexts.nodes.size := by
    simpa using (hs.target n o ho).1
  refine (yields_forM_edges active {o} (P := fun c => c.kind = .load ∧ c.holder = n) hs hlt edges
    hedges ?_).mono fun _ t h => ⟨h.1, fun e he c hec => h.2 e he c hec o hin⟩
  rintro t ht hsteps e c hec - ⟨hkind, hholder⟩
  rw [holder_of_load hkind] at hholder
  refine (yields_processLoad active ht hec hkind (hholder ▸ hsteps.pointsTo hs ho)).mono ?_
  rintro _ u ⟨hsteps', hpass⟩
  exact ⟨hsteps', fun p hp => IdSet.mem_singleton.mp hp ▸ hpass⟩

theorem yields_stores (active : NodeId → Prop) (hs : s.WellFormed) {n o : NodeId}
    (ho : o ∈ s.facts.pointsTo n) {edges : List EdgeId} (hedges : ∀ e ∈ edges, ∃ c,
      s.graph.edge? e = some c ∧ c.kind = .store ∧ c.holder = n) :
    Yields (edges.forM (processStore o)) s fun _ t => Steps active s t ∧
      ∀ e ∈ edges, ∀ c, s.graph.edge? e = some c → Settled t c o := by
  have hin : o ∈ ({o} : IdSet) := IdSet.mem_singleton.mpr rfl
  have hlt : ∀ p ∈ ({o} : IdSet), p < s.graph.contexts.nodes.size := by
    simpa using (hs.target n o ho).1
  refine (yields_forM_edges active {o} (P := fun c => c.kind = .store ∧ c.holder = n) hs hlt edges
    hedges ?_).mono fun _ t h => ⟨h.1, fun e he c hec => h.2 e he c hec o hin⟩
  rintro t ht hsteps e c hec - ⟨hkind, hholder⟩
  rw [holder_of_store hkind] at hholder
  refine (yields_processStore active ht hec hkind (hholder ▸ hsteps.pointsTo hs ho)).mono ?_
  rintro _ u ⟨hsteps', hpass⟩
  exact ⟨hsteps', fun p hp => IdSet.mem_singleton.mp hp ▸ hpass⟩

/-- The loads and stores through a pointer. -/
def IsAccess (c : Constraint) (n : NodeId) : Prop := (c.kind = .load ∨ c.kind = .store) ∧
  c.holder = n

/-- The loads and stores through a pointer deal with all that it points to. -/
theorem yields_dereference (active : NodeId → Prop) (hs : s.WellFormed) {n : NodeId}
    (hn : s.graph.isLive n) :
    Yields (dereference n) s fun _ t => Steps active s t ∧ ∀ c, s.graph.Has c →
      IsAccess c n → ∀ o ∈ s.facts.pointsTo n, Passes t c o := by
  rw [dereference, yields_bind, yields_get, pointsTo, hs.graph.rep_of_isLive n hn]
  refine (yields_forM_steps active
    (P := fun o t => ∀ c, s.graph.Has c → IsAccess c n → Settled t c o) hs
    (fun o t u ht hsteps hP c hc hn => (hP c hc hn).steps ht hsteps) _ ?_).mono ?_
  · intro o ho t ht hsteps
    have hgrows := hsteps.grows hs
    have hpts := hsteps.pointsTo hs ho
    have hkeep : ∀ {v : Solver C}, Grows t v → ∀ {P : Constraint → Prop} {e : EdgeId},
        (∃ c, s.graph.edge? e = some c ∧ P c) → ∃ c, v.graph.edge? e = some c ∧ P c := by
      rintro v hv P e ⟨c, hec, hP⟩
      exact ⟨c, hv.edge e c (hgrows.edge e c hec), hP⟩
    rw [yields_bind]
    refine (yields_loads active ht hpts fun e he => hkeep (.refl t) ((mem_loads hs).mp he)).mono ?_
    rintro _ u ⟨hloading, hloads⟩
    have hu := hloading.wellFormed ht
    have hgrows' := hloading.grows ht
    refine (yields_stores active hu (hloading.pointsTo ht hpts)
      fun e he => hkeep hgrows' ((mem_stores hs).mp he)).mono ?_
    rintro _ v ⟨hstoring, hstores⟩
    refine ⟨hloading.trans hstoring, ?_⟩
    rintro c ⟨e, hec⟩ ⟨hkind | hkind, hholder⟩
    · exact (hloads e ((mem_loads hs).mpr ⟨c, hec, hkind, hholder⟩) c
        (hgrows.edge e c hec)).steps hu hstoring
    · exact hstores e ((mem_stores hs).mpr ⟨c, hec, hkind, hholder⟩) c
        (hgrows'.edge e c (hgrows.edge e c hec))
  · rintro _ t ⟨hsteps, hall⟩
    exact ⟨hsteps, fun c hc hn o ho => (hall o ho c hc hn).passes⟩

end Solver

end PointerAnalysis
