import PointerAnalysis.Proofs.Components
import PointerAnalysis.Proofs.Solver.State

/-!
The steps of a run. Whatever the strategy, a run is made of a few kinds of steps, and each has a
reason. While a node is visited, the graph grows: a node gains what a constraint makes due, two
nodes are linked because of a load, a store or a first field, a field node is made because it is
projected to, an object gives up telling its fields apart. Between visits the graph collapses: nodes
are merged because they lie on a cycle or because one is a field of the other. Every step keeps a
state well-formed.
-/

namespace PointerAnalysis

namespace Solver

variable {C : Type} [Context C]

/-! ## Reasons -/

/-- A constraint makes an object due at a node. Only nodes that are `active` send what they hold. -/
inductive Due (active : NodeId → Prop) (s : Solver C) (n o : NodeId) : Prop where
  | addr (c : Constraint) (hc : s.graph.Has c) (hkind : c.kind = .addr) (hdst : c.dst = n)
      (hsrc : c.src = o)
  | copy (c : Constraint) (hc : s.graph.Has c) (hkind : c.kind = .copy) (hdst : c.dst = n)
      (hactive : active c.src) (ho : o ∈ s.facts.pointsTo c.src)
  | field (c : Constraint) (offset : Offset) (p : NodeId) (hc : s.graph.Has c)
      (hkind : c.kind = .field offset) (hdst : c.dst = n) (hactive : active c.src)
      (hp : p ∈ s.facts.pointsTo c.src) (hproj : s.graph.contexts.Projects p offset o)
      (hhome : s.graph.contexts.WholeAt o → s.graph.contexts.home o = o)
  | anyField (c : Constraint) (p : NodeId) (hc : s.graph.Has c) (hkind : c.kind = .anyField)
      (hdst : c.dst = n) (hactive : active c.src) (hp : p ∈ s.facts.pointsTo c.src)
      (ho : (∀ mem, ¬ s.graph.contexts.PartOf p mem) ∧ o = p ∨
        s.graph.contexts.WholeAt p ∧ o = s.graph.contexts.home p)

/-- Objects that keep a node closed under homes: with a field of an object that does not tell its
fields apart comes the home, unless the object is still to be folded. -/
def Tidy (s : Solver C) (n : NodeId) (objs : IdSet) : Prop :=
  ∀ f ∈ objs, ∀ mem, s.graph.contexts.PartOf f mem → s.graph.contexts.IsWhole mem →
    mem ∈ s.pending ∨ s.graph.contexts.home f ∈ objs ∨
      s.graph.contexts.home f ∈ s.facts.pointsTo n

/-- A constraint makes two nodes linked. -/
inductive LinkDue (s : Solver C) : NodeId → NodeId → Prop where
  | load (c : Constraint) (o : NodeId) (hc : s.graph.Has c) (hkind : c.kind = .load)
      (ho : o ∈ s.facts.pointsTo c.src) (hinert : ¬ s.graph.contexts.Inert o) : LinkDue s o c.dst
  | store (c : Constraint) (o : NodeId) (hc : s.graph.Has c) (hkind : c.kind = .store)
      (ho : o ∈ s.facts.pointsTo c.dst) (hinert : ¬ s.graph.contexts.Inert o) : LinkDue s c.src o
  | first (c : Constraint) (offset : Offset) (o f : NodeId) (key : FieldKey C) (hc : s.graph.Has c)
      (hkind : c.kind = .field offset) (hzero : offset.isZero) (ho : o ∈ s.facts.pointsTo c.src)
      (hhome : s.graph.contexts.home o = o) (hkey : s.graph.contexts.KeyOf o offset key)
      (hf : s.graph.contexts.fieldNodes[key]? = some f) : LinkDue s o f

/-- An object has to give up telling its fields apart. -/
inductive WidenDue (s : Solver C) (o : NodeId) : Prop where
  | shifting (n : NodeId) (hn : s.graph.isShifting n) (ho : o ∈ s.facts.pointsTo n)
  | anyField (c : Constraint) (hc : s.graph.Has c) (hkind : c.kind = .anyField)
      (ho : o ∈ s.facts.pointsTo c.src)

/-- Nodes that can be merged into `r`. -/
structure Mergeable (s : Solver C) (r : NodeId) (subs : List NodeId) : Prop where
  live : s.graph.isLive r
  live_subs : ∀ n ∈ subs, s.graph.isLive n
  nodup : (r :: subs).Nodup
  nonempty : subs ≠ []

/-- Nodes that are to be merged into `r`; of `members`, no others are alive. -/
structure Group (s : Solver C) (r : NodeId) (subs : List NodeId) (members : IdSet) : Prop
    extends Mergeable s r subs where
  members_iff : ∀ n, s.graph.isLive n → (n ∈ members ↔ n ∈ r :: subs)

/-- Nodes have to be merged: they lie on a cycle of direct constraints, or one stands for a field of
an object that does not tell its fields apart and the other for the whole object. -/
inductive FuseDue (s : Solver C) (r : NodeId) (subs : List NodeId) : Prop where
  | cycle (h : ∀ n ∈ subs, Components.Mutual s.graph.directEnds r n)
  | fold (f : NodeId) (hf : s.graph.contexts.WholeAt f)
      (hr : r = s.graph.rep (s.graph.contexts.home f)) (hsubs : subs = [s.graph.rep f])

/-- The state once `subs` are merged into `r`. -/
structure Fused (s s' : Solver C) (r : NodeId) (subs : List NodeId) (members : IdSet) : Prop where
  graph : s.graph.Merged s'.graph r subs members
  strategy : s'.strategy = s.strategy
  pending : s'.pending = s.pending
  copied : s'.copied = s.copied
  merged : s'.merged = true
  initialized : s'.initialized = s.initialized
  worklist : s'.worklist = s.worklist.push r
  pointsTo : ∀ n o, o ∈ s'.facts.pointsTo n ↔
    n ∉ subs ∧ (o ∈ s.facts.pointsTo n ∨ n = r ∧ ∃ m ∈ subs, o ∈ s.facts.pointsTo m)
  sentBy : s.strategy = .waveDiff → ∀ n o, o ∈ s'.facts.sentBy n →
    n ∉ subs ∧ o ∈ s.facts.sentBy n ∧ (n = r → ∀ m ∈ subs, o ∈ s.facts.sentBy m)
  handledBy : ∀ e, s'.facts.handledBy e = s.facts.handledBy e
  filled : s.facts.Filled → s'.facts.Filled
  mergedNodes : s'.stats.mergedNodes = s.stats.mergedNodes + subs.length

/-! ## Steps -/

/-- One step of a visit, in which only `active` nodes send what they hold. -/
inductive Step (active : NodeId → Prop) : Solver C → Solver C → Prop where
  | tally (s : Solver C) (stats : SolverStats) : Step active s { s with stats }
  | gain (s : Solver C) (n : NodeId) (objs : IdSet) (hdue : ∀ o ∈ objs, Due active s n o)
      (htidy : Tidy s n objs) : Step active s (s.learned n objs)
  | link (s : Solver C) (src dst : NodeId) (e : EdgeId) (g : ConstraintGraph C)
      (hdue : LinkDue s src dst) (hok : s.graph.addEdge src dst .copy = .ok (some e, g)) :
      Step active s (s.linked g src dst)
  | grow (s : Solver C) (c : Constraint) (offset : Offset) (o : NodeId) (key : FieldKey C)
      (g : ConstraintGraph C) (hc : s.graph.Has c) (hkind : c.kind = .field offset)
      (ho : o ∈ s.facts.pointsTo c.src) (hkey : s.graph.contexts.KeyOf o offset key)
      (hwhole : ¬ s.graph.contexts.WholeAt o) (hnew : s.graph.contexts.fieldNodes[key]? = none)
      (hcontexts : g.contexts = (s.graph.contexts.makeField key (s.graph.contexts.home o)).2)
      (hgrown : s.graph.Grown g) : Step active s { s with graph := g }
  | widen (s : Solver C) (o : NodeId) (mem : MemObjId) (contexts : ContextGraph C)
      (hdue : WidenDue s o) (hpart : s.graph.contexts.PartOf o mem)
      (hnew : ¬ s.graph.contexts.IsWhole mem)
      (hok : s.graph.contexts.setFieldInsensitive mem = .ok (true, contexts)) :
      Step active s
        { s with graph := { s.graph with contexts }, pending := s.pending.insert mem }

/-- One step of merging. -/
inductive Collapse : Solver C → Solver C → Prop where
  | tally (s : Solver C) (stats : SolverStats) : Collapse s { s with stats }
  | spill (s : Solver C) (n f : NodeId) (hf : f ∈ s.facts.pointsTo n)
      (hwhole : s.graph.contexts.WholeAt f) (hnew : s.graph.contexts.home f ∉ s.facts.pointsTo n) :
      Collapse s { s.learned n {s.graph.contexts.home f} with merged := true }
  | fuse {s s' : Solver C} (r : NodeId) (subs : List NodeId) (members : IdSet)
      (hgroup : Group s r subs members) (hdue : FuseDue s r subs)
      (hfused : Fused s s' r subs members) : Collapse s s'

/-- One step of a run, or a change to the records that no constraint depends on. -/
inductive Move (active : NodeId → Prop) : Solver C → Solver C → Prop where
  | step {s s' : Solver C} (h : Step active s s') : Move active s s'
  | collapse {s s' : Solver C} (h : Collapse s s') : Move active s s'
  | clear (s : Solver C) : Move active s { s with pending := ∅ }
  | record (s : Solver C) (facts : Facts) (h : ∀ n, facts.pointsTo n = s.facts.pointsTo n) :
      Move active s { s with facts }

/-- Any number of steps of a visit. -/
abbrev Steps (active : NodeId → Prop) : Solver C → Solver C → Prop :=
  Relation.ReflTransGen (Step active)

/-- Any number of steps of merging. -/
abbrev Collapses : Solver C → Solver C → Prop := Relation.ReflTransGen Collapse

/-- Any number of steps of a run. -/
abbrev Moves (active : NodeId → Prop) : Solver C → Solver C → Prop :=
  Relation.ReflTransGen (Move active)

variable {active : NodeId → Prop} {s s' : Solver C}

theorem Steps.moves (h : Steps active s s') : Moves active s s' :=
  h.lift id fun _ _ => .step

theorem Collapses.moves (h : Collapses s s') : Moves active s s' :=
  h.lift id fun _ _ => .collapse

/-! ## Well-formedness -/

/-- Whatever is due may be pointed to, at a node that is alive. -/
theorem Due.target (hs : s.WellFormed) {n o : NodeId} (h : Due active s n o) :
    s.graph.contexts.IsTarget o ∧ s.graph.isLive n := by
  cases h with
  | addr c hc hkind hdst hsrc =>
      exact ⟨hsrc ▸ hs.addr_target c hc hkind, hdst ▸ hs.graph.isLive_dst hc⟩
  | copy c hc hkind hdst hactive ho => exact ⟨hs.target _ _ ho, hdst ▸ hs.graph.isLive_dst hc⟩
  | field c offset p hc hkind hdst hactive hp hproj hhome =>
      refine ⟨?_, hdst ▸ hs.graph.isLive_dst hc⟩
      have htarget := hs.target _ _ hp
      cases hproj with
      | self _ ho => exact ho ▸ htarget
      | whole _ ho _ =>
          obtain ⟨mem, hpart, -⟩ := ho
          exact ⟨hpart.lt, .inr ⟨mem, hpart⟩⟩
      | field key hkey hf =>
          have hpart := (hs.contexts.home_of_keyOf hkey hf).1
          exact ⟨hpart.lt, .inr ⟨_, hpart⟩⟩
  | anyField c p hc hkind hdst hactive hp ho =>
      refine ⟨?_, hdst ▸ hs.graph.isLive_dst hc⟩
      have htarget := hs.target _ _ hp
      rcases ho with ⟨-, rfl⟩ | ⟨-, rfl⟩
      · exact htarget
      · exact hs.contexts.isTarget_home htarget

theorem LinkDue.lt (hs : s.WellFormed) {src dst : NodeId} (h : LinkDue s src dst) :
    src < s.graph.slots.size ∧ dst < s.graph.slots.size := by
  cases h with
  | load c o hc hkind ho hinert =>
      exact ⟨hs.target_lt ho, ConstraintGraph.isLive_lt (hs.graph.isLive_dst hc)⟩
  | store c o hc hkind ho hinert =>
      exact ⟨ConstraintGraph.isLive_lt (hs.graph.isLive_src hc), hs.target_lt ho⟩
  | first c offset o f key hc hkind hzero ho hhome hkey hf =>
      refine ⟨hs.target_lt ho, ?_⟩
      rw [hs.graph.size_eq]
      exact (hs.contexts.home_of_keyOf hkey hf).1.lt

section coherent

variable {allowed : NodeId → Prop}

theorem Coherent.learned (hs : s.Coherent allowed) {n : NodeId} {objs : IdSet}
    (h : ∀ o ∈ objs, allowed o ∧ s.graph.isLive n) : (s.learned n objs).Coherent allowed where
  graph := by simpa using hs.graph
  live m o ho := by
    rw [graph_learned]
    rcases (mem_pointsTo_learned s n objs).mp ho with hold | ⟨rfl, hnew⟩
    · exact hs.live m o hold
    · exact (h o hnew).2
  target m o ho := by
    rcases (mem_pointsTo_learned s n objs).mp ho with hold | ⟨rfl, hnew⟩
    · exact hs.target m o hold
    · exact (h o hnew).1
  addr_target c hc hkind := by
    rw [graph_learned] at hc
    exact hs.addr_target c hc hkind
  worklist_lt m hm := by
    rw [graph_learned]
    rcases (mem_worklist_learned s n objs).mp hm with hm | ⟨rfl, hm⟩
    · exact hs.worklist_lt m hm
    · rw [IdSet.subset_def, not_forall] at hm
      obtain ⟨o, ho⟩ := hm
      exact ConstraintGraph.isLive_lt (h o (by tauto)).2
  worklist_nodup := by
    rw [worklist_learned]
    split
    · exact hs.worklist_nodup
    · exact WorkList.nodup_push hs.worklist_nodup n

theorem Coherent.linked (hs : s.Coherent allowed) {src dst : NodeId} {e : EdgeId}
    {g : ConstraintGraph C} (hsrc : src < s.graph.slots.size) (hdst : dst < s.graph.slots.size)
    (hok : s.graph.addEdge src dst .copy = .ok (some e, g)) :
    (s.linked g src dst).Coherent allowed := by
  obtain ⟨r, g', hok', hnodes, hindexed, -, -, hhas, -, -⟩ :=
    s.graph.addEdge_spec hs.graph.toIntact hsrc hdst .copy
  cases hok.symm.trans hok'
  have hlive : ∀ n, n < s.graph.slots.size → g.isLive (g.rep n) := by
    intro n hn
    rw [hnodes.isLive, hnodes.rep]
    exact hs.graph.isLive_rep n hn
  constructor
  case graph =>
    rw [graph_linked]
    exact ⟨⟨hnodes.partitioned hs.graph.toPartitioned, hindexed⟩, hnodes.size_eq hs.graph⟩
  case live =>
    intro n o ho
    rw [graph_linked]
    rcases (mem_pointsTo_linked s g src dst).mp ho with ho | ⟨-, rfl, -⟩
    · rw [hnodes.isLive]
      exact hs.live n o ho
    · exact hlive dst hdst
  case target =>
    intro n o ho
    rcases (mem_pointsTo_linked s g src dst).mp ho with ho | ⟨-, -, ho⟩
    · exact hs.target n o ho
    · exact hs.target _ o ho
  case addr_target =>
    intro c hc hkind
    rw [graph_linked] at hc
    rcases (hhas c).mp hc with hc | ⟨rfl, -⟩
    · exact hs.addr_target c hc hkind
    · simp [ConstraintGraph.between] at hkind
  case worklist_lt =>
    intro n hn
    rw [graph_linked, hnodes.size]
    rcases (mem_worklist_linked s g src dst).mp hn with hn | ⟨-, rfl⟩ | ⟨-, rfl, -⟩
    · exact hs.worklist_lt n hn
    · rw [← hnodes.size]
      exact ConstraintGraph.isLive_lt (hlive src hsrc)
    · rw [← hnodes.size]
      exact ConstraintGraph.isLive_lt (hlive dst hdst)
  case worklist_nodup =>
    rw [worklist_linked]
    split
    · split
      · exact hs.worklist_nodup
      · exact WorkList.nodup_push hs.worklist_nodup _
    · exact WorkList.nodup_push hs.worklist_nodup _

/-- A graph with one more node. -/
theorem Coherent.grown (hs : s.Coherent allowed) {allowed' : NodeId → Prop} {g : ConstraintGraph C}
    (hgrown : s.graph.Grown g) (hallowed : ∀ n, allowed n → allowed' n) :
    Coherent allowed' { s with graph := g } where
  graph := hgrown.consistent
  live n o ho := (hgrown.isLive_iff n).mpr (.inl (hs.live n o ho))
  target n o ho := hallowed o (hs.target n o ho)
  addr_target c hc hkind := by
    simp only [ConstraintGraph.Has, ConstraintGraph.edge?, hgrown.edges] at hc
    exact hallowed c.src (hs.addr_target c hc hkind)
  worklist_lt n hn := by
    change n < g.slots.size
    rw [hgrown.size]
    exact Nat.lt_succ_of_lt (hs.worklist_lt n hn)
  worklist_nodup := hs.worklist_nodup

/-- A context graph that changed in other respects than its number of nodes. -/
theorem Coherent.recontexted (hs : s.Coherent allowed) {allowed' : NodeId → Prop}
    {contexts : ContextGraph C} {pending : IdSet}
    (hsize : contexts.nodes.size = s.graph.contexts.nodes.size)
    (hallowed : ∀ n, allowed n → allowed' n) :
    Coherent allowed' { s with graph := { s.graph with contexts }, pending } := by
  have hg := hs.graph
  have hpart : ConstraintGraph.Partitioned { s.graph with contexts } :=
    ⟨hg.isLive_rep, hg.rep_of_isLive, hg.rep_of_size_le, hg.mem_subs⟩
  have hindexed : ConstraintGraph.Indexed { s.graph with contexts } :=
    hg.toIndexed.congr rfl rfl rfl fun _ _ _ => rfl
  exact ⟨⟨⟨hpart, hindexed⟩, hg.size_eq.trans hsize.symm⟩, hs.live,
    fun n o ho => hallowed o (hs.target n o ho), fun c hc hkind =>
      hallowed c.src (hs.addr_target c hc hkind),
    hs.worklist_lt, hs.worklist_nodup⟩

theorem Coherent.fused (hs : s.Coherent allowed) {r : NodeId} {subs : List NodeId} {members : IdSet}
    (hr : s.graph.isLive r) (hfused : Fused s s' r subs members) : s'.Coherent allowed := by
  have hg := hfused.graph
  refine ⟨hg.consistent hs.graph, ?_, ?_, ?_, ?_, ?_⟩
  · intro n o ho
    obtain ⟨hn, ho⟩ := (hfused.pointsTo n o).mp ho
    rw [hg.isLive_iff]
    rcases ho with ho | ⟨rfl, -⟩
    · exact ⟨hs.live n o ho, hn⟩
    · exact ⟨hr, hn⟩
  · intro n o ho
    rcases ((hfused.pointsTo n o).mp ho).2 with ho | ⟨-, m, -, ho⟩
    · exact hs.target n o ho
    · exact hs.target m o ho
  · intro c hc hkind
    obtain ⟨c₀, hc₀, hsurvives, rfl⟩ := (hg.has_iff c).mp hc
    have hkind₀ : c₀.kind = .addr := hkind
    simp only [ConstraintGraph.Survives, hkind₀, ConstraintKind.edgeClass] at hsurvives
    have hsrc : (c₀.rename (ConstraintGraph.redirect subs r)).src = c₀.src := by
      simp [Constraint.rename, ConstraintGraph.redirect, hsurvives.1]
    rw [hsrc]
    exact hs.addr_target c₀ hc₀ hkind₀
  · intro n hn
    rw [hfused.worklist] at hn
    rw [hg.size]
    rcases WorkList.mem_push.mp hn with hn | rfl
    · exact hs.worklist_lt n hn
    · exact ConstraintGraph.isLive_lt hr
  · rw [hfused.worklist]
    exact WorkList.nodup_push hs.worklist_nodup r

end coherent

theorem WellFormed.learned (hs : s.WellFormed) {n : NodeId} {objs : IdSet}
    (h : ∀ o ∈ objs, s.graph.contexts.IsTarget o ∧ s.graph.isLive n) :
    (s.learned n objs).WellFormed := by
  refine Coherent.wellFormed ?_ ?_ ?_
  · rw [graph_learned]
    exact hs.coherent.learned h
  · simpa using hs.contexts
  · simpa using hs.pending_whole

theorem WellFormed.linked (hs : s.WellFormed) {src dst : NodeId} {e : EdgeId}
    {g : ConstraintGraph C} (hsrc : src < s.graph.slots.size) (hdst : dst < s.graph.slots.size)
    (hok : s.graph.addEdge src dst .copy = .ok (some e, g)) : (s.linked g src dst).WellFormed := by
  have hcontexts : g.contexts = s.graph.contexts := by
    obtain ⟨r, g', hok', hnodes, -⟩ := s.graph.addEdge_spec hs.graph.toIntact hsrc hdst .copy
    cases hok.symm.trans hok'
    exact hnodes.contexts
  refine Coherent.wellFormed ?_ ?_ ?_
  · rw [graph_linked, hcontexts]
    exact hs.coherent.linked hsrc hdst hok
  · rw [graph_linked, hcontexts]
    exact hs.contexts
  · rw [graph_linked, pending_linked, hcontexts]
    exact hs.pending_whole

/-- A graph with one more field node. -/
theorem WellFormed.grown (hs : s.WellFormed) {o : NodeId} {offset : Offset} {key : FieldKey C}
    {g : ConstraintGraph C} (hkey : s.graph.contexts.KeyOf o offset key)
    (hnew : s.graph.contexts.fieldNodes[key]? = none)
    (hcontexts : g.contexts = (s.graph.contexts.makeField key (s.graph.contexts.home o)).2)
    (hgrown : s.graph.Grown g) : WellFormed { s with graph := g } := by
  have hext : s.graph.contexts.Extends g.contexts := by
    rw [hcontexts]
    exact ContextGraph.extends_makeField _ hnew
  refine (hs.coherent.grown hgrown fun _ => hext.isTarget).wellFormed ?_ ?_
  · change g.contexts.WellFormed
    rw [hcontexts]
    exact ContextGraph.wellFormed_makeField hs.contexts hkey hnew
  · exact fun mem hmem => hext.isWhole (hs.pending_whole mem hmem)

/-- An object that has given up telling its fields apart waits to be folded. -/
theorem WellFormed.widened (hs : s.WellFormed) {mem : MemObjId} {changed : Bool}
    {contexts : ContextGraph C} (hmem : mem < s.graph.contexts.memObjs.size)
    (hok : s.graph.contexts.setFieldInsensitive mem = .ok (changed, contexts)) :
    WellFormed { s with graph := { s.graph with contexts }, pending := s.pending.insert mem } := by
  obtain ⟨changed', g', hok', hwf, hext, hnodes, -, hwhole, -, -⟩ :=
    ContextGraph.setFieldInsensitive_spec hs.contexts hmem
  cases hok.symm.trans hok'
  refine (hs.coherent.recontexted (by rw [hnodes]) fun _ => hext.isTarget).wellFormed hwf ?_
  intro m hm
  rcases IdSet.mem_insert.mp hm with rfl | hm
  · exact (hwhole m).mpr (.inr rfl)
  · exact (hwhole m).mpr (.inl (hs.pending_whole m hm))

theorem Step.wellFormed (h : Step active s s') (hs : s.WellFormed) : s'.WellFormed := by
  cases h with
  | tally stats => exact ⟨hs.1, hs.2, hs.3, hs.4, hs.5, hs.6, hs.7, hs.8⟩
  | gain n objs hdue htidy => exact hs.learned fun o ho => (hdue o ho).target hs
  | link src dst e g hdue hok =>
      obtain ⟨hsrc, hdst⟩ := hdue.lt hs
      exact hs.linked hsrc hdst hok
  | grow c offset o key g hc hkind ho hkey hwhole hnew hcontexts hgrown =>
      exact hs.grown hkey hnew hcontexts hgrown
  | widen o mem contexts hdue hpart hnew hok =>
      exact hs.widened (hs.contexts.mem_lt o mem hpart) hok

theorem Collapse.wellFormed (h : Collapse s s') (hs : s.WellFormed) : s'.WellFormed := by
  cases h with
  | tally stats => exact ⟨hs.1, hs.2, hs.3, hs.4, hs.5, hs.6, hs.7, hs.8⟩
  | spill n f hf hwhole hnew =>
      have htarget : ∀ o ∈ ({s.graph.contexts.home f} : IdSet),
          s.graph.contexts.IsTarget o ∧ s.graph.isLive n := by
        intro o ho
        rw [IdSet.mem_singleton.mp ho]
        exact ⟨hs.contexts.isTarget_home (hs.target n f hf), hs.live n f hf⟩
      have h := hs.learned htarget
      exact ⟨h.1, h.2, h.3, h.4, h.5, h.6, h.7, h.8⟩
  | fuse r subs members hgroup hdue hfused =>
      have hcontexts := hfused.graph.contexts
      refine Coherent.wellFormed ?_ (hcontexts ▸ hs.contexts) fun mem hmem => ?_
      · rw [hcontexts]
        exact hs.coherent.fused hgroup.live hfused
      · rw [hfused.pending] at hmem
        rw [hcontexts]
        exact hs.pending_whole mem hmem

theorem Move.wellFormed (h : Move active s s') (hs : s.WellFormed) : s'.WellFormed := by
  cases h with
  | step h => exact h.wellFormed hs
  | collapse h => exact h.wellFormed hs
  | clear => exact ⟨hs.1, hs.2, hs.3, hs.4, hs.5, hs.6, hs.7, by simp⟩
  | record facts h =>
      exact ⟨hs.1, hs.2, fun n o ho => hs.3 n o (h n ▸ ho), fun n o ho => hs.4 n o (h n ▸ ho), hs.5,
        hs.6, hs.7, hs.8⟩

theorem Moves.wellFormed (h : Moves active s s') (hs : s.WellFormed) : s'.WellFormed := by
  induction h with
  | refl => exact hs
  | tail _ hstep ih => exact hstep.wellFormed ih

theorem Steps.wellFormed (h : Steps active s s') (hs : s.WellFormed) : s'.WellFormed :=
  h.moves.wellFormed hs

theorem Collapses.wellFormed (h : Collapses s s') (hs : s.WellFormed) : s'.WellFormed :=
  (h.moves : Moves (fun _ => False) s s').wellFormed hs

end Solver

end PointerAnalysis
