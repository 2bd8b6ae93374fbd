import Mathlib.Logic.Relation
import PointerAnalysis.Policy.CallString
import PointerAnalysis.Proofs.ConstraintGraph.Construction
import PointerAnalysis.Proofs.ConstraintGraph.Merge
import PointerAnalysis.Proofs.ContextGraph.Copies

/-!
Constraint graphs under any sequence of operations. Each operation that finds what it asks for
succeeds, keeps all places where a constraint is recorded in agreement, and gives out only new ids.
So this holds of every graph that arises from that of a context graph.
-/

namespace PointerAnalysis

namespace ConstraintGraph

variable {C : Type} [Context C] {g g' : ConstraintGraph C}

/-- An operation on a constraint graph. -/
inductive Edit where
  | add (src dst : NodeId) (kind : ConstraintKind)
  | remove (e : EdgeId)
  | retarget (side : Side) (e : EdgeId) (n : NodeId)
  | field (n : NodeId) (offset : Offset)
  | merge (sub rep : NodeId) (members : IdSet)

/-- Applies an operation. A merge moves the constraints of `sub`, declares it dead and hands over
the nodes that it represents. -/
def edit (g : ConstraintGraph C) : Edit → Except Fault (ConstraintGraph C)
  | .add src dst kind => return (← g.addEdge src dst kind).2
  | .remove e => return (← g.removeEdge e).2
  | .retarget side e n => return (← g.retarget side e n).2
  | .field n offset => return (← g.field n offset).2
  | .merge sub rep members => do
    let (_, g) ← g.moveEdges sub rep members
    (← g.removeNode sub).mergeRep sub rep

/-- What an operation asks of the graph: ids that were given out, constraints and nodes that are
alive, and a context graph that can tell the field. -/
def Allows (g : ConstraintGraph C) : Edit → Prop
  | .add src dst _ => src < g.slots.size ∧ dst < g.slots.size
  | .remove e => (g.edge? e).isSome
  | .retarget _ e n => (g.edge? e).isSome ∧ g.isLive n
  | .field n offset => ∃ r, g.contexts.field n offset = .ok r
  | .merge sub rep members =>
    sub ≠ rep ∧ g.isLive sub ∧ g.isLive rep ∧ sub ∈ members ∧ rep ∈ members

instance (g : ConstraintGraph C) (e : Edit) : Decidable (g.Allows e) :=
  match e with
  | .add src dst _ => inferInstanceAs (Decidable (src < g.slots.size ∧ dst < g.slots.size))
  | .remove e => inferInstanceAs (Decidable ((g.edge? e).isSome = true))
  | .retarget _ e n => inferInstanceAs (Decidable ((g.edge? e).isSome = true ∧ g.isLive n = true))
  | .field n offset =>
    match h : g.contexts.field n offset with
    | .ok r => .isTrue ⟨r, h⟩
    | .error _ => .isFalse fun ⟨_, hr⟩ => by cases h.symm.trans hr
  | .merge sub rep members => inferInstanceAs (Decidable (sub ≠ rep ∧ g.isLive sub = true ∧
      g.isLive rep = true ∧ sub ∈ members ∧ rep ∈ members))

/-- One operation that the graph allows leads from the one graph to the other. -/
def EditsTo (g g' : ConstraintGraph C) : Prop := ∃ e, g.Allows e ∧ g.edit e = .ok g'

/-- A sequence of operations leads from the one graph to the other. -/
abbrev Edits : ConstraintGraph C → ConstraintGraph C → Prop := Relation.ReflTransGen EditsTo

/-- Applies operations in turn, as long as the graph allows them. -/
def editAll? : List Edit → ConstraintGraph C → Option (ConstraintGraph C)
  | [], g => some g
  | e :: es, g =>
    if g.Allows e then
      match g.edit e with
      | .ok g => editAll? es g
      | .error _ => none
    else none

theorem edits_of_editAll? {es : List Edit} (h : editAll? es g = some g') : Edits g g' := by
  induction es generalizing g with
  | nil =>
      cases h
      exact .refl
  | cons e es ih =>
      rw [editAll?] at h
      split at h
      · rename_i he
        split at h
        · rename_i g₁ hok
          exact .head ⟨e, he, hok⟩ (ih h)
        · cases h
      · cases h

/-! ## The graph of a context graph -/

theorem isLive_of_modifyNode {n : NodeId} {f : ConstraintNode → ConstraintNode}
    (h : g.modifyNode n f = .ok g') : g.isLive n ∧ ∀ m, g'.isLive m = g.isLive m := by
  unfold modifyNode at h
  split at h
  · rename_i node hnode
    cases h
    have hlive : g.isLive n := by simp [isLive, hnode]
    refine ⟨hlive, fun m => ?_⟩
    rw [isLive, node?_setSlot g (isLive_lt hlive), isLive]
    by_cases hm : m = n
    · simp [hm, hnode]
    · simp [hm]
  · cases h

/-- A constraint can be listed only between live nodes. -/
theorem isLive_of_pushEdge {c : Constraint} {r : EdgeId × ConstraintGraph C}
    (h : g.pushEdge c = .ok r) : g.isLive c.src ∧ g.isLive c.dst := by
  obtain ⟨g₁, hsrc, h⟩ := bind_eq_ok h
  obtain ⟨g₂, hdst, -⟩ := bind_eq_ok h
  have hlive := isLive_of_modifyNode hsrc
  refine ⟨hlive.1, ?_⟩
  rw [← hlive.2]
  exact (isLive_of_modifyNode hdst).1

/-- A constraint that is added keeps the graph intact, whatever nodes it was asked for. -/
theorem Intact.addEdge (hg : g.Intact) {src dst : NodeId} {kind : ConstraintKind}
    {r : Option EdgeId} (h : g.addEdge src dst kind = .ok (r, g')) : g'.Intact := by
  simp only [ConstraintGraph.addEdge] at h
  split at h
  · cases h
    exact hg
  · rename_i hloop
    split at h
    · cases h
      exact hg
    · rename_i hfind
      obtain ⟨⟨e, g₁⟩, hpush, h⟩ := bind_eq_ok h
      cases h
      obtain ⟨hsrc, hdst⟩ := isLive_of_pushEdge hpush
      have hnew : ¬ g.Has (g.between src dst kind) := fun hhas =>
        hfind ((hg.find?_isSome _).mpr hhas)
      obtain ⟨g₂, hok, hsame, hindexed, -, -⟩ :=
        pushEdge_spec hg.toIndexed hsrc hdst hnew fun hk he => hloop ⟨hk, he⟩
      cases hpush.symm.trans hok
      exact ⟨hsame.partitioned hg.toPartitioned, hindexed⟩

theorem Intact.setShifting (hg : g.Intact) (n : NodeId) : (g.setShifting n).Intact :=
  ⟨⟨hg.isLive_rep, hg.rep_of_isLive, hg.rep_of_size_le, hg.mem_subs⟩,
    hg.toIndexed.congr rfl rfl rfl fun _ _ _ => rfl⟩

theorem intact_ofContextGraph {cg : ContextGraph C} (h : ofContextGraph cg = .ok g) : g.Intact := by
  refine foldlM_ok_induction (fun _ g => g.Intact) (start_spans cg).consistent.toIntact ?_ h
  intro _ e g g' _ hg hstep
  obtain ⟨⟨r, g₁⟩, hadd, hstep⟩ := bind_eq_ok hstep
  cases hstep
  refine Intact.addEdge ?_ hadd
  split
  · exact hg.setShifting e.src
  · exact hg

/-! ## One operation -/

theorem Fresh.of_edges (h : g'.edges = g.edges) : Fresh g g' where
  size_le := Nat.le_of_eq (by rw [h])
  edge e c he := by
    rw [edge?, h] at he
    exact .inl he

/-- What an operation does to the graph as a whole. -/
structure Edited (g g' : ConstraintGraph C) : Prop where
  intact : g'.Intact
  fresh : Fresh g g'
  contexts : g'.contexts = g.contexts
  size : g'.slots.size = g.slots.size

theorem SameNodes.edited (h : SameNodes g g') (hg : g.Intact) (hindexed : g'.Indexed)
    (hfresh : Fresh g g') : Edited g g' :=
  ⟨⟨h.partitioned hg.toPartitioned, hindexed⟩, hfresh, h.contexts, h.size⟩

theorem Edited.trans {g'' : ConstraintGraph C} (h : Edited g g') (h' : Edited g' g'') :
    Edited g g'' :=
  ⟨h'.intact, h.fresh.trans h'.fresh, h'.contexts.trans h.contexts, h'.size.trans h.size⟩

theorem edited_add (hg : g.Intact) {src dst : NodeId} (hsrc : src < g.slots.size)
    (hdst : dst < g.slots.size) (kind : ConstraintKind) :
    ∃ r g', g.addEdge src dst kind = .ok (r, g') ∧ Edited g g' := by
  obtain ⟨r, g', hok, hsame, hindexed, hfresh, -⟩ := addEdge_spec hg hsrc hdst kind
  exact ⟨r, g', hok, hsame.edited hg hindexed hfresh⟩

theorem edited_remove (hg : g.Intact) {e : EdgeId} {c : Constraint} (he : g.edge? e = some c) :
    ∃ g', g.removeEdge e = .ok (c, g') ∧ Edited g g' := by
  obtain ⟨g', hok, hsame, hindexed, hfresh, -⟩ := removeEdge_has hg he
  exact ⟨g', hok, hsame.edited hg hindexed hfresh⟩

/-- The constraint is removed before it is added at another node, if it is added at all. -/
theorem edited_retarget (hg : g.Intact) {e : EdgeId} {c : Constraint} (he : g.edge? e = some c)
    {n : NodeId} (hn : g.isLive n) (side : Side) :
    ∃ r g', g.retarget side e n = .ok (r, g') ∧ Edited g g' := by
  obtain ⟨g₁, hok₁, h₁⟩ := edited_remove hg he
  have hsrc : c.src < g₁.slots.size := h₁.size ▸ isLive_lt (hg.isLive_src ⟨e, he⟩)
  have hdst : c.dst < g₁.slots.size := h₁.size ▸ isLive_lt (hg.isLive_dst ⟨e, he⟩)
  have hn : n < g₁.slots.size := h₁.size ▸ isLive_lt hn
  cases side with
  | incoming =>
      obtain ⟨r, g', hok, h⟩ := edited_add h₁.intact hsrc hn c.kind
      refine ⟨r, g', ?_, h₁.trans h⟩
      rw [retarget, hok₁]
      exact hok
  | outgoing =>
      obtain ⟨r, g', hok, h⟩ := edited_add h₁.intact hn hdst c.kind
      refine ⟨r, g', ?_, h₁.trans h⟩
      rw [retarget, hok₁]
      exact hok

theorem edited_merge (hg : g.Intact) {sub rep : NodeId} {members : IdSet} (hne : sub ≠ rep)
    (hsub : g.isLive sub) (hrep : g.isLive rep) (hsubm : sub ∈ members) (hrepm : rep ∈ members) :
    ∃ g', g.edit (.merge sub rep members) = .ok g' ∧ Edited g g' := by
  obtain ⟨shifts, g₁, hok₁, hsame, hindexed, hfresh, -, hhas, -⟩ :=
    moveEdges_spec hg hrep hne hrepm hsubm
  have h₁ := hsame.edited hg hindexed hfresh
  -- no constraint is left at `sub`, so that it can be declared dead
  have hredirect : ∀ n, redirect [sub] rep n ≠ sub := by
    intro n
    rw [redirect]
    split
    · exact hne.symm
    · rename_i hn
      exact fun h => hn (List.mem_singleton.mpr h)
  have hends : ∀ c, g₁.Has c → c.src ≠ sub ∧ c.dst ≠ sub := by
    intro c hc
    obtain ⟨c₀, -, -, rfl⟩ := (hhas c).mp hc
    exact ⟨hredirect c₀.src, hredirect c₀.dst⟩
  obtain ⟨g', hok, hintact, hcontexts, hsize, hedges, -⟩ := retire_spec h₁.intact
    (by rwa [hsame.isLive]) (by rwa [hsame.isLive]) hne hends
  refine ⟨g', ?_, h₁.trans ⟨hintact, .of_edges hedges, hcontexts, hsize⟩⟩
  rw [edit, hok₁]
  exact hok

/-- A lookup of a field adds nodes without constraints, if any. -/
theorem intact_field (hg : g.Intact) {n f : NodeId} {offset : Offset} {contexts : ContextGraph C}
    (h : g.contexts.field n offset = .ok (f, contexts)) :
    ∃ g', g.field n offset = .ok (f, g') ∧ g'.Intact ∧ Fresh g g' := by
  let g₁ : ConstraintGraph C := { g with contexts }
  refine ⟨g₁.extendTo f, ?_, ?_, .of_edges ?_⟩
  · simp [field, h, bind, Except.bind, pure, Except.pure, g₁]
  · unfold extendTo
    split
    · exact ⟨⟨hg.isLive_rep, hg.rep_of_isLive, hg.rep_of_size_le, hg.mem_subs⟩,
        hg.toIndexed.congr rfl rfl rfl fun _ _ _ => rfl⟩
    · exact hg.append
  · unfold extendTo
    split <;> rfl

/-- An operation that the graph allows succeeds. It leaves the nodes alone, or it looks up a field.
-/
theorem edit_cases (hg : g.Intact) {e : Edit} (he : g.Allows e) :
    ∃ g', g.edit e = .ok g' ∧ (Edited g g' ∨ ∃ n offset r f, g.contexts.field n offset = .ok r ∧
      g.field n offset = .ok (f, g') ∧ g'.Intact ∧ Fresh g g') := by
  cases e with
  | add src dst kind =>
      obtain ⟨r, g', hok, h⟩ := edited_add hg he.1 he.2 kind
      exact ⟨g', by rw [edit, hok]; rfl, .inl h⟩
  | remove e =>
      obtain ⟨c, hc⟩ := Option.isSome_iff_exists.mp he
      obtain ⟨g', hok, h⟩ := edited_remove hg hc
      exact ⟨g', by rw [edit, hok]; rfl, .inl h⟩
  | retarget side e n =>
      obtain ⟨c, hc⟩ := Option.isSome_iff_exists.mp he.1
      obtain ⟨r, g', hok, h⟩ := edited_retarget hg hc he.2 side
      exact ⟨g', by rw [edit, hok]; rfl, .inl h⟩
  | field n offset =>
      obtain ⟨⟨f, contexts⟩, hf⟩ := he
      obtain ⟨g', hok, hintact, hfresh⟩ := intact_field hg hf
      exact ⟨g', by rw [edit, hok]; rfl, .inr ⟨n, offset, _, f, hf, hok, hintact, hfresh⟩⟩
  | merge sub rep members =>
      obtain ⟨hne, hsub, hrep, hsubm, hrepm⟩ := he
      obtain ⟨g', hok, h⟩ := edited_merge hg hne hsub hrep hsubm hrepm
      exact ⟨g', hok, .inl h⟩

/-! ## Sequences of operations -/

theorem EditsTo.intact (h : EditsTo g g') (hg : g.Intact) : g'.Intact ∧ Fresh g g' := by
  obtain ⟨e, he, hok⟩ := h
  obtain ⟨g₁, hok₁, h | ⟨-, -, -, -, -, -, hintact, hfresh⟩⟩ := edit_cases hg he
  · cases hok.symm.trans hok₁
    exact ⟨h.intact, h.fresh⟩
  · cases hok.symm.trans hok₁
    exact ⟨hintact, hfresh⟩

theorem Edits.intact (h : Edits g g') (hg : g.Intact) : g'.Intact ∧ Fresh g g' := by
  induction h with
  | refl => exact ⟨hg, .refl g⟩
  | tail _ hstep ih =>
      obtain ⟨hg₁, hfresh₁⟩ := ih
      obtain ⟨hg₂, hfresh₂⟩ := hstep.intact hg₁
      exact ⟨hg₂, hfresh₁.trans hfresh₂⟩

/-! ## Graphs of programs -/

/-- The graph has the nodes of a well-formed context graph, the special objects among them. -/
structure Sited (g : ConstraintGraph C) : Prop where
  consistent : g.Consistent
  contexts : g.contexts.WellFormed
  special : ∀ n, ContextGraph.isSpecial n → n < g.contexts.nodes.size

theorem Edited.sited (h : Edited g g') (hg : g.Sited) : g'.Sited where
  consistent := ⟨h.intact, by rw [h.size, h.contexts, hg.consistent.size_eq]⟩
  contexts := by
    rw [h.contexts]
    exact hg.contexts
  special := by
    rw [h.contexts]
    exact hg.special

theorem Sited.lt_of_field (hg : g.Sited) {n : NodeId} {offset : Offset}
    {r : NodeId × ContextGraph C}
    (h : g.contexts.field n offset = .ok r) : n < g.contexts.nodes.size := by
  by_cases hspecial : ContextGraph.isSpecial n
  · exact hg.special n hspecial
  · simp only [ContextGraph.field, hspecial, Bool.false_eq_true, if_false] at h
    obtain ⟨node, hnode, -⟩ := bind_eq_ok h
    exact (Array.getElem?_eq_some_iff.mp (AssignmentGraph.entryAt_ok hnode)).1

theorem Sited.field (hg : g.Sited) {n f : NodeId} {offset : Offset} (hn : n < g.contexts.nodes.size)
    (hok : g.field n offset = .ok (f, g')) : g'.Sited := by
  rcases field_spec hg.consistent hg.contexts hn offset with
    ⟨f, hok₁, -⟩ | ⟨key, g₁, hkey, -, hnew, hok₁, hcontexts, hgrown⟩
  · cases hok.symm.trans hok₁
    exact hg
  · cases hok.symm.trans hok₁
    refine ⟨hgrown.consistent, ?_, fun n hn => ?_⟩
    · rw [hcontexts]
      exact ContextGraph.wellFormed_makeField hg.contexts hkey hnew
    · rw [← hgrown.consistent.size_eq, hgrown.size, hg.consistent.size_eq]
      exact Nat.lt_succ_of_lt (hg.special n hn)

theorem EditsTo.sited (h : EditsTo g g') (hg : g.Sited) : g'.Sited := by
  obtain ⟨e, he, hok⟩ := h
  obtain ⟨g₁, hok₁, h | ⟨n, offset, r, f, hr, hfield, -⟩⟩ := edit_cases hg.consistent.toIntact he
  · cases hok.symm.trans hok₁
    exact h.sited hg
  · cases hok.symm.trans hok₁
    exact hg.field (hg.lt_of_field hr) hfield

theorem Edits.sited (h : Edits g g') (hg : g.Sited) : g'.Sited := by
  induction h with
  | refl => exact hg
  | tail _ hstep ih => exact hstep.sited ih

/-- The context graph can tell every field of every node. -/
theorem Sited.allows_field (hg : g.Sited) {n : NodeId} (hn : n < g.slots.size) (offset : Offset) :
    g.Allows (.field n offset) := by
  rw [hg.consistent.size_eq] at hn
  have hok : ∃ r, g.field n offset = .ok r := by
    rcases field_spec hg.consistent hg.contexts hn offset with ⟨f, hok, -⟩ | ⟨-, g₁, -, -, -, hok,
      -⟩
    · exact ⟨_, hok⟩
    · exact ⟨_, hok⟩
  obtain ⟨r, hok⟩ := hok
  obtain ⟨r, hok, -⟩ := bind_eq_ok hok
  exact ⟨r, hok⟩

theorem sited_of_build {p : AssignmentGraph} {policy : ContextPolicy C} {fieldSensitive : Bool}
    {cg : ContextGraph C} (hp : p.Built) (hcheck : p.check = .ok ())
    (hbuild : ContextGraph.build policy p fieldSensitive = .ok cg)
    (hok : ofContextGraph cg = .ok g) : g.Sited := by
  obtain ⟨hcg, -⟩ := ContextGraph.build_wellBuilt hp hcheck hbuild
  obtain ⟨g₁, hok₁, hg⟩ := ofContextGraph_spans hcg.edges_lt
  cases hok.symm.trans hok₁
  refine ⟨hg.consistent, hg.contexts ▸ hcg.toWellFormed, fun n hn => ?_⟩
  rw [hg.contexts]
  refine (ContextGraph.build_unfolds hp.layout hbuild).reserved_lt hp.layout ?_
  rcases Bool.or_eq_true_iff.mp hn with hn | hn
  · rw [eq_of_beq hn]
    decide
  · rw [eq_of_beq hn]
    decide

/-- Whatever sequence of operations a constraint graph goes through, none that it allows fails; a
constraint is kept under an id exactly if it is found there by its ends and kind, is listed there at
each of its ends and in its class; its ends are alive and stand for themselves; no two constraints
are equal, and none copies a node to itself; and no id is given out twice. For a properly made
program without defects, the fields of all nodes can be told. -/
theorem consistent_under_edits {cg : ContextGraph C} {g₀ g : ConstraintGraph C}
    (hnew : ofContextGraph cg = .ok g₀) (hedits : Edits g₀ g) :
    g.Intact ∧
      (∀ c, g.Has c → ∀ side, g.isLive (c.nearEnd side) ∧ g.rep (c.nearEnd side) = c.nearEnd side) ∧
      (∀ e e' c, g.edge? e = some c → g.edge? e' = some c → e = e') ∧
      (∀ e, g.Allows e → ∃ g', g.edit e = .ok g') ∧
      (∀ e c, g.edge? e = some c → e < g.edges.size) ∧
      (∀ g', Edits g g' → ∀ e < g.edges.size, ∀ c, g'.edge? e = some c → g.edge? e = some c) ∧
      (∀ (p : AssignmentGraph) (policy : ContextPolicy C) (fieldSensitive : Bool), p.Built →
        p.check = .ok () → ContextGraph.build policy p fieldSensitive = .ok cg →
        ∀ n < g.slots.size, ∀ offset, g.Allows (.field n offset)) := by
  obtain ⟨hg, -⟩ := hedits.intact (intact_ofContextGraph hnew)
  refine ⟨hg, fun c hc side => ?_, hg.unique, fun e he => ?_, fun e c => edge?_lt, ?_, ?_⟩
  · have hlive := hg.isLive_nearEnd hc side
    exact ⟨hlive, hg.rep_of_isLive _ hlive⟩
  · obtain ⟨g', hok, -⟩ := edit_cases hg he
    exact ⟨g', hok⟩
  · intro g' hg' e he c hc
    rcases (hg'.intact hg).2.edge e c hc with hold | hle
    · exact hold
    · exact absurd he (Nat.not_lt.mpr hle)
  · intro p policy fieldSensitive hp hcheck hbuild n hn offset
    exact (hedits.sited (sited_of_build hp hcheck hbuild hnew)).allows_field hn offset

/-- `p = &a; q = p; r = &q->x; *p = r; q = *p`, with the node 4 for the object `a` and 5, 6 and 7
for the pointers. -/
def linking : AssignmentGraph :=
  let g := (AssignmentGraph.empty.addObject .constant 2).2
  let g := (g.addValue .constant).2
  let g := (g.addValue .constant).2
  let g := (g.addValue .constant).2
  let g := (g.addEdge .addr 4 5).2
  let g := (g.addEdge .copy 5 6).2
  let g := (g.pushEdge .field 6 7 ⟨1⟩ none).2
  let g := (g.addEdge .store 7 5).2
  (g.addEdge .load 5 6).2

theorem built_linking : linking.Built :=
  have h := AssignmentGraph.Built.empty.addObject .constant 2
  have h := ((h.addValue .constant).addValue .constant).addValue .constant
  have h := (h.pushEdge .addr 4 5 0 none).pushEdge .copy 5 6 0 none
  have h := (h.pushEdge .field 6 7 ⟨1⟩ none).pushEdge .store 7 5 0 none
  h.pushEdge .load 5 6 0 none

/-- The graphs of a program, before and after some operations. -/
def edited? (policy : ContextPolicy C) (p : AssignmentGraph) (es : List Edit) :
    Option (ContextGraph C × ConstraintGraph C × ConstraintGraph C) :=
  match ContextGraph.build policy p true with
  | .error _ => none
  | .ok cg =>
    match ofContextGraph cg with
    | .error _ => none
    | .ok g => (editAll? es g).map fun g' => (cg, g, g')

theorem exists_edits_of_any {policy : ContextPolicy C} {p : AssignmentGraph} {es : List Edit}
    {P : ConstraintGraph C → Bool} (h : (edited? policy p es).any (P ·.2.2) = true) :
    ∃ cg g₀ g, ContextGraph.build policy p true = .ok cg ∧ ofContextGraph cg = .ok g₀ ∧ Edits g₀ g ∧
      P g = true := by
  unfold edited? at h
  split at h
  · cases h
  · rename_i cg hbuild
    split at h
    · cases h
    · rename_i g₀ hnew
      rw [Option.any_map, Option.any_eq_true] at h
      obtain ⟨g, hg, hP⟩ := h
      exact ⟨cg, g₀, g, hbuild, hnew, edits_of_editAll? hg, hP⟩

/-- A constraint is moved, another one closes a cycle, which is merged with all that was
found since. -/
theorem consistent_under_edits_linking :
    ∃ (cg : ContextGraph CallString) (g₀ g : ConstraintGraph CallString),
      ContextGraph.build (CallStringPolicy.policy ⟨.empty, 1⟩) linking true = .ok cg ∧
      ofContextGraph cg = .ok g₀ ∧ Edits g₀ g ∧ (g.isLive 6 = false ∧ g.Has ⟨8, 5, .copy⟩) ∧
      g.Intact ∧ (∀ e c, g.edge? e = some c → e < g.edges.size) ∧
      ∀ n < g.slots.size, ∀ offset, g.Allows (.field n offset) := by
  have hedits : (edited? (CallStringPolicy.policy ⟨.empty, 1⟩) linking
      [.retarget .incoming 4 4, .add 6 5 .copy, .field 4 ⟨1⟩, .add 8 6 .copy,
        .merge 6 5 (.ofList [5, 6]), .add 6 7 .copy, .remove 9]).any
      (fun r => decide (r.2.2.isLive 6 = false ∧ r.2.2.Has ⟨8, 5, .copy⟩)) = true := by
    decide +kernel
  have hcheck : linking.check = .ok () := by decide +kernel
  obtain ⟨cg, g₀, g, hbuild, hnew, hedits, hg⟩ := exists_edits_of_any
    (P := fun g => decide (g.isLive 6 = false ∧ g.Has ⟨8, 5, .copy⟩)) hedits
  obtain ⟨hintact, -, -, -, hlt, -, hfield⟩ := consistent_under_edits hnew hedits
  exact ⟨cg, g₀, g, hbuild, hnew, hedits, of_decide_eq_true hg, hintact, hlt,
    hfield _ _ _ built_linking hcheck hbuild⟩

/-- A node that is part of an object which the program does not list. -/
def dangling : AssignmentGraph where
  nodes := AssignmentGraph.empty.nodes.push ⟨4, .baseObject, some .constant, some 7, 0, none⟩
  edges := #[]
  memObjs := #[]

/-- The lookup of a field asks for the object, and there is none. -/
theorem edit_fails_dangling :
    ∃ (cg : ContextGraph CallString) (g : ConstraintGraph CallString),
      ContextGraph.build (CallStringPolicy.policy ⟨.empty, 1⟩) dangling true = .ok cg ∧
      ofContextGraph cg = .ok g ∧ g.isLive 4 ∧ g.edit (.field 4 0) = .error (.outOfBounds 0 7) :=
  ⟨_, _, rfl, rfl, rfl, rfl⟩

end ConstraintGraph

end PointerAnalysis
