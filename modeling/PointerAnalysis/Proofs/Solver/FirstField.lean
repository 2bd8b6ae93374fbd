import PointerAnalysis.Proofs.ContextGraph.FieldNodes
import PointerAnalysis.Proofs.Solver.Projections

/-!
First fields. An object and its first field share their place in memory. When a pointer to an object
is projected at offset zero, the object is linked to the field found for it, which from then on sees
what is stored through the object. Other ways to a first field make no link: the offset of the
projection may be a multiple of the size, or the pointer may be to a field.
-/

namespace PointerAnalysis

@[simp] theorem Offset.reduce_zero (size : UInt32) : Offset.reduce 0 size = 0 := by
  by_cases h : size = 0
  · simp [reduce, h]
  · simp only [reduce, if_neg h]
    exact congrArg Offset.mk (UInt32.zero_mod)

namespace ContextGraph

variable {C : Type} [Context C] {g : ContextGraph C} {b f : NodeId} {key : FieldKey C}

/-- A node stands for the field at offset zero of the object that has its home at `b`. -/
def IsFirstField (g : ContextGraph C) (b f : NodeId) : Prop :=
  g.baseOf f = .ok b ∧ ∃ mem ctx, g.IsFieldAt f ⟨mem, 0, ctx⟩

theorem KeyOf.offset_eq_zero (hkey : g.KeyOf b 0 key) (hb : ¬ g.IsField b) : key.offset = 0 := by
  obtain ⟨node, obj, hnode, hmem, -, -, hoffset⟩ := hkey
  have hkind : node.kind ≠ .fieldObject := fun hkind => hb ⟨node, hnode, hkind, by simp [hmem]⟩
  rw [hoffset, if_neg hkind, Offset.reduce_zero]

/-- The first field of an object is the one at offset zero from its home. -/
theorem WellFormed.isFirstField_iff (hg : g.WellFormed) (hkey : g.KeyOf b 0 key)
    (hb : ¬ g.IsField b) : g.IsFirstField b f ↔ g.IsFieldAt f key := by
  have hzero := hkey.offset_eq_zero hb
  have hhome := hg.home_of_not_isField hkey.partOf.lt hb
  obtain ⟨base, -, hbase, hbmem, -, hbctx, -⟩ := hkey
  constructor
  · rintro ⟨hok, mem, ctx, hf⟩
    have ⟨node, hnode, _, hmem, hctx, _⟩ := hf
    obtain ⟨hok', -, -, base', hbase', hbmem', hbctx', -⟩ := hg.home_spec hnode hmem
    cases hok.symm.trans hok'
    cases hbase.symm.trans hbase'
    obtain ⟨mem', offset, ctx'⟩ := key
    cases hbmem.symm.trans hbmem'
    cases hzero
    cases hbctx.trans (hbctx'.trans hctx)
    exact hf
  · intro hf
    refine ⟨?_, key.memObj, key.ctx, hzero ▸ hf⟩
    obtain ⟨node, hnode, -, hmem, hctx, -⟩ := hf
    obtain ⟨hok, hin, -⟩ := hg.home_spec hnode hmem
    rw [hctx, hbctx, (hg.home_spec hbase hbmem).2.1, hhome] at hin
    rw [hok, Option.some.inj (Except.ok.inj hin)]

end ContextGraph

/-! ## Programs -/

/-- Adds a number of pointers. -/
def AssignmentGraph.addPointers (g : AssignmentGraph) : Nat → AssignmentGraph
  | 0 => g
  | count + 1 => ((g.addPointers count).addValue .constant).2

theorem AssignmentGraph.Built.addPointers {g : AssignmentGraph} (h : g.Built) (count : Nat) :
    (g.addPointers count).Built := by
  induction count with
  | zero => exact h
  | succ count ih => exact ih.addValue .constant

/-- `p = &a; x = &v; *p = x; q = &p[0]; y = *q`, with the nodes 4 and 5 for the objects `a` of
two fields and `v`, 6 for the field of `a` at offset 2, which is its first, and 7 to 10 for
the pointers. -/
def firstFields : AssignmentGraph :=
  let g := (AssignmentGraph.empty.addObject .constant 2).2
  let g := (g.addObject .constant 1).2
  let g := (g.pushNode .fieldObject (some .constant) (some 0) ⟨2⟩).2
  let g := g.addPointers 4
  let g := (g.addEdge .addr 4 7).2
  let g := (g.addEdge .addr 5 8).2
  let g := (g.addEdge .store 8 7).2
  let g := (g.addFieldEdge 7 9 0).2
  (g.addEdge .load 9 10).2

theorem built_firstFields : firstFields.Built :=
  have h := (AssignmentGraph.Built.empty.addObject .constant 2).addObject .constant 1
  have hfield : AssignmentGraph.addField _ 4 ⟨2⟩ = .ok (6, _) := rfl
  have h := (h.addField hfield).addPointers 4
  have h := (h.pushEdge .addr 4 7 0 none).pushEdge .addr 5 8 0 none
  have h := (h.pushEdge .store 8 7 0 none).pushEdge .field 7 9 0 none
  h.pushEdge .load 9 10 0 none

/-- `x = &v; p = &a; *p = x; q = &p[0]; p = q; r = &a.x; s = &p[2]; t = &p[1]; u = &t[1]; m = &b; *m
= x; n = &m[0]; o = &b.z`, with the nodes 4, 5 and 14 for the objects `a`, `v` and `b`, 6 for the
first field `x` of `a`, 15 and 16 for the fields `y` and `z` of `b` at the offsets 0 and 2, and 7 to
13 and 17 to 19 for the pointers `p`, `x`, `q`, `r`, `s`, `t`, `u` and `m`, `n`, `o`. -/
def detours : AssignmentGraph :=
  let g := (AssignmentGraph.empty.addObject .constant 2).2
  let g := (g.addObject .constant 1).2
  let g := (g.pushNode .fieldObject (some .constant) (some 0) 0).2
  let g := g.addPointers 7
  let g := (g.addObject .constant 2).2
  let g := (g.pushNode .fieldObject (some .constant) (some 2) 0).2
  let g := (g.pushNode .fieldObject (some .constant) (some 2) ⟨2⟩).2
  let g := g.addPointers 3
  let g := (g.addEdge .addr 5 8).2
  let g := (g.addEdge .addr 4 7).2
  let g := (g.addEdge .store 8 7).2
  let g := (g.addFieldEdge 7 9 0).2
  let g := (g.addEdge .copy 9 7).2
  let g := (g.addEdge .addr 6 10).2
  let g := (g.addFieldEdge 7 11 ⟨2⟩).2
  let g := (g.addFieldEdge 7 12 ⟨1⟩).2
  let g := (g.addFieldEdge 12 13 ⟨1⟩).2
  let g := (g.addEdge .addr 14 17).2
  let g := (g.addEdge .store 8 17).2
  let g := (g.addFieldEdge 17 18 0).2
  (g.addEdge .addr 16 19).2

theorem built_detours : detours.Built :=
  have h := (AssignmentGraph.Built.empty.addObject .constant 2).addObject .constant 1
  have hx : AssignmentGraph.addField _ 4 0 = .ok (6, _) := rfl
  have h := ((h.addField hx).addPointers 7).addObject .constant 2
  have hy : AssignmentGraph.addField _ 14 0 = .ok (15, _) := rfl
  have hz : AssignmentGraph.addField _ 14 ⟨2⟩ = .ok (16, _) := rfl
  have h := ((h.addField hy).addField hz).addPointers 3
  have h := (h.pushEdge .addr 5 8 0 none).pushEdge .addr 4 7 0 none
  have h := (h.pushEdge .store 8 7 0 none).pushEdge .field 7 9 0 none
  have h := (h.pushEdge .copy 9 7 0 none).pushEdge .addr 6 10 0 none
  have h := (h.pushEdge .field 7 11 ⟨2⟩ none).pushEdge .field 7 12 ⟨1⟩ none
  have h := (h.pushEdge .field 12 13 ⟨1⟩ none).pushEdge .addr 14 17 0 none
  have h := (h.pushEdge .store 8 17 0 none).pushEdge .field 17 18 0 none
  h.pushEdge .addr 16 19 0 none

namespace Solver

variable {C : Type} [Context C] {t : Solver C} {cg : ContextGraph C}

theorem Echo.eq_of_not_isField {n p b : NodeId} (h : Echo t n p b) (ht : t.WellFormed)
    (hb : ¬ t.graph.contexts.IsField b) (hw : ¬ t.graph.contexts.WholeAt b) : b = p := by
  rcases h with rfl | ⟨-, hproj⟩
  · rfl
  · cases hproj with
    | self _ heq => exact heq
    | whole _ hwhole _ => exact absurd hwhole hw
    | field key hkey hfound => exact absurd (ht.contexts.home_of_keyOf hkey hfound).2.1 hb

/-- A projection at offset zero that is still a constraint has linked each object that its source
points to with the first field of the object. -/
theorem Solved.linked_first {g : ConstraintGraph C} {strategy : Strategy}
    (h : Solved cg g strategy t) {e : ContextEdge} (hzero : e.offset.isZero)
    (hc : t.graph.Has ⟨t.graph.rep e.src, t.graph.rep e.dst, .field e.offset⟩) {b : NodeId}
    {mem : MemObjId}
    (hb : b ∈ t.pointsTo e.src) (hpart : t.graph.contexts.PartOf b mem)
    (hbase : ¬ t.graph.contexts.IsField b) (hw : ¬ t.graph.contexts.IsWhole mem) :
    ∃ f ∈ t.pointsTo e.dst, ∃ key, t.graph.contexts.KeyOf b 0 key ∧
      t.graph.contexts.fieldNodes[key]? = some f ∧ t.graph.Linked b f := by
  have hwhole : ¬ t.graph.contexts.WholeAt b := by
    rintro ⟨mem', hpart', hwhole⟩
    exact hw (hpart.unique hpart' ▸ hwhole)
  obtain ⟨p, -, hecho, -, f, hf, hproj, hlink⟩ := h.exists_sent hc rfl hb
  cases hecho.eq_of_not_isField h.wellFormed hbase hwhole
  have hlink := hlink hzero (h.wellFormed.contexts.home_of_not_isField hpart.lt hbase)
  rw [Offset.isZero_iff.mp hzero] at hproj
  cases hproj with
  | self hnone _ => exact absurd hpart (hnone mem)
  | whole hw' _ _ => exact absurd hw' hwhole
  | field key hkey hfound => exact ⟨f, hf, key, hkey, hfound, hlink⟩

/-! ## All programs -/

section results

variable {p : AssignmentGraph} {policy : ContextPolicy C} {fieldSensitive : Bool}

/-- At the end of a run, let a projection at offset zero that was not dropped have a source that
points to an object which tells its fields apart. Then its target points to a first field of the
object, and that field sees what the object does. Only a program with several nodes for that field
has another first field of the object. What a sweep sends late, from an object that the program
projects onto itself, is left open. -/
theorem first_field_sees_object (hp : p.Built) (hcheck : p.check = .ok ())
    (hbuild : ContextGraph.build policy p fieldSensitive = .ok cg) (strategy : Strategy) :
    ∃ s, Outcome cg strategy s ∧
      ∀ e ∈ cg.edges, e.kind = .field → e.offset.isZero → ¬ Dropped s e →
      ∀ b ∈ s.pointsTo e.src, ¬ s.graph.contexts.IsField b →
      ∀ mem, s.graph.contexts.PartOf b mem → ¬ s.graph.contexts.IsWhole mem →
        ∃ f ∈ s.pointsTo e.dst, s.graph.contexts.IsFirstField b f ∧
          (∀ f', s.graph.contexts.IsFirstField b f' →
            f' = f ∨ ContextGraph.CopiesApart p s.graph.contexts f' f) ∧
          ((strategy ≠ .baseline → ∀ e' ∈ cg.edges, e'.Stutters →
            s.graph.rep e'.src ≠ s.graph.rep b) → s.pointsTo b ⊆ s.pointsTo f) := by
  obtain ⟨hcg, -⟩ := ContextGraph.build_wellBuilt hp hcheck hbuild
  obtain ⟨g, s, houtcome, hs⟩ := exists_outcome hcg strategy
  have hctx := hs.wellFormed.contexts
  refine ⟨s, houtcome, fun e he hkind hzero hkept b hb hbase mem hpart hw => ?_⟩
  have hc := hs.has_of_not_dropped he hkind hkept
  obtain ⟨f, hf, key, hkey, hfound, hlink⟩ := hs.linked_first hzero hc hb hpart hbase hw
  have hfirst := hctx.isFieldAt hfound
  refine ⟨f, hf, (hctx.isFirstField_iff hkey hbase).mpr hfirst, fun f' hf' => ?_, fun hsteady => ?_⟩
  · have hf' := (hctx.isFirstField_iff hkey hbase).mp hf'
    exact hf'.eq_or_copiesApart hp hcheck hbuild hctx hs.reflects.contexts hfirst
  · have hpassed : PassedBut (fun n => strategy ≠ .baseline ∧ Stutters s.graph n) s :=
      hs.passedBut fun hst n hn => ⟨hst, hn⟩
    refine (subset_of_linked hpassed hlink).resolve_left ?_
    rintro ⟨hst, hstutters⟩
    obtain ⟨e', he', hself, hrep⟩ := hs.exists_stutters hstutters
    exact hsteady hst e' he' hself hrep

/-- The field that `q` points to sees what is stored through `p`. -/
theorem first_field_sees_object_firstFields :
    ∃ cg s, ContextGraph.build insensitive firstFields true = .ok cg ∧ Outcome cg .wave s ∧
      4 ∈ s.pointsTo 7 ∧ 6 ∈ s.pointsTo 9 ∧ s.graph.contexts.IsFirstField 4 6 ∧
      5 ∈ s.pointsTo 4 ∧ s.pointsTo 4 ⊆ s.pointsTo 6 := by
  have hcheck : firstFields.check = .ok () := by decide +kernel
  have hrun : (outcome? insensitive firstFields true .wave).any (fun r =>
      decide (4 ∈ r.2.pointsTo 7 ∧ r.2.pointsTo 9 = {6} ∧ 5 ∈ r.2.pointsTo 4) &&
      decide ((∀ e ∈ r.1.edges, ¬ e.Stutters) ∧ r.2.graph.rep 7 ≠ r.2.graph.rep 9 ∧
        ∃ e ∈ r.1.edges, e.kind = .field ∧ e.offset.isZero ∧ e.src = 7 ∧ e.dst = 9) &&
      r.2.graph.contexts.nodes[4]?.any (fun node =>
        decide (node.kind ≠ .fieldObject ∧ node.memObj = some 0)) &&
      r.2.graph.contexts.memObjs[0]?.any fun obj => !obj.fieldInsensitive) = true := by
    decide +kernel
  obtain ⟨cg, s, hbuild, houtcome, hs⟩ := exists_outcome_of_any hrun
  simp only [Bool.and_eq_true, decide_eq_true_eq, Option.any_eq_true, Bool.not_eq_true'] at hs
  obtain ⟨⟨⟨⟨hb, hdst, hstored⟩, hsteady, hrep, e, he, hkind, hzero, hesrc, hedst⟩, node, hnode,
    hbase, hmem⟩, obj, hobj, hfi⟩ := hs
  obtain ⟨s', houtcome', hfirst⟩ := first_field_sees_object built_firstFields hcheck hbuild .wave
  cases houtcome.unique houtcome'
  have hkept : ¬ Dropped s e := fun h => hrep (hesrc ▸ hedst ▸ h.1)
  have hnot : ¬ s.graph.contexts.IsField 4 := by
    rintro ⟨node', hnode', hkind', -⟩
    cases hnode.symm.trans hnode'
    exact hbase hkind'
  obtain ⟨f, hf, hfield, -, hsees⟩ := hfirst e he hkind hzero hkept 4 (hesrc ▸ hb) hnot 0
    ⟨node, hnode, hmem⟩ (ContextGraph.not_isWhole hobj hfi)
  rw [hedst, hdst] at hf
  cases IdSet.mem_singleton.mp hf
  exact ⟨cg, s, hbuild, houtcome, hb, hdst ▸ hf, hfield, hstored,
    hsees fun _ e' he' h => absurd h (hsteady e' he')⟩

/-- The first field `x` of `a` does not see what is stored through `p`: the projection at offset
zero was dropped with the cycle it is on, and the other ways to `x` make no link. For `b`, one was
made to `y` and not to `z`. -/
theorem first_field_misses_detours :
    detours.Built ∧ detours.check = .ok () ∧
    ∃ cg, ContextGraph.build insensitive detours true = .ok cg ∧ ∀ strategy, ∃ s,
      Outcome cg strategy s ∧
      6 ∈ s.pointsTo 10 ∧ 6 ∈ s.pointsTo 11 ∧ 6 ∈ s.pointsTo 13 ∧
      s.graph.contexts.IsFirstField 4 6 ∧
      ¬ s.graph.contexts.IsWhole 0 ∧ ¬ s.pointsTo 4 ⊆ s.pointsTo 6 ∧
      16 ∈ s.pointsTo 19 ∧ s.graph.contexts.IsFirstField 14 16 ∧
      ¬ s.graph.contexts.IsWhole 2 ∧ ¬ s.pointsTo 14 ⊆ s.pointsTo 16 := by
  have h : ∀ strategy, (outcome? insensitive detours true strategy).any (fun r =>
      decide (6 ∈ r.2.pointsTo 10 ∧ 6 ∈ r.2.pointsTo 11 ∧ 6 ∈ r.2.pointsTo 13 ∧
        ¬ r.2.pointsTo 4 ⊆ r.2.pointsTo 6) &&
      decide (16 ∈ r.2.pointsTo 19 ∧ ¬ r.2.pointsTo 14 ⊆ r.2.pointsTo 16) &&
      decide (r.2.graph.contexts.IsFieldAt 6 ⟨0, 0, Context.empty⟩ ∧
        r.2.graph.contexts.IsFieldAt 16 ⟨2, 0, Context.empty⟩) &&
      decide (r.2.graph.contexts.baseOf 6 = .ok 4 ∧ r.2.graph.contexts.baseOf 16 = .ok 14) &&
      r.2.graph.contexts.memObjs[0]?.any (fun obj => !obj.fieldInsensitive) &&
      r.2.graph.contexts.memObjs[2]?.any fun obj => !obj.fieldInsensitive) = true := by
    intro strategy
    cases strategy <;> decide +kernel
  obtain ⟨cg, -, hbuild, -⟩ := exists_outcome_of_any (h .baseline)
  refine ⟨built_detours, by decide +kernel, cg, hbuild, fun strategy => ?_⟩
  obtain ⟨cg', s, hbuild', houtcome, hs⟩ := exists_outcome_of_any (h strategy)
  cases hbuild.symm.trans hbuild'
  simp only [Bool.and_eq_true, decide_eq_true_eq, Option.any_eq_true, Bool.not_eq_true'] at hs
  obtain ⟨⟨⟨⟨⟨⟨hr, hs, hu, hmiss⟩, ho, hmiss'⟩, hxat, hzat⟩, hxbase, hzbase⟩, a, ha, hfi⟩, b, hb,
    hfi'⟩ := hs
  exact ⟨s, houtcome, hr, hs, hu, ⟨hxbase, 0, _, hxat⟩, ContextGraph.not_isWhole ha hfi, hmiss, ho,
    ⟨hzbase, 2, _, hzat⟩, ContextGraph.not_isWhole hb hfi', hmiss'⟩

end results

end Solver

end PointerAnalysis
