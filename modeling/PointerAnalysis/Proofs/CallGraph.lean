import Mathlib.Data.Finset.Card
import Mathlib.Tactic.Common
import PointerAnalysis.CallGraph
import PointerAnalysis.Proofs.DepthFirst

/-!
Call graphs made with the construction functions. Every function is registered once, and those that
call or are called are all registered. So a search that may go as deep as there are functions finds
exactly what can be called, directly or through others.
-/

namespace PointerAnalysis

namespace CallGraph

variable {g : CallGraph}

/-- One function calls another. -/
def Calls (g : CallGraph) (caller callee : FuncId) : Prop :=
  ∃ c ∈ g.calls, c.caller = caller ∧ c.callee = callee

instance (f h : FuncId) : Decidable (g.Calls f h) :=
  inferInstanceAs (Decidable (∃ c ∈ g.calls, c.caller = f ∧ c.callee = h))

theorem mem_callers {f h : FuncId} : f ∈ g.callers h ↔ g.Calls f h := by
  simp only [callers, incoming, IdSet.mem_ofList, List.mem_map, List.mem_filter, beq_iff_eq, Calls]
  constructor
  · rintro ⟨c, ⟨hc, hcallee⟩, hcaller⟩
    exact ⟨c, hc, hcaller, hcallee⟩
  · rintro ⟨c, hc, hcaller, hcallee⟩
    exact ⟨c, ⟨hc, hcallee⟩, hcaller⟩

theorem mem_callees {f h : FuncId} : h ∈ g.callees f ↔ g.Calls f h := by
  simp only [callees, outgoing, IdSet.mem_ofList, List.mem_map, List.mem_filter, beq_iff_eq, Calls]
  constructor
  · rintro ⟨c, ⟨hc, hcaller⟩, hcallee⟩
    exact ⟨c, hc, hcaller, hcallee⟩
  · rintro ⟨c, hc, hcaller, hcallee⟩
    exact ⟨c, ⟨hc, hcaller⟩, hcallee⟩

theorem contains_iff {f : FuncId} : g.contains f ↔ f ∈ g.functions.map (·.1) := by
  simp [contains]

/-! ## Construction -/

/-- The call graphs that the construction functions make. -/
inductive Built : CallGraph → Prop where
  | empty : Built .empty
  | addFunction {g : CallGraph} (h : Built g) (f : FuncId) (name : String) :
      Built (g.addFunction f name)
  | addCall {g : CallGraph} (h : Built g) (caller callee : FuncId) (site : CallSiteId) :
      Built (g.addCall caller callee site)
  | addIndirectCall {g : CallGraph} (h : Built g) (caller callee : FuncId) (site : CallSiteId) :
      Built (g.addIndirectCall caller callee site)

/-- Functions are registered once, and the ends of every call are registered. -/
structure WellFormed (g : CallGraph) : Prop where
  nodup : (g.functions.map (·.1)).Nodup
  ends : ∀ f h, g.Calls f h → g.contains f ∧ g.contains h

theorem contains_addFunction {f h : FuncId} {name : String} :
    (g.addFunction f name).contains h ↔ g.contains h ∨ h = f := by
  unfold addFunction
  split
  · rename_i hf
    exact ⟨.inl, fun h => h.elim id (· ▸ hf)⟩
  · simp only [contains_iff, List.map_append, List.map_cons, List.map_nil, List.mem_append,
      List.mem_singleton]

theorem calls_addFunction (g : CallGraph) (f : FuncId) (name : String) :
    (g.addFunction f name).calls = g.calls := by
  unfold addFunction
  split <;> rfl

theorem WellFormed.addFunction (hg : g.WellFormed) (f : FuncId) (name : String) :
    (g.addFunction f name).WellFormed where
  nodup := by
    unfold CallGraph.addFunction
    split
    · exact hg.nodup
    · rename_i hf
      rw [List.map_append, List.nodup_append]
      refine ⟨hg.nodup, List.nodup_singleton _, fun x hx y hy heq => hf (contains_iff.mpr ?_)⟩
      rw [List.map_cons, List.map_nil, List.mem_singleton] at hy
      rwa [heq, hy] at hx
  ends caller callee h := by
    rw [Calls, calls_addFunction] at h
    obtain ⟨hcaller, hcallee⟩ := hg.ends caller callee h
    exact ⟨contains_addFunction.mpr (.inl hcaller), contains_addFunction.mpr (.inl hcallee)⟩

/-- Recording a call adds that call and no other one. -/
theorem calls_record {caller callee f h : FuncId} {extend : CallSites → CallSites} :
    (g.record caller callee extend).Calls f h ↔ g.Calls f h ∨ f = caller ∧ h = callee := by
  have hcalls : ((g.mention caller).mention callee).calls = g.calls := by
    rw [mention, calls_addFunction, mention, calls_addFunction]
  unfold record
  dsimp only
  split
  · rename_i hknown
    constructor
    · rintro ⟨c, hc, rfl, rfl⟩
      obtain ⟨c₀, hc₀, rfl⟩ := List.mem_map.mp hc
      refine .inl ⟨c₀, hcalls ▸ hc₀, ?_⟩
      split <;> exact ⟨rfl, rfl⟩
    · intro hcall
      have hold : g.Calls f h := by
        rcases hcall with hold | ⟨rfl, rfl⟩
        · exact hold
        · obtain ⟨sites, hsites⟩ := Option.isSome_iff_exists.mp hknown
          obtain ⟨c, hc, -⟩ := Option.map_eq_some_iff.mp hsites
          exact ⟨c, hcalls ▸ List.mem_of_find?_eq_some hc, by simpa using List.find?_some hc⟩
      obtain ⟨c₀, hc₀, rfl, rfl⟩ := hold
      refine ⟨_, List.mem_map.mpr ⟨c₀, hcalls.symm ▸ hc₀, rfl⟩, ?_⟩
      split <;> exact ⟨rfl, rfl⟩
  · simp only [Calls, hcalls, List.mem_cons, or_and_right, exists_or, exists_eq_left]
    rw [or_comm, eq_comm, @eq_comm _ callee]

theorem functions_record (g : CallGraph) (caller callee : FuncId) (extend : CallSites → CallSites) :
    (g.record caller callee extend).functions = ((g.mention caller).mention callee).functions := by
  unfold record
  dsimp only
  split <;> rfl

theorem WellFormed.record (hg : g.WellFormed) (caller callee : FuncId)
    (extend : CallSites → CallSites) : (g.record caller callee extend).WellFormed := by
  have hmention : ((g.mention caller).mention callee).WellFormed :=
    (hg.addFunction caller _).addFunction callee _
  have hcontains : ∀ f, (g.record caller callee extend).contains f ↔
      (g.contains f ∨ f = caller) ∨ f = callee := by
    intro f
    rw [contains, functions_record]
    exact contains_addFunction.trans (or_congr_left contains_addFunction)
  refine ⟨by rw [functions_record]; exact hmention.nodup, fun f h hcall => ?_⟩
  rw [hcontains, hcontains]
  rcases calls_record.mp hcall with hold | ⟨rfl, rfl⟩
  · obtain ⟨hf, hh⟩ := hg.ends f h hold
    exact ⟨.inl (.inl hf), .inl (.inl hh)⟩
  · exact ⟨.inl (.inr rfl), .inr rfl⟩

/-- Every call graph that the construction functions make is well-formed. -/
theorem Built.wellFormed (h : g.Built) : g.WellFormed := by
  induction h with
  | empty => exact ⟨List.nodup_nil, fun f h ⟨c, hc, _⟩ => absurd hc (by simp [CallGraph.empty])⟩
  | addFunction _ f name ih => exact ih.addFunction f name
  | addCall _ caller callee site ih => exact ih.record caller callee _
  | addIndirectCall _ caller callee site ih => exact ih.record caller callee _

/-! ## Reachability -/

/-- A function reaches itself and what it calls, directly or through others. -/
abbrev Reaches (g : CallGraph) : FuncId → FuncId → Prop := Relation.ReflTransGen g.Calls

/-- The search for what a function reaches finds all of it. -/
theorem mem_reachable (hg : g.WellFormed) {root f : FuncId} :
    f ∈ g.reachable root ↔ g.contains root ∧ g.Reaches root f := by
  by_cases hroot : g.contains root
  · let targets : Finset FuncId := (g.functions.map (·.1)).toFinset
    have hsucc : ∀ x, ∀ y ∈ (g.callees x).toList, y ∈ targets := fun x y hy =>
      List.mem_toFinset.mpr (contains_iff.mp (hg.ends x y (mem_callees.mp hy)).2)
    have hdepth : Search.Affordable targets g.functions.length .start root := by
      -- the root itself is one of the functions
      have hlt : ((Search.start.unseen targets).erase root).card < targets.card := by
        have hsub : (Search.start.unseen targets).erase root ⊆ targets :=
          (Finset.erase_subset _ _).trans (Finset.filter_subset _ _)
        apply Finset.card_lt_card
        rw [Finset.ssubset_iff_of_subset hsub]
        exact ⟨root, List.mem_toFinset.mpr (contains_iff.mp hroot), Finset.notMem_erase _ _⟩
      have hle : targets.card ≤ g.functions.length := by
        simpa using List.toFinset_card_le (g.functions.map (·.1))
      exact .inr (Nat.lt_of_lt_of_le hlt hle)
    have hexplores := Search.visit_explores hsucc g.functions.length .start root hdepth
    obtain ⟨new, hfinished, -, hnew⟩ := hexplores.finished
    have hstart : ∀ x, x ∉ Search.start.seen := fun x => Std.TreeSet.not_mem_emptyc
    rw [reachable, if_pos hroot, IdSet.mem_ofList, hfinished, Search.start, List.append_nil, hnew]
    constructor
    · rintro ⟨hseen, hnot⟩
      obtain ⟨v, hv, hleads⟩ := hexplores.reached f hseen hnot
      obtain rfl := List.mem_singleton.mp hv
      exact ⟨hroot, hleads.lift id fun _ _ => mem_callees.mp⟩
    · rintro ⟨-, hreaches⟩
      refine ⟨?_, hstart f⟩
      induction hreaches with
      | refl => exact hexplores.roots_seen root (List.mem_singleton.mpr rfl)
      | tail _ hcall ih => exact hexplores.closed _ ih (hstart _) _ (mem_callees.mpr hcall)
  · rw [reachable, if_neg hroot]
    simp [hroot]

end CallGraph

end PointerAnalysis
