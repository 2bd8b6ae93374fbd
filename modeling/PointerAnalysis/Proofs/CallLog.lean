import Mathlib.Tactic.Common
import PointerAnalysis.Proofs.CallGraph

/-!
Call graphs and what they were told. A log lists the functions and calls in the order in which they
were reported. The graph of a log has exactly its calls, whether direct or not. A function has the
name with which it was mentioned first, be it as the end of a call, and a name stands for the first
function that has it.
-/

namespace PointerAnalysis

/-- What a call graph can be told. -/
inductive CallEvent where
  | function (f : FuncId) (name : String)
  | call (caller callee : FuncId) (site : CallSiteId)
  | indirectCall (caller callee : FuncId) (site : CallSiteId)

namespace CallEvent

/-- Tells a call graph. -/
def apply (g : CallGraph) : CallEvent → CallGraph
  | .function f name => g.addFunction f name
  | .call caller callee site => g.addCall caller callee site
  | .indirectCall caller callee site => g.addIndirectCall caller callee site

/-- The functions that are mentioned, with the names that they get if they are new. -/
def mentions : CallEvent → List (FuncId × String)
  | .function f name => [(f, name)]
  | .call caller callee _ | .indirectCall caller callee _ =>
    [(caller, s!"f{caller}"), (callee, s!"f{callee}")]

/-- A call is reported. -/
def Reports (e : CallEvent) (caller callee : FuncId) : Prop :=
  ∃ site, e = .call caller callee site ∨ e = .indirectCall caller callee site

end CallEvent

/-- What a call graph was told, in order. -/
abbrev CallLog := List CallEvent

namespace CallLog

/-- The call graph that was told all of a log. -/
def graph (log : CallLog) : CallGraph := log.foldl CallEvent.apply .empty

/-- The functions that are mentioned in turn, with the names that they get if they are new. -/
def mentions (log : CallLog) : List (FuncId × String) := log.flatMap CallEvent.mentions

/-- The name of a function: the one with which it was mentioned first. -/
def name? (log : CallLog) (f : FuncId) : Option String := log.mentions.lookup f

/-- The function of a name: of those that have it, the one that was mentioned first. -/
def byName? (log : CallLog) (name : String) : Option FuncId :=
  (log.mentions.find? fun m => log.name? m.1 = some name).map (·.1)

/-- A call is reported, as a direct or as an indirect one. -/
def Calls (log : CallLog) (caller callee : FuncId) : Prop := ∃ e ∈ log, e.Reports caller callee

end CallLog

/-! ## Names -/

/-- A list of functions with their names holds those of a list of mentions, each as it is mentioned
first. -/
structure FirstMentions (mentions functions : List (FuncId × String)) : Prop where
  lookup_eq : ∀ f, functions.lookup f = mentions.lookup f
  find?_eq : ∀ name, functions.find? (·.2 == name) =
    mentions.find? fun m => mentions.lookup m.1 = some name

namespace FirstMentions

variable {mentions functions : List (FuncId × String)}

theorem nil : FirstMentions [] [] := ⟨fun _ => rfl, fun _ => rfl⟩

/-- What is said of a function later does not change its name. -/
theorem lookup_append_of_mem {m : FuncId × String} (hm : m ∈ mentions)
    (later : List (FuncId × String)) : (mentions ++ later).lookup m.1 = mentions.lookup m.1 := by
  obtain ⟨name, hname⟩ := Option.isSome_iff_exists.mp (List.lookup_isSome_iff.mpr ⟨m, hm, BEq.rfl⟩)
  rw [List.lookup_append, hname, Option.some_or]

theorem find?_append (mentions later : List (FuncId × String)) (name : String) :
    (mentions ++ later).find? (fun m => (mentions ++ later).lookup m.1 = some name) =
      (mentions.find? fun m => mentions.lookup m.1 = some name).or
        (later.find? fun m => (mentions ++ later).lookup m.1 = some name) := by
  have hcongr : mentions.filter (fun m => (mentions ++ later).lookup m.1 = some name) =
      mentions.filter fun m => mentions.lookup m.1 = some name :=
    List.filter_congr fun m hm => by rw [lookup_append_of_mem hm]
  rw [List.find?_append, ← List.head?_filter, hcongr, List.head?_filter]

theorem any_iff (h : FirstMentions mentions functions) {f : FuncId} :
    functions.any (·.1 == f) ↔ ∃ name, mentions.lookup f = some name := by
  rw [← h.lookup_eq, ← Option.isSome_iff_exists, List.lookup_isSome_iff, List.any_eq_true]
  exact exists_congr fun m => and_congr_right fun _ => by rw [beq_iff_eq, beq_iff_eq, eq_comm]

/-- A function that was mentioned before is not listed again. -/
theorem again (h : FirstMentions mentions functions) {f : FuncId} (hf : functions.any (·.1 == f))
    (name : String) : FirstMentions (mentions ++ [(f, name)]) functions := by
  obtain ⟨first, hfirst⟩ := h.any_iff.mp hf
  constructor
  · intro f'
    rw [h.lookup_eq, List.lookup_append]
    by_cases heq : f' = f
    · rw [heq, hfirst, Option.some_or]
    · have hnone : [(f, name)].lookup f' = none := by simpa [List.lookup_eq_none_iff] using heq
      rw [hnone, Option.or_none]
  · intro name'
    have hlookup : (mentions ++ [(f, name)]).lookup f = some first := by
      rw [List.lookup_append, hfirst, Option.some_or]
    rw [h.find?_eq, find?_append]
    cases hfound : mentions.find? fun m => mentions.lookup m.1 = some name' with
    | some m => rw [Option.some_or]
    | none =>
        -- none of those mentioned before has the name, and `f` is one of them
        obtain ⟨m, hm, hmf⟩ := List.lookup_isSome_iff.mp (Option.isSome_of_mem hfirst)
        have hne := List.find?_eq_none.mp hfound m hm
        rw [← eq_of_beq hmf, hfirst] at hne
        simpa [hlookup] using hne

/-- A function that was not mentioned before is listed last. -/
theorem first (h : FirstMentions mentions functions) {f : FuncId} (hf : ¬ functions.any (·.1 == f))
    (name : String) : FirstMentions (mentions ++ [(f, name)]) (functions ++ [(f, name)]) := by
  have hlookup : (mentions ++ [(f, name)]).lookup f = some name := by
    have hnone : mentions.lookup f = none :=
      Option.eq_none_iff_forall_ne_some.mpr fun first hfirst => hf (h.any_iff.mpr ⟨first, hfirst⟩)
    rw [List.lookup_append, hnone, Option.none_or, List.lookup_cons_self]
  constructor
  · intro f'
    rw [List.lookup_append, List.lookup_append, h.lookup_eq]
  · intro name'
    rw [List.find?_append, h.find?_eq, find?_append]
    simp [hlookup]

end FirstMentions

namespace CallGraph

variable {g : CallGraph} {mentions : List (FuncId × String)}

theorem firstMentions_addFunction (h : FirstMentions mentions g.functions) (f : FuncId)
    (name : String) : FirstMentions (mentions ++ [(f, name)]) (g.addFunction f name).functions := by
  unfold addFunction contains
  split
  · exact h.again ‹_› name
  · exact h.first ‹_› name

theorem firstMentions_record (h : FirstMentions mentions g.functions) (caller callee : FuncId)
    (extend : CallSites → CallSites) :
    FirstMentions (mentions ++ [(caller, s!"f{caller}"), (callee, s!"f{callee}")])
      (g.record caller callee extend).functions := by
  rw [functions_record, List.append_cons]
  exact firstMentions_addFunction (firstMentions_addFunction h caller _) callee _

end CallGraph

namespace CallLog

variable {log : CallLog}

theorem graph_concat (log : CallLog) (e : CallEvent) : graph (log ++ [e]) = e.apply log.graph := by
  rw [graph, List.foldl_append]
  rfl

theorem mentions_concat (log : CallLog) (e : CallEvent) :
    mentions (log ++ [e]) = log.mentions ++ e.mentions := by
  simp [mentions]

theorem built_graph (log : CallLog) : log.graph.Built := by
  induction log using List.reverseRecOn with
  | nil => exact .empty
  | append_singleton log e ih =>
      rw [graph_concat]
      cases e with
      | function f name => exact ih.addFunction f name
      | call caller callee site => exact ih.addCall caller callee site
      | indirectCall caller callee site => exact ih.addIndirectCall caller callee site

theorem firstMentions_graph (log : CallLog) : FirstMentions log.mentions log.graph.functions := by
  induction log using List.reverseRecOn with
  | nil => exact .nil
  | append_singleton log e ih =>
      rw [graph_concat, mentions_concat]
      cases e with
      | function f name => exact CallGraph.firstMentions_addFunction ih f name
      | call caller callee site => exact CallGraph.firstMentions_record ih caller callee _
      | indirectCall caller callee site => exact CallGraph.firstMentions_record ih caller callee _

/-- The graph finds functions by name as the log does. -/
theorem byName?_graph (log : CallLog) (name : String) :
    log.graph.byName? name = log.byName? name := by
  rw [CallGraph.byName?, log.firstMentions_graph.find?_eq]
  rfl

theorem contains_graph {f : FuncId} : log.graph.contains f ↔ ∃ name, log.name? f = some name :=
  log.firstMentions_graph.any_iff

/-- The graph has the calls of the log. -/
theorem calls_graph {caller callee : FuncId} :
    log.graph.Calls caller callee ↔ log.Calls caller callee := by
  induction log using List.reverseRecOn with
  | nil => simp [CallGraph.Calls, Calls, graph, CallGraph.empty]
  | append_singleton log e ih =>
      have hlast : Calls (log ++ [e]) caller callee ↔ Calls log caller callee ∨
          e.Reports caller callee := by
        simp [Calls, or_and_right, exists_or]
      rw [graph_concat, hlast, ← ih]
      cases e with
      | function f name =>
          rw [CallEvent.apply, CallGraph.Calls, CallGraph.calls_addFunction]
          simp [CallEvent.Reports, CallGraph.Calls]
      | call f h site =>
          rw [CallEvent.apply, CallGraph.addCall, CallGraph.calls_record]
          simp [CallEvent.Reports, eq_comm]
      | indirectCall f h site =>
          rw [CallEvent.apply, CallGraph.addIndirectCall, CallGraph.calls_record]
          simp [CallEvent.Reports, eq_comm]

end CallLog

end PointerAnalysis
