import PointerAnalysis.Proofs.CallLog
import PointerAnalysis.Proofs.ContextGraph.Origins

/-!
Which origins functions belong to. Given any log of functions and calls and any list of different
names, marking fails at the first name that no function has. Otherwise the named functions are
different, each belongs to the origin that it opens alone, and any other function belongs to the
main program and to the origins of those named functions from which calls lead to it.
-/

namespace PointerAnalysis

/-- Mapping a list fails as its first element that cannot be mapped does. -/
theorem mapM_eq_error_iff {α β ε : Type} {f : α → Except ε β} {xs : List α} {e : ε} :
    xs.mapM f = .error e ↔ ∃ before x after, xs = before ++ x :: after ∧
      (∀ y ∈ before, ∃ b, f y = .ok b) ∧ f x = .error e := by
  induction xs with
  | nil => simp [pure, Except.pure]
  | cons x xs ih =>
      rw [List.mapM_cons]
      cases hx : f x with
      | error e' =>
          constructor
          · intro h
            cases h
            exact ⟨[], x, xs, rfl, by simp, hx⟩
          · rintro ⟨before, y, after, heq, hbefore, hy⟩
            cases before with
            | nil =>
                cases heq
                cases hx.symm.trans hy
                rfl
            | cons z before =>
                cases heq
                obtain ⟨b, hb⟩ := hbefore x List.mem_cons_self
                cases hx.symm.trans hb
      | ok b =>
          have hrest :
              (do let ys ← xs.mapM f; return b :: ys) = .error e ↔ xs.mapM f = .error e := by
            cases xs.mapM f <;> simp [bind, Except.bind, pure, Except.pure]
          refine hrest.trans (ih.trans ⟨?_, ?_⟩)
          · rintro ⟨before, y, after, rfl, hbefore, hy⟩
            exact ⟨x :: before, y, after, rfl, List.forall_mem_cons.mpr ⟨⟨b, hx⟩, hbefore⟩, hy⟩
          · rintro ⟨before, y, after, heq, hbefore, hy⟩
            cases before with
            | nil =>
                cases heq
                cases hx.symm.trans hy
            | cons z before =>
                cases heq
                exact ⟨before, y, after, rfl, (List.forall_mem_cons.mp hbefore).2, hy⟩

theorem mapM_eq_ok {α β ε : Type} {f : α → Except ε β} {xs : List α}
    (h : ∀ x ∈ xs, ∃ b, f x = .ok b) : ∃ ys, xs.mapM f = .ok ys := by
  cases hxs : xs.mapM f with
  | ok ys => exact ⟨ys, rfl⟩
  | error e =>
      obtain ⟨before, x, after, rfl, -, hx⟩ := mapM_eq_error_iff.mp hxs
      obtain ⟨b, hb⟩ := h x (List.mem_append_right before List.mem_cons_self)
      cases hx.symm.trans hb

namespace CallLog

/-- A name has a function if it is the name of one. -/
theorem byName?_eq_none_iff {log : CallLog} {name : String} :
    log.byName? name = none ↔ ∀ f, log.name? f ≠ some name := by
  rw [byName?, Option.map_eq_none_iff, List.find?_eq_none]
  constructor
  · intro h f hf
    obtain ⟨m, hm, hmf⟩ := List.lookup_isSome_iff.mp (Option.isSome_of_mem hf)
    exact h m hm (decide_eq_true (eq_of_beq hmf ▸ hf))
  · intro h m _ hm
    exact h m.1 (of_decide_eq_true hm)

end CallLog

namespace OriginPolicy

variable {log : CallLog} {names : List String} {q : OriginPolicy}

/-- The origins of the functions of a log if the functions of some names open one each. -/
structure Marks (log : CallLog) (names : List String) (q : OriginPolicy) : Prop where
  entries : List.Forall₂ (fun name e => log.byName? name = some e) names q.entries
  nodup : q.entries.Nodup
  entry : ∀ i e, q.entries[i]? = some e → (q.originsOf e).toList = [i + 1]
  other : ∀ f, log.name? f ≠ none → f ∉ q.entries →
    (q.originsOf f).toList.Pairwise (· < ·) ∧ ∀ n, n ∈ (q.originsOf f).toList ↔
      n = 0 ∨ ∃ i e, q.entries[i]? = some e ∧ Relation.ReflTransGen log.Calls e f ∧ n = i + 1
  unknown : ∀ f, log.name? f = none → (q.originsOf f).toList = []

/-! ## Entries -/

theorem entry_graph_eq_ok {name : String} {f : FuncId} :
    entry log.graph name = .ok f ↔ log.byName? name = some f := by
  rw [entry, CallLog.byName?_graph]
  cases log.byName? name <;> simp

theorem entry_graph_eq_error {name : String} {error : AnalysisError} :
    entry log.graph name = .error error ↔ (∀ f, log.name? f ≠ some name) ∧
      error = .unknownEntry name := by
  rw [entry, CallLog.byName?_graph, ← CallLog.byName?_eq_none_iff]
  cases log.byName? name <;> simp [eq_comm]

theorem exists_entry_graph {name : String} :
    (∃ f, entry log.graph name = .ok f) ↔ ∃ f, log.name? f = some name := by
  simp only [entry_graph_eq_ok]
  rw [← Option.ne_none_iff_exists', ne_eq, CallLog.byName?_eq_none_iff]
  simp

theorem ofEntries_eq_error_iff {calls : CallGraph} {error : AnalysisError} :
    ofEntries calls names = .error error ↔ names.mapM (entry calls) = .error error := by
  rw [ofEntries_eq]
  cases names.mapM (entry calls) <;> simp [Functor.map, Except.map]

/-! ## Origins -/

/-- Calls lead from registered functions to registered ones. -/
theorem originsOf_of_not_contains {calls : CallGraph} (hcalls : calls.WellFormed)
    (hq : Opens calls q) {f : FuncId} (hf : ¬ calls.contains f) : q.originsOf f = ∅ := by
  have hout : f ∉ q.entries := fun h => hf (hq.contains f h)
  have hnone : ∀ n, n ∉ q.originsOf f := by
    intro n hn
    rcases (hq.mem_originsOf_other hcalls hout).mp hn with ⟨i, e, hi, hreaches, -⟩ | ⟨hcontains, -⟩
    · cases hreaches with
      | refl => exact hout (List.mem_of_getElem? hi)
      | tail _ hcall => exact hf (hcalls.ends _ _ hcall).2
    · exact hf hcontains
  exact IdSet.ext fun n => ⟨fun h => absurd h (hnone n), fun h => absurd h IdSet.not_mem_empty⟩

theorem belongs_other_iff {calls : CallGraph} {entries : List FuncId} {f : FuncId}
    (hf : f ∉ entries) {n : Nat} :
    Belongs calls entries f n ↔ n = 0 ∨ ∃ i e, entries[i]? = some e ∧ calls.Reaches e f ∧
      n = i + 1 := by
  constructor
  · intro h
    cases h with
    | opens hj => exact absurd (List.mem_of_getElem? hj) hf
    | main => exact .inl rfl
    | reached _ hj hreaches => exact .inr ⟨_, _, hj, hreaches, rfl⟩
  · rintro (rfl | ⟨i, e, hi, hreaches, rfl⟩)
    · exact .main hf
    · exact .reached hf hi hreaches

theorem Opens.marks (hq : Opens log.graph q)
    (hentries : List.Forall₂ (fun name e => log.byName? name = some e) names q.entries) :
    Marks log names q where
  entries := hentries
  nodup := hq.nodup
  entry i e hi := by
    rw [hq.originsOf_entry hi]
    rfl
  other f hf hout := by
    have hcontains : log.graph.contains f :=
      CallLog.contains_graph.mpr (Option.ne_none_iff_exists'.mp hf)
    have hcalls : log.graph.Calls = log.Calls := by
      funext caller callee
      exact propext CallLog.calls_graph
    refine ⟨(q.originsOf f).ascending, fun n => ?_⟩
    rw [← hcalls, ← belongs_other_iff hout,
      ← mem_originsOf_iff log.built_graph.wellFormed hq hcontains, IdSet.mem_def]
  unknown f hf := by
    have hcontains : ¬ log.graph.contains f := by
      rw [CallLog.contains_graph, hf]
      simp
    rw [originsOf_of_not_contains log.built_graph.wellFormed hq hcontains]
    rfl

/-- Marking fails exactly if some name is that of no function, and then reports the first such
name. Otherwise the named functions get the origins that they open, and all others those that
lead to them. -/
theorem ofEntries_marks (log : CallLog) {names : List String} (hnames : names.Nodup) :
    (∀ error, ofEntries log.graph names = .error error ↔
      ∃ known name rest, names = known ++ name :: rest ∧ (∀ n ∈ known, ∃ f, log.name? f = some n) ∧
        (∀ f, log.name? f ≠ some name) ∧ error = .unknownEntry name) ∧
    ((∀ name ∈ names, ∃ f, log.name? f = some name) →
      ∃ q, ofEntries log.graph names = .ok q ∧ Marks log names q) := by
  constructor
  · intro error
    rw [ofEntries_eq_error_iff, mapM_eq_error_iff]
    simp only [exists_entry_graph, entry_graph_eq_error]
  · intro hknown
    obtain ⟨entries, hentries⟩ :=
      mapM_eq_ok fun name hname => exists_entry_graph.mpr (hknown name hname)
    have hok : ofEntries log.graph names = .ok (marked log.graph entries) := by
      rw [ofEntries_eq, hentries]
      rfl
    have hq := opens_of_ofEntries log.built_graph.wellFormed hnames hok
    exact ⟨_, hok, hq.marks ((forall₂_of_mapM hentries).imp fun _ _ => entry_graph_eq_ok.mp)⟩

/-- Function 1 is known as `f1` before it gets a name of its own, so `worker` is function 2. The two
call each other, and both reach function 3. -/
def circling : CallLog :=
  [.function 0 "main", .call 0 1 10, .function 1 "worker", .function 2 "worker",
    .indirectCall 1 2 11, .call 2 1 12, .call 2 3 13]

/-- Although the entries reach each other, each belongs to its own origin only. -/
theorem ofEntries_marks_circling :
    ofEntries circling.graph ["worker", "f4", "f1", "f5"] = .error (.unknownEntry "f4") ∧
    ∃ q, ofEntries circling.graph ["worker", "f1"] = .ok q ∧ Marks circling ["worker", "f1"] q ∧
      q.entries = [2, 1] ∧
      (List.range 5).map (fun f => (q.originsOf f).toList) = [[0], [2], [1], [0, 1, 2], []] := by
  have hworker : circling.name? 2 = some "worker" := by decide +kernel
  have hf1 : circling.name? 1 = some "f1" := by decide +kernel
  have hf4 : ∀ f, circling.name? f ≠ some "f4" := CallLog.byName?_eq_none_iff.mp (by decide +kernel)
  constructor
  · apply ((ofEntries_marks circling (by decide)).1 _).mpr
    exact ⟨["worker"], "f4", ["f1", "f5"], rfl, by simpa using ⟨2, hworker⟩, hf4, rfl⟩
  · have hknown : ∀ name ∈ ["worker", "f1"], ∃ f, circling.name? f = some name := by
      simpa using ⟨⟨2, hworker⟩, ⟨1, hf1⟩⟩
    have hrun : (ofEntries circling.graph ["worker", "f1"]).toOption.any (fun q =>
        decide (q.entries = [2, 1] ∧
          (List.range 5).map (fun f => (q.originsOf f).toList) = [[0], [2], [1], [0, 1, 2], []])) =
          true := by
      decide +kernel
    obtain ⟨q, hok, hmarks⟩ := (ofEntries_marks circling (by decide)).2 hknown
    rw [hok] at hrun
    exact ⟨q, hok, hmarks, of_decide_eq_true hrun⟩

end OriginPolicy

end PointerAnalysis
