import PointerAnalysis.Proofs.CallGraph
import PointerAnalysis.Proofs.ContextGraph.Bijection
import PointerAnalysis.Proofs.ContextGraph.Total

/-!
Call strings match calls with returns. If the edges of a program follow its call graph, its context
graph can be built for call strings of any length. A call then leads from each context of the caller
to the one that has the caller in front, cut at the length, a return leads back from there, and no
other edge enters or leaves a function.
-/

namespace PointerAnalysis

namespace CallStringPolicy

variable {calls : CallGraph} {k : Nat} {p : AssignmentGraph}

/-! ## Crossing from one function to another -/

/-- A value of a caller's body goes to or comes from a function that the caller calls. -/
def Agrees (calls : CallGraph) (inside outside : Node) : Prop :=
  outside.hasValue → ∀ f ∈ inside.localTo, ∃ h ∈ outside.affinity, calls.Calls f h

instance (inside outside : Node) : Decidable (Agrees calls inside outside) :=
  inferInstanceAs (Decidable (outside.hasValue → ∀ f ∈ inside.localTo, ∃ h ∈ outside.affinity,
    calls.Calls f h))

/-- The edges of a program follow a call graph: assignments stay within a function, or leave it
for or enter it from what belongs to none, and calls and returns join functions of which one
calls the other. -/
structure Respects (calls : CallGraph) (p : AssignmentGraph) : Prop where
  intra : ∀ pe ∈ p.edges, pe.kind.isIntra → ∀ src ∈ p.nodes[pe.src]?, ∀ dst ∈ p.nodes[pe.dst]?,
    src.affinity = dst.affinity ∨ src.affinity = none ∨ dst.affinity = none
  call : ∀ pe ∈ p.edges, pe.kind = .call → ∀ src ∈ p.nodes[pe.src]?, ∀ dst ∈ p.nodes[pe.dst]?,
    Agrees calls src dst
  ret : ∀ pe ∈ p.edges, pe.kind = .ret → ∀ src ∈ p.nodes[pe.src]?, ∀ dst ∈ p.nodes[pe.dst]?,
    Agrees calls dst src

/-- From a context of the caller, a call of what stands for a part of the program text enters the
context with the caller in front, cut at `k` callers. -/
inductive Enters (calls : CallGraph) (k : Nat) (inside outside : Node) :
    CallString → CallString → Prop where
  | mk {f : FuncId} {c : CallString} (hvalue : outside.hasValue) (hf : inside.localTo = some f)
      (hc : c ∈ calls.callStrings f k) : Enters calls k inside outside c ⟨(f :: c.frames).take k⟩

/-- The contexts of the source and of the target in which an edge crosses from one function to
another. The body of the caller is where a call starts and where a return ends. -/
inductive Crosses (calls : CallGraph) (k : Nat) (p : AssignmentGraph) (pe : Edge) :
    CallString → CallString → Prop where
  | call {src dst : Node} {c d : CallString} (hkind : pe.kind = .call)
      (hsrc : p.nodes[pe.src]? = some src)
      (hdst : p.nodes[pe.dst]? = some dst) (h : Enters calls k src dst c d) :
      Crosses calls k p pe c d
  | ret {src dst : Node} {c d : CallString} (hkind : pe.kind = .ret)
      (hsrc : p.nodes[pe.src]? = some src)
      (hdst : p.nodes[pe.dst]? = some dst) (h : Enters calls k dst src c d) :
      Crosses calls k p pe d c

/-- The pairs of a caller's context and the one that is entered, for two nodes. -/
def crossings (q : CallStringPolicy) (inside outside : Node) : List (CallString × CallString) :=
  if outside.hasValue then (inside.localTo.map q.transitions).getD [] else []

section pairs

variable {pe : Edge} {src dst : Node} (hsrc : p.nodes[pe.src]? = some src)
  (hdst : p.nodes[pe.dst]? = some dst)

include hsrc hdst

theorem crosses_iff_of_call (hkind : pe.kind = .call) {c d : CallString} :
    Crosses calls k p pe c d ↔ Enters calls k src dst c d := by
  constructor
  · intro h
    cases h with
    | call _ hsrc' hdst' h =>
        cases hsrc.symm.trans hsrc'
        cases hdst.symm.trans hdst'
        exact h
    | ret hret => cases hkind.symm.trans hret
  · exact .call hkind hsrc hdst

theorem crosses_iff_of_ret (hkind : pe.kind = .ret) {c d : CallString} :
    Crosses calls k p pe d c ↔ Enters calls k dst src c d := by
  constructor
  · intro h
    cases h with
    | call hcall => cases hkind.symm.trans hcall
    | ret _ hsrc' hdst' h =>
        cases hsrc.symm.trans hsrc'
        cases hdst.symm.trans hdst'
        exact h
  · exact .ret hkind hsrc hdst

theorem callPairs_eq (q : CallStringPolicy) : q.callPairs p pe = .ok (q.crossings src dst) := by
  simp only [callPairs, entryAt_eq_ok hsrc, entryAt_eq_ok hdst, bind, Except.bind, pure,
    Except.pure, crossings]
  cases hlocal : src.localTo with
  | none => simp
  | some f => cases hvalue : dst.hasValue <;> simp [Node.hasValue_of_localTo hlocal]

theorem returnPairs_eq (q : CallStringPolicy) :
    q.returnPairs p pe = .ok ((q.crossings dst src).map fun ctxs => (ctxs.2, ctxs.1)) := by
  simp only [returnPairs, entryAt_eq_ok hsrc, entryAt_eq_ok hdst, bind, Except.bind, pure,
    Except.pure, crossings]
  cases hlocal : dst.localTo with
  | none => simp
  | some f =>
      cases hvalue : src.hasValue <;> simp [Node.hasValue_of_localTo hlocal]

end pairs

section respects

variable (hcalls : calls.WellFormed)

include hcalls

theorem mem_crossings {inside outside : Node} (hagrees : Agrees calls inside outside)
    {c d : CallString} :
    (c, d) ∈ crossings ⟨calls, k⟩ inside outside ↔ Enters calls k inside outside c d := by
  have hcontexts : outside.hasValue → ∀ f, inside.localTo = some f →
      callerContexts ⟨calls, k⟩ f = calls.callStrings f k := by
    intro hvalue f hf
    obtain ⟨h, -, hcall⟩ := hagrees hvalue f hf
    rw [callerContexts_eq, if_pos (hcalls.ends f h hcall).1]
  unfold crossings
  constructor
  · intro h
    split at h
    · rename_i hvalue
      cases hf : inside.localTo with
      | none => simp [hf] at h
      | some f =>
          simp only [hf, Option.map_some, Option.getD_some, transitions, hcontexts hvalue f hf,
            List.mem_map, Prod.mk.injEq] at h
          obtain ⟨c, hc, rfl, rfl⟩ := h
          exact .mk hvalue hf hc
    · cases h
  · rintro ⟨hvalue, hf, hc⟩
    rw [if_pos hvalue, hf]
    simp only [Option.map_some, Option.getD_some, transitions, hcontexts hvalue _ hf]
    exact List.mem_map.mpr ⟨c, hc, rfl⟩

/-- The pairs of contexts that a call or a return joins are those in which it crosses. -/
theorem exists_pairsFor_crosses (hrespects : Respects calls p) (g : ContextGraph CallString)
    {pe : Edge} {src dst : Node} (hpe : pe ∈ p.edges) (hsrc : p.nodes[pe.src]? = some src)
    (hdst : p.nodes[pe.dst]? = some dst) (hkind : pe.kind = .call ∨ pe.kind = .ret) :
    ∃ pairs, ContextGraph.pairsFor (policy ⟨calls, k⟩) p g pe = .ok pairs ∧
      ∀ c d, (c, d) ∈ pairs ↔ Crosses calls k p pe c d := by
  unfold ContextGraph.pairsFor
  rcases hkind with hkind | hkind
  · rw [hkind]
    refine ⟨_, callPairs_eq hsrc hdst _, fun c d => ?_⟩
    rw [mem_crossings hcalls (hrespects.call pe hpe hkind src hsrc dst hdst),
      crosses_iff_of_call hsrc hdst hkind]
  · rw [hkind]
    refine ⟨_, returnPairs_eq hsrc hdst _, fun c d => ?_⟩
    have hswap : (c, d) ∈ (crossings ⟨calls, k⟩ dst src).map (fun ctxs => (ctxs.2, ctxs.1)) ↔
        (d, c) ∈ crossings ⟨calls, k⟩ dst src := by
      simp
    rw [hswap, mem_crossings hcalls (hrespects.ret pe hpe hkind src hsrc dst hdst),
      crosses_iff_of_ret hsrc hdst hkind]

/-- Both contexts exist: the caller's chains end where those of the callee do, or one caller later.
-/
theorem Enters.mem_contextsFor (hcheck : p.check = .ok ()) {i j : NodeId} {inside outside : Node}
    (hinside : p.nodes[i]? = some inside) (houtside : p.nodes[j]? = some outside)
    (hagrees : Agrees calls inside outside) {c d : CallString}
    (h : Enters calls k inside outside c d) :
    c ∈ ContextGraph.contextsFor (policy ⟨calls, k⟩) inside ∧
      d ∈ ContextGraph.contextsFor (policy ⟨calls, k⟩) outside := by
  have hcontexts : ∀ (i : NodeId) (n : Node) (f : FuncId), p.nodes[i]? = some n → n.hasValue →
      n.affinity = some f → calls.contains f →
      ContextGraph.contextsFor (policy ⟨calls, k⟩) n = calls.callStrings f k := by
    intro i n f hn hvalue hf hcontains
    have hid : ¬ n.id < reservedCount := by
      intro hlt
      rw [Node.hasValue, AssignmentGraph.check_reserved hcheck hn hlt] at hvalue
      cases hvalue
    rw [contextsFor_eq, if_neg hid, hf, Option.elim_some, callerContexts_eq, if_pos hcontains]
  obtain ⟨hvalue, hf, hc⟩ := h
  obtain ⟨h, hh, hcall⟩ := hagrees hvalue _ hf
  obtain ⟨hcaller, hcallee⟩ := hcalls.ends _ _ hcall
  have hinner := Node.affinity_of_localTo hf
  rw [hcontexts i inside _ hinside (Node.hasValue_of_localTo hf) hinner hcaller,
    hcontexts j outside h houtside hvalue hh hcallee]
  refine ⟨hc, ?_⟩
  have hchain := CallGraph.mem_callStrings.mp hc
  exact CallGraph.mem_callStrings.mpr (CallGraph.cons_take_mem_callerChains hcall hchain)

theorem Crosses.mem_contextsFor (hcheck : p.check = .ok ()) (hrespects : Respects calls p)
    {pe : Edge} {src dst : Node} (hpe : pe ∈ p.edges) (hsrc : p.nodes[pe.src]? = some src)
    (hdst : p.nodes[pe.dst]? = some dst) {c d : CallString} (h : Crosses calls k p pe c d) :
    c ∈ ContextGraph.contextsFor (policy ⟨calls, k⟩) src ∧
      d ∈ ContextGraph.contextsFor (policy ⟨calls, k⟩) dst := by
  cases h with
  | call hkind hsrc' hdst' h =>
      cases hsrc.symm.trans hsrc'
      cases hdst.symm.trans hdst'
      exact h.mem_contextsFor hcalls hcheck hsrc hdst
        (hrespects.call pe hpe hkind src hsrc dst hdst)
  | ret hkind hsrc' hdst' h =>
      cases hsrc.symm.trans hsrc'
      cases hdst.symm.trans hdst'
      exact (h.mem_contextsFor hcalls hcheck hdst hsrc
        (hrespects.ret pe hpe hkind src hsrc dst hdst)).symm

end respects

theorem nodup_contextsFor (n : Node) : (ContextGraph.contextsFor (policy ⟨calls, k⟩) n).Nodup := by
  have hcontexts : ∀ f, (callerContexts ⟨calls, k⟩ f).Nodup := by
    intro f
    rw [callerContexts_eq]
    split
    · rw [CallGraph.callStrings_eq]
      exact (calls.nodup_callerChains k f).map fun c d h => congrArg CallString.frames h
    · exact List.nodup_singleton _
  rw [contextsFor_eq]
  split
  · exact List.nodup_singleton _
  · cases n.affinity with
    | none => exact List.nodup_singleton _
    | some f => exact hcontexts f

/-- If the edges of a program follow the call graph, its context graph can be built. -/
theorem buildable (hcalls : calls.WellFormed) (hcheck : p.check = .ok ())
    (hrespects : Respects calls p) : ContextGraph.Buildable (policy ⟨calls, k⟩) p where
  nodup n _ := nodup_contextsFor n
  pairs g hcopied pe hpe := by
    obtain ⟨hsrc, hdst, -⟩ := AssignmentGraph.check_edges hcheck hpe
    have hsrc := Array.getElem?_eq_getElem hsrc
    have hdst := Array.getElem?_eq_getElem hdst
    cases hkind : pe.kind with
    | call | ret =>
        obtain ⟨pairs, hpairs, hcrosses⟩ :=
          exists_pairsFor_crosses (k := k) hcalls hrespects g hpe hsrc hdst (by simp [hkind])
        refine ⟨pairs, hpairs, fun ctxs h => ?_⟩
        rw [hcopied _ _ hsrc, hcopied _ _ hdst]
        exact ((hcrosses _ _).mp h).mem_contextsFor hcalls hcheck hrespects hpe hsrc hdst
    | fork | join => exact ⟨[], by rw [ContextGraph.pairsFor, hkind], by simp⟩
    | addr | copy | load | store | field | anyField =>
        have hintra : pe.kind.isIntra := by rw [hkind]; rfl
        rw [ContextGraph.pairsFor_of_isIntra hintra]
        exact ContextGraph.exists_intraPairs hcheck hsrc hdst hcopied
          (hrespects.intra pe hpe hintra _ hsrc _ hdst)

/-- If the edges of a program follow the call graph, its context graph can be built for call
strings of any length. The copies of its calls and returns are those between the contexts in which
they cross. -/
theorem build_matches_calls (hcalls : calls.Built) (hp : p.Built) (hcheck : p.check = .ok ())
    (hrespects : Respects calls p) (k : Nat) (fieldSensitive : Bool) :
    ∃ g, ContextGraph.build (policy ⟨calls, k⟩) p fieldSensitive = .ok g ∧
      (∀ e ∈ g.edges, e.kind = .call ∨ e.kind = .ret →
        ∃ pe ∈ p.edges, ∃ c d, Crosses calls k p pe c d ∧ g.Joins pe (c, d) e) ∧
      ∀ pe ∈ p.edges, ∀ c d, Crosses calls k p pe c d → ∃ e ∈ g.edges, g.Joins pe (c, d) e := by
  obtain ⟨g, hok⟩ := (buildable hcalls.wellFormed hcheck hrespects).exists_build hp fieldSensitive
  have hg := ContextGraph.build_unfolds hp.layout hok
  have hpairs : ∀ pe ∈ p.edges, pe.kind = .call ∨ pe.kind = .ret → ∀ pairs,
      ContextGraph.pairsFor (policy ⟨calls, k⟩) p g pe = .ok pairs →
      ∀ c d, (c, d) ∈ pairs ↔ Crosses calls k p pe c d := by
    intro pe hpe hkind pairs hpairs
    obtain ⟨hsrc, hdst, -⟩ := AssignmentGraph.check_edges hcheck hpe
    obtain ⟨pairs', hpairs', hcrosses⟩ := exists_pairsFor_crosses hcalls.wellFormed hrespects g hpe
      (Array.getElem?_eq_getElem hsrc) (Array.getElem?_eq_getElem hdst) hkind
    cases hpairs.symm.trans hpairs'
    exact hcrosses
  refine ⟨g, hok, fun e he hkind => ?_, fun pe hpe c d h => ?_⟩
  · obtain ⟨pe, hpe, pairs, hok, ⟨c, d⟩, hctxs, hjoins⟩ := hg.edge e he
    rw [hjoins.kind] at hkind
    exact ⟨pe, hpe, c, d, (hpairs pe hpe hkind pairs hok c d).mp hctxs, hjoins⟩
  · have hkind : pe.kind = .call ∨ pe.kind = .ret := by
      cases h with
      | call hkind => exact .inl hkind
      | ret hkind => exact .inr hkind
    obtain ⟨pairs, hok, hjoined⟩ := hg.joined pe hpe
    exact hjoined _ ((hpairs pe hpe hkind pairs hok c d).mpr h)

open ContextGraph in
/-- In `keeping`, let `keep` call itself as well. It is then copied for five call strings of length
two, of which the calls from outside enter two and the return to `a` leaves one. -/
theorem build_matches_calls_keeping :
    ∃ g, build (policy ⟨keepingCalls.addCall 3 3 2, 2⟩) keeping true = .ok g ∧
      ((g.edgesOfKind .call).map (fun i => g.edges[i]?.map keyOf) =
          [some ⟨6, 8, .call, 0⟩, some ⟨7, 9, .call, 0⟩] ∧
        (g.edgesOfKind .ret).map (fun i => g.edges[i]?.map keyOf) = [some ⟨13, 18, .ret, 0⟩]) ∧
      (∀ e ∈ g.edges, e.kind = .call ∨ e.kind = .ret → ∃ pe ∈ keeping.edges, ∃ c d,
        Crosses (keepingCalls.addCall 3 3 2) 2 keeping pe c d ∧ g.Joins pe (c, d) e) ∧
      ∀ pe ∈ keeping.edges, ∀ c d, Crosses (keepingCalls.addCall 3 3 2) 2 keeping pe c d →
        ∃ e ∈ g.edges, g.Joins pe (c, d) e := by
  have hcalls : (keepingCalls.addCall 3 3 2).Built :=
    ((CallGraph.Built.empty.addCall 1 3 0).addCall 2 3 1).addCall 3 3 2
  have hcheck : keeping.check = .ok () := by decide +kernel
  have hrespects : Respects (keepingCalls.addCall 3 3 2) keeping :=
    ⟨by decide +kernel, by decide +kernel, by decide +kernel⟩
  have hedges : (build (policy ⟨keepingCalls.addCall 3 3 2, 2⟩) keeping true).toOption.any (fun g =>
      decide ((g.edgesOfKind .call).map (fun i => g.edges[i]?.map keyOf) =
          [some ⟨6, 8, .call, 0⟩, some ⟨7, 9, .call, 0⟩] ∧
        (g.edgesOfKind .ret).map (fun i => g.edges[i]?.map keyOf) = [some ⟨13, 18, .ret, 0⟩])) =
        true := by
    decide +kernel
  obtain ⟨g, hok, hedges⟩ := exists_ok_of_any hedges
  obtain ⟨g', hok', hcross⟩ := build_matches_calls hcalls built_keeping hcheck hrespects 2 true
  cases hok.symm.trans hok'
  exact ⟨g, hok, of_decide_eq_true hedges, hcross⟩

end CallStringPolicy

end PointerAnalysis
