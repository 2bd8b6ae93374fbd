import PointerAnalysis.Proofs.Solver.Monotone

/-!
The records of the strategy that sends only what is new. What a node counts as sent is never sent
again along its constraints, and what a load or store counts as dealt with is never looked at again;
so a record may not say more than was done, whatever merges and folds came in between. After every
request all that the records say is true.
-/

namespace PointerAnalysis

namespace Solver

variable {C : Type} [Context C] {s t : Solver C} {cg : ContextGraph C}

/-! ## Records that are true -/

/-- What is recorded as sent has arrived along all direct constraints, and what is recorded as dealt
with by a load or store is linked. -/
structure RecordsHold (s : Solver C) : Prop where
  sent : ∀ n, s.facts.sentBy n ⊆ s.facts.pointsTo n
  copy : ∀ n m, s.graph.Has ⟨n, m, .copy⟩ → s.facts.sentBy n ⊆ s.facts.pointsTo m
  field : ∀ n m offset, s.graph.Has ⟨n, m, .field offset⟩ → ∀ o ∈ s.facts.sentBy n,
    ∃ f ∈ s.facts.pointsTo m, s.graph.field o offset = .ok (f, s.graph)
  anyField : ∀ n m, s.graph.Has ⟨n, m, .anyField⟩ → ∀ o ∈ s.facts.sentBy n,
    ∃ b ∈ s.facts.pointsTo m,
      if ContextGraph.isSpecial o then b = o else s.graph.contexts.baseOf o = .ok b
  load : ∀ e ptr dst, s.graph.edge? e = some ⟨ptr, dst, .load⟩ → ∀ o ∈ s.facts.handledBy e,
    s.graph.contexts.Dereferenceable o → s.graph.Linked o dst
  store : ∀ e src ptr, s.graph.edge? e = some ⟨src, ptr, .store⟩ → ∀ o ∈ s.facts.handledBy e,
    s.graph.contexts.Dereferenceable o → s.graph.Linked src o

theorem Rested.recordsHold (hs : Rested s) (hst : s.strategy = .waveDiff) : RecordsHold s := by
  have hwf := hs.wellFormed
  have hsent := hs.sent hst
  have hhandled := hs.handled hst
  have hlt : ∀ n, ∀ o ∈ s.facts.sentBy n, o < s.graph.contexts.nodes.size := fun n o ho =>
    (hwf.target n o (hsent.pointsTo n o ho)).1
  have hpass : ∀ c, s.graph.Has c → c.kind.edgeClass = .direct → ∀ o ∈ s.facts.sentBy c.src,
      Passes s c o := fun c hc hdirect => hsent.passes c hc hdirect id
  constructor
  case sent => exact fun n => IdSet.subset_def.mpr (hsent.pointsTo n)
  case copy => exact fun n m hc => IdSet.subset_def.mpr (hpass _ hc rfl)
  case field =>
    intro n m offset hc o ho
    obtain ⟨f, hf, hok⟩ := hs.field_of_passes rfl (hlt n o ho) (hpass _ hc rfl o ho)
    exact ⟨f, hf, ConstraintGraph.field_of_found hwf.graph hok (hwf.target m f hf).1⟩
  case anyField =>
    intro n m hc o ho
    obtain ⟨hspecial, hbase⟩ := hs.base_of_passes rfl (hlt n o ho) (hpass _ hc rfl o ho)
    split
    · rename_i h
      exact ⟨o, hspecial h, rfl⟩
    · rename_i h
      exact (hbase h).1
  case load =>
    intro e ptr dst he o ho hderef
    exact hhandled.passes e _ he id o ho ((ContextGraph.dereferenceable_iff hwf.contexts).mp hderef)
  case store =>
    intro e src ptr he o ho hderef
    exact hhandled.passes e _ he id o ho ((ContextGraph.dereferenceable_iff hwf.contexts).mp hderef)

/-! ## Requests -/

theorem Act.strategy (h : Act s t) (hs : s.WellFormed) : t.strategy = s.strategy := by
  cases h with
  | turn h =>
      cases h with
      | move h => exact (h.frame hs).strategy
      | queue w hlt hnodup => rfl
  | reset => rfl
  | start objs h => rfl

theorem Acts.strategy (h : Acts s t) (hs : s.WellFormed) : t.strategy = s.strategy := by
  induction h with
  | refl => rfl
  | tail hacts hact ih => exact (hact.strategy (Acts.wellFormed hacts hs)).trans ih

theorem performAll_cons {u : Solver C} {first : Request} (h : perform first s = .ok () u)
    (rest : List Request) : (first :: rest).forM perform s = rest.forM perform u := by
  change (perform first >>= fun _ => rest.forM perform) s = _
  simp only [bind, EStateM.bind, h]

/-- Rounds until none is needed are round requests, one after the other. -/
theorem exists_performAll_of_rounds {fuel : Nat} (h : rounds fuel s = .ok () t) :
    ∃ n, (List.replicate n Request.round).forM perform s = .ok () t := by
  induction fuel generalizing s with
  | zero => cases h
  | succ fuel ih =>
      have h : (do if ← round then rounds fuel) s = .ok () t := h
      cases hround : round s with
      | error halt u => simp [bind, EStateM.bind, hround] at h
      | ok again u =>
          simp only [bind, EStateM.bind, hround] at h
          have hperform : perform .round s = .ok () u := by
            simp [perform, discard, Functor.discard, Functor.mapConst, EStateM.map, hround]
          cases again with
          | false =>
              cases h
              exact ⟨1, performAll_cons hperform []⟩
          | true =>
              obtain ⟨n, hn⟩ := ih h
              exact ⟨n + 1, (performAll_cons hperform _).trans hn⟩

/-- A whole run is the start and a number of rounds. -/
theorem exists_performAll_of_solve (h : solve s = .ok () t) :
    ∃ n, (Request.seed :: List.replicate n .round).forM perform s = .ok () t := by
  have h : (seed >>= fun _ => get >>= fun s => rounds s.fuel) s = .ok () t := h
  cases hseed : seed s with
  | error halt u => simp [bind, EStateM.bind, hseed] at h
  | ok a u =>
      simp only [bind, EStateM.bind, hseed] at h
      obtain ⟨n, hn⟩ := exists_performAll_of_rounds (s := u) h
      have hperform : perform .seed s = .ok () u := hseed
      exact ⟨n, (performAll_cons hperform _).trans hn⟩

/-! ## All programs -/

section results

variable {p : AssignmentGraph} {policy : ContextPolicy C} {fieldSensitive : Bool}

/-- After every request to a solver that sends only what is new its records are true. That is so
after each round of a whole run, too, which is the start and a number of rounds. -/
theorem recordsHold_after_requests (hp : p.Built) (hcheck : p.check = .ok ())
    (hbuild : ContextGraph.build policy p fieldSensitive = .ok cg) (requests : List Request)
    (last : Request) :
    ∃ g s t, ConstraintGraph.ofContextGraph cg = .ok g ∧
      requests.forM perform (new g .waveDiff) = .ok () s ∧ perform last s = .ok () t ∧
      RecordsHold t ∧
      (last = .solve → ∃ n, (Request.seed :: List.replicate n .round).forM perform s =
        .ok () t) := by
  obtain ⟨hcg, -⟩ := ContextGraph.build_wellBuilt hp hcheck hbuild
  obtain ⟨g, hok, hg⟩ := ConstraintGraph.ofContextGraph_spans hcg.edges_lt
  obtain ⟨_, s, hrun, hacts, hs⟩ := yields_performAll_new hcg hg .waveDiff requests
  have hlast : Yields (perform last) s fun _ t => Acts s t ∧ Ready cg t := by
    rcases hs with rfl | hs
    · exact (yields_perform_new hcg hg .waveDiff last).mono fun _ t ht => ⟨ht.1, ht.2.1⟩
    · exact (hs.perform last).mono fun _ t ht => ⟨ht.1, ht.2.1⟩
  obtain ⟨_, t, hlast, hst, ht⟩ := hlast
  have hstrategy := Acts.strategy (hacts.trans hst) (wellFormed_new hcg hg .waveDiff)
  refine ⟨g, s, t, hok, hrun, hlast, ht.toRested.recordsHold hstrategy, ?_⟩
  rintro rfl
  exact exists_performAll_of_solve hlast

/-- Node 7 has learnt more than it sent, and there are records for a copy, a field, a load and a
store. -/
theorem recordsHold_selfProjecting :
    ∃ cg s, ContextGraph.build insensitive selfProjecting true = .ok cg ∧ Outcome cg .waveDiff s ∧
      (s.graph.Has ⟨7, 8, .copy⟩ ∧ 4 ∈ s.facts.sentBy 7 ∧ ¬ s.facts.pointsTo 7 ⊆ s.facts.sentBy 7) ∧
      (s.graph.Has ⟨5, 6, .field 0⟩ ∧ 4 ∈ s.facts.sentBy 5) ∧
      (s.graph.edge? 3 = some ⟨10, 7, .load⟩ ∧ 9 ∈ s.facts.handledBy 3) ∧
      (s.graph.edge? 4 = some ⟨5, 10, .store⟩ ∧ 9 ∈ s.facts.handledBy 4) ∧ RecordsHold s := by
  have hcheck : selfProjecting.check = .ok () := by decide +kernel
  have hrun : (outcome? insensitive selfProjecting true .waveDiff).any (fun r => decide
      ((r.2.graph.Has ⟨7, 8, .copy⟩ ∧ 4 ∈ r.2.facts.sentBy 7 ∧
        ¬ r.2.facts.pointsTo 7 ⊆ r.2.facts.sentBy 7) ∧
      (r.2.graph.Has ⟨5, 6, .field 0⟩ ∧ 4 ∈ r.2.facts.sentBy 5) ∧
      (r.2.graph.edge? 3 = some ⟨10, 7, .load⟩ ∧ 9 ∈ r.2.facts.handledBy 3) ∧
      (r.2.graph.edge? 4 = some ⟨5, 10, .store⟩ ∧ 9 ∈ r.2.facts.handledBy 4))) = true := by
    decide +kernel
  obtain ⟨cg, s, hbuild, ⟨g, hok, hsolve⟩, hs⟩ := exists_outcome_of_any hrun
  obtain ⟨hcopy, hfield, hload, hstore⟩ := of_decide_eq_true hs
  obtain ⟨g', s', t, hok', hnone, hlast, hrecords, -⟩ :=
    recordsHold_after_requests built_selfProjecting hcheck hbuild [] .solve
  cases hok.symm.trans hok'
  cases hnone
  cases hsolve.symm.trans hlast
  exact ⟨cg, s, hbuild, ⟨g, hok, hsolve⟩, hcopy, hfield, hload, hstore, hrecords⟩

end results

end Solver

end PointerAnalysis
