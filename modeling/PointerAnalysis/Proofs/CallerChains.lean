import Mathlib.Tactic.Common
import PointerAnalysis.Policy.CallString
import PointerAnalysis.Proofs.CallGraph

/-!
Chains of callers. The chains that are listed for a function are exactly those that go on as long as
they may, in the order of a dictionary, whether or not functions call themselves. They can also be
had from the callers: a caller in front of one of its own chains, cut at the same depth, is a chain
of whom it calls, and there are no others.
-/

namespace PointerAnalysis

namespace Walk

/-- Adds chains to those that a walk has found, each behind the callers at which it stands. -/
def gather (w : Walk) (chains : List (List FuncId)) : Walk :=
  { w with
    found := chains.foldl (fun found chain => found.insert ⟨w.current.frames ++ chain⟩) w.found }

theorem collect_eq_gather (w : Walk) : w.collect = w.gather [[]] := by
  simp [gather, collect]

theorem gather_append (w : Walk) (chains chains' : List (List FuncId)) :
    w.gather (chains ++ chains') = (w.gather chains).gather chains' := by
  simp [gather]

/-- A chain above a caller that the walk goes to and comes back from has the caller in front. -/
theorem back_gather_climb (w : Walk) (c : FuncId) (chains : List (List FuncId)) :
    ((w.climb c).gather chains).back = w.gather (chains.map (c :: ·)) := by
  simp [gather, climb, back, CallString.push, CallString.pop, List.foldl_map]

theorem mem_found_gather {w : Walk} {chains : List (List FuncId)} {c : CallString} :
    c ∈ (w.gather chains).found ↔ (∃ chain ∈ chains, ⟨w.current.frames ++ chain⟩ = c) ∨
      c ∈ w.found := by
  rw [gather]
  generalize w.found = found
  induction chains generalizing found with
  | nil => simp
  | cons chain chains ih =>
      rw [List.foldl_cons, ih, Std.TreeSet.mem_insert, Std.LawfulEqCmp.compare_eq_iff_eq,
        List.exists_mem_cons_iff, or_assoc, or_left_comm]

end Walk

namespace CallGraph

variable {g : CallGraph} {k : Nat} {f : FuncId} {chain : List FuncId}

/-- A chain of callers of `f`, the most recent one first. It ends after `k` callers, or earlier with
a function that nobody calls. -/
structure IsCallerChain (g : CallGraph) (k : Nat) (f : FuncId) (chain : List FuncId) : Prop where
  calls : (f :: chain).IsChain fun callee caller => g.Calls caller callee
  length_le : chain.length ≤ k
  ends : chain.length = k ∨ ∀ caller, ¬ g.Calls caller (chain.getLastD f)

theorem isCallerChain_zero : g.IsCallerChain 0 f chain ↔ chain = [] := by
  constructor
  · intro h
    exact List.eq_nil_of_length_eq_zero (Nat.le_zero.mp h.length_le)
  · rintro rfl
    exact ⟨.singleton f, Nat.le_refl 0, .inl rfl⟩

theorem isCallerChain_nil : g.IsCallerChain (k + 1) f [] ↔ ∀ caller, ¬ g.Calls caller f := by
  constructor
  · intro h
    exact h.ends.resolve_left (Nat.succ_ne_zero k).symm
  · intro h
    exact ⟨.singleton f, Nat.zero_le _, .inr h⟩

theorem isCallerChain_cons {c : FuncId} :
    g.IsCallerChain (k + 1) f (c :: chain) ↔ g.Calls c f ∧ g.IsCallerChain k c chain := by
  constructor
  · intro ⟨hcalls, hlength, hends⟩
    rw [List.isChain_cons_cons] at hcalls
    rw [List.getLastD_cons, List.length_cons, Nat.add_right_cancel_iff] at hends
    exact ⟨hcalls.1, hcalls.2, Nat.le_of_succ_le_succ hlength, hends⟩
  · intro ⟨hcall, hcalls, hlength, hends⟩
    refine ⟨List.isChain_cons_cons.mpr ⟨hcall, hcalls⟩, Nat.succ_le_succ hlength, ?_⟩
    rwa [List.getLastD_cons, List.length_cons, Nat.add_right_cancel_iff]

/-! ## The chains of a function -/

/-- The chains of callers of a function up to depth `k`. Callers are taken in ascending order, so
the chains come out in ascending order and without repetition. -/
def callerChains (g : CallGraph) : (k : Nat) → FuncId → List (List FuncId)
  | 0, _ => [[]]
  | k + 1, f =>
    match (g.callers f).toList with
    | [] => [[]]
    | callers => callers.flatMap fun c => (g.callerChains k c).map (c :: ·)

/-- The chains of a function that is called consist of a caller and one of its chains. -/
theorem mem_callerChains_succ : chain ∈ g.callerChains (k + 1) f ↔
    (chain = [] ∧ ∀ caller, ¬ g.Calls caller f) ∨
      ∃ caller, g.Calls caller f ∧ ∃ rest ∈ g.callerChains k caller, chain = caller :: rest := by
  have hmem : ∀ caller, caller ∈ (g.callers f).toList ↔ g.Calls caller f := fun _ => mem_callers
  rw [callerChains]
  split
  · rename_i hnone
    simp only [hnone, List.not_mem_nil, false_iff] at hmem
    simp [hmem]
  · rename_i hsome
    obtain ⟨caller, hcaller⟩ := List.exists_mem_of_ne_nil _ hsome
    have hcalled : ¬ ∀ caller, ¬ g.Calls caller f := fun h => h caller ((hmem caller).mp hcaller)
    simp only [hcalled, and_false, false_or, List.mem_flatMap, List.mem_map, hmem, eq_comm]

/-- The chains that are listed are those that go on as long as they may. -/
theorem mem_callerChains : chain ∈ g.callerChains k f ↔ g.IsCallerChain k f chain := by
  induction k generalizing f chain with
  | zero => rw [isCallerChain_zero, callerChains, List.mem_singleton]
  | succ k ih =>
      rw [mem_callerChains_succ]
      cases chain with
      | nil => simp [isCallerChain_nil]
      | cons c chain => simp [isCallerChain_cons, ih]

theorem callerChains_ne_nil (g : CallGraph) (k : Nat) (f : FuncId) : g.callerChains k f ≠ [] := by
  induction k generalizing f with
  | zero => simp [callerChains]
  | succ k ih =>
      rw [callerChains]
      cases (g.callers f).toList with
      | nil => simp
      | cons c cs => simp [ih c]

/-- The chains are listed in the order of a dictionary, each once: those with the same first caller
stand together, and callers are taken in ascending order. -/
theorem pairwise_callerChains (g : CallGraph) (k : Nat) (f : FuncId) :
    (g.callerChains k f).Pairwise (List.Lex (· < ·)) := by
  induction k generalizing f with
  | zero => exact List.pairwise_singleton _ _
  | succ k ih =>
      rw [callerChains]
      split
      · exact List.pairwise_singleton _ _
      · rw [List.pairwise_flatMap]
        refine ⟨fun c _ => List.pairwise_map.mpr ((ih c).imp .cons),
          (g.callers f).ascending.imp fun {c d} hlt => ?_⟩
        intro chain hc chain' hd
        obtain ⟨_, -, rfl⟩ := List.mem_map.mp hc
        obtain ⟨_, -, rfl⟩ := List.mem_map.mp hd
        exact .rel hlt

theorem nodup_callerChains (g : CallGraph) (k : Nat) (f : FuncId) : (g.callerChains k f).Nodup := by
  refine (g.pairwise_callerChains k f).imp fun {chain chain'} hlt heq => ?_
  rw [heq] at hlt
  exact List.lex_irrefl Nat.lt_irrefl chain' hlt

/-! ## The walk to the callers -/

/-- A walk finds the chains of the function, and comes back to where it was. -/
theorem walk_eq_gather (g : CallGraph) (k : Nat) (f : FuncId) (w : Walk) :
    g.walk k f w = w.gather (g.callerChains k f) := by
  induction k generalizing f w with
  | zero => exact w.collect_eq_gather
  | succ k ih =>
      have hfold : ∀ (cs : List FuncId) (w : Walk),
          cs.foldl (fun w c => (g.walk k c (w.climb c)).back) w =
            w.gather (cs.flatMap fun c => (g.callerChains k c).map (c :: ·)) := by
        intro cs
        induction cs with
        | nil => exact fun _ => rfl
        | cons c cs ihcs =>
            intro w
            rw [List.foldl_cons, ihcs, ih, w.back_gather_climb, List.flatMap_cons, w.gather_append]
      have hempty : (g.callers f).isEmpty = (g.callers f).toList.isEmpty := by
        simp [IdSet.isEmpty, IdSet.toList]
      rw [walk, callerChains, hempty]
      cases (g.callers f).toList with
      | nil => exact w.collect_eq_gather
      | cons c cs => exact hfold (c :: cs) w

theorem compare_eq_lt_of_lex {xs ys : List FuncId} (h : List.Lex (· < ·) xs ys) :
    compare xs ys = .lt := by
  induction h with
  | nil => rfl
  | cons h ih => simpa [compare, List.compareLex, compareOfLessAndEq] using ih
  | rel h => simp [compare, List.compareLex, compareOfLessAndEq, h]

/-- The chains are listed as they stand in the set, so that the two lists are the same. -/
theorem callStrings_eq (g : CallGraph) (f : FuncId) (k : Nat) :
    g.callStrings f k = (g.callerChains k f).map CallString.mk := by
  have hlisted : ((g.callerChains k f).map CallString.mk).Pairwise (fun c d => compare c d = .lt) :=
    List.pairwise_map.mpr ((g.pairwise_callerChains k f).imp compare_eq_lt_of_lex)
  have hstored : (g.callStrings f k).Pairwise (fun c d => compare c d = .lt) :=
    Std.TreeSet.ordered_toList
  have hmem : ∀ c, c ∈ g.callStrings f k ↔ c ∈ (g.callerChains k f).map CallString.mk := by
    intro c
    rw [callStrings, Std.TreeSet.mem_toList, walk_eq_gather, Walk.mem_found_gather, List.mem_map]
    simp [CallString.empty]
  have hirrefl : ∀ c d : CallString, compare c d = .lt → c ≠ d := by
    rintro c _ h rfl
    simp at h
  have hperm : (g.callStrings f k).Perm ((g.callerChains k f).map CallString.mk) :=
    (List.perm_ext_iff_of_nodup (hstored.imp (hirrefl _ _)) (hlisted.imp (hirrefl _ _))).mpr hmem
  refine hperm.eq_of_pairwise (fun c d _ _ h h' => ?_) hstored hlisted
  cases (Std.OrientedCmp.gt_of_lt h).symm.trans h'

theorem mem_callStrings {c : CallString} :
    c ∈ g.callStrings f k ↔ c.frames ∈ g.callerChains k f := by
  rw [callStrings_eq, List.mem_map]
  constructor
  · rintro ⟨chain, hchain, rfl⟩
    exact hchain
  · intro hc
    exact ⟨c.frames, hc, rfl⟩

theorem callStrings_ne_nil (g : CallGraph) (f : FuncId) (k : Nat) : g.callStrings f k ≠ [] := by
  rw [callStrings_eq, ne_eq, List.map_eq_nil_iff]
  exact g.callerChains_ne_nil k f

/-- The call strings of a function are its chains of callers that go on as long as they may, in the
order of a dictionary. Every function has one. -/
theorem callStrings_exact (g : CallGraph) (f : FuncId) (k : Nat) :
    g.callStrings f k ≠ [] ∧
      (g.callStrings f k).Pairwise (fun c d => List.Lex (· < ·) c.frames d.frames) ∧
      ∀ c, c ∈ g.callStrings f k ↔ g.IsCallerChain k f c.frames := by
  refine ⟨g.callStrings_ne_nil f k, ?_, fun c => ?_⟩
  · rw [callStrings_eq]
    exact List.pairwise_map.mpr (g.pairwise_callerChains k f)
  · rw [mem_callStrings, mem_callerChains]

/-! ## Chains of different depths -/

/-- The chains of a function, cut one caller earlier, are its chains up to that depth. -/
theorem take_mem_callerChains (g : CallGraph) {k : Nat} {f : FuncId} {c : List FuncId}
    (h : c ∈ g.callerChains (k + 1) f) : c.take k ∈ g.callerChains k f := by
  induction k generalizing f c with
  | zero => simp [callerChains]
  | succ k ih =>
      rw [mem_callerChains_succ] at h ⊢
      rcases h with ⟨rfl, hnone⟩ | ⟨caller, hcall, rest, hrest, rfl⟩
      · exact .inl ⟨rfl, hnone⟩
      · exact .inr ⟨caller, hcall, rest.take k, ih hrest, rfl⟩

/-- Every chain comes from one that may be a caller longer. -/
theorem exists_take_eq (hchain : chain ∈ g.callerChains k f) :
    ∃ longer ∈ g.callerChains (k + 1) f, longer.take k = chain := by
  induction k generalizing f chain with
  | zero =>
      obtain rfl := List.mem_singleton.mp hchain
      obtain ⟨longer, hlonger⟩ := List.exists_mem_of_ne_nil _ (g.callerChains_ne_nil 1 f)
      exact ⟨longer, hlonger, List.take_zero⟩
  | succ k ih =>
      rw [mem_callerChains_succ] at hchain
      rcases hchain with ⟨rfl, hnone⟩ | ⟨caller, hcall, rest, hrest, rfl⟩
      · exact ⟨[], mem_callerChains_succ.mpr (.inl ⟨rfl, hnone⟩), List.take_nil⟩
      · obtain ⟨longer, hlonger, rfl⟩ := ih hrest
        exact ⟨caller :: longer,
          mem_callerChains_succ.mpr (.inr ⟨caller, hcall, longer, hlonger, rfl⟩),
          List.take_succ_cons⟩

theorem callerChains_of_not_called (g : CallGraph) (k : Nat) {f : FuncId}
    (hnone : ∀ caller, ¬ g.Calls caller f) : g.callerChains k f = [[]] := by
  cases k with
  | zero => rfl
  | succ k =>
      have hcallers : (g.callers f).toList = [] :=
        List.eq_nil_iff_forall_not_mem.mpr fun caller h => hnone caller (mem_callers.mp h)
      rw [callerChains, hcallers]

/-- Only a function that nobody calls has no other chain than the empty one, at any depth but zero.
-/
theorem callerChains_eq_of_succ (g : CallGraph) {k : Nat} {f : FuncId}
    (h : g.callerChains (k + 1) f = [[]]) : g.callerChains k f = [[]] := by
  have hnil : [] ∈ g.callerChains (k + 1) f := h ▸ List.mem_singleton_self []
  exact g.callerChains_of_not_called k (isCallerChain_nil.mp (mem_callerChains.mp hnil))

/-- Whoever is called has the chain of the caller with the caller in front, at any depth. -/
theorem cons_take_mem_callerChains {f h : FuncId} (hcall : g.Calls f h) {k : Nat} {c : List FuncId}
    (hc : c ∈ g.callerChains k f) : (f :: c).take k ∈ g.callerChains k h := by
  cases k with
  | zero => simp [callerChains]
  | succ k => exact mem_callerChains_succ.mpr (.inr ⟨f, hcall, _, g.take_mem_callerChains hc, rfl⟩)

/-- The chains of a function that is called are those of its callers, with the caller in front. -/
theorem mem_callerChains_iff_entered (hcalled : ∃ caller, g.Calls caller f) :
    chain ∈ g.callerChains k f ↔
      ∃ caller, g.Calls caller f ∧ ∃ c ∈ g.callerChains k caller, (caller :: c).take k = chain := by
  constructor
  · intro hchain
    cases k with
    | zero =>
        obtain ⟨caller, hcall⟩ := hcalled
        exact ⟨caller, hcall, [], List.mem_singleton_self [], (List.mem_singleton.mp hchain).symm⟩
    | succ k =>
        rcases mem_callerChains_succ.mp hchain with ⟨-, hnone⟩ | ⟨caller, hcall, rest, hrest, rfl⟩
        · obtain ⟨caller, hcall⟩ := hcalled
          exact absurd hcall (hnone caller)
        · obtain ⟨longer, hlonger, rfl⟩ := exists_take_eq hrest
          exact ⟨caller, hcall, longer, hlonger, List.take_succ_cons⟩
  · rintro ⟨caller, hcall, c, hc, rfl⟩
    exact cons_take_mem_callerChains hcall hc

end CallGraph

/-! ## Contexts -/

namespace CallStringPolicy

variable {calls : CallGraph} {k : Nat}

theorem contexts_eq {f : FuncId} (hf : calls.contains f) :
    contexts ⟨calls, k⟩ f = calls.callStrings f k :=
  if_pos hf

/-- A function that is not in the call graph has the empty context only, any other one its chains of
callers. -/
theorem callerContexts_eq (f : FuncId) : callerContexts ⟨calls, k⟩ f =
    if calls.contains f then calls.callStrings f k else [.empty] := by
  unfold callerContexts contexts
  split
  · rename_i h
    split at h
    · exact absurd h (calls.callStrings_ne_nil f k)
    · rename_i hcontains
      simp [hcontains]
  · rename_i h
    split at h
    · rename_i hcontains
      simp [hcontains]
    · exact absurd rfl h

theorem mem_transitions {f : FuncId} (hf : calls.contains f) {c d : CallString} :
    (c, d) ∈ transitions ⟨calls, k⟩ f ↔ c ∈ calls.callStrings f k ∧ c.enter f k = d := by
  rw [transitions, callerContexts_eq, if_pos hf]
  constructor
  · intro h
    obtain ⟨c, hc, heq⟩ := List.mem_map.mp h
    obtain ⟨rfl, rfl⟩ := Prod.mk.inj heq
    exact ⟨hc, rfl⟩
  · rintro ⟨hc, rfl⟩
    exact List.mem_map.mpr ⟨c, hc, rfl⟩

/-- The call strings of a function that is called are those that its callers enter it with. So a
call from any context of a caller leads to a context of the callee, and every context of the callee
is entered from one of a caller. -/
theorem callStrings_entered (hcalls : calls.Built) {callee : FuncId}
    (hcalled : ∃ caller, calls.Calls caller callee) (k : Nat) :
    (∀ d, d ∈ calls.callStrings callee k ↔
      ∃ caller, calls.Calls caller callee ∧ ∃ c ∈ calls.callStrings caller k,
      c.enter caller k = d) ∧
    (∀ caller, calls.Calls caller callee → ∀ c d, (c, d) ∈ transitions ⟨calls, k⟩ caller →
      c ∈ contexts ⟨calls, k⟩ caller ∧ d ∈ contexts ⟨calls, k⟩ callee) ∧
    ∀ d ∈ contexts ⟨calls, k⟩ callee, ∃ caller, calls.Calls caller callee ∧
      ∃ c ∈ contexts ⟨calls, k⟩ caller, (c, d) ∈ transitions ⟨calls, k⟩ caller := by
  have hentered : ∀ d, d ∈ calls.callStrings callee k ↔
      ∃ caller, calls.Calls caller callee ∧ ∃ c ∈ calls.callStrings caller k,
      c.enter caller k = d := by
    intro d
    rw [CallGraph.mem_callStrings, CallGraph.mem_callerChains_iff_entered hcalled]
    constructor
    · rintro ⟨caller, hcall, chain, hchain, heq⟩
      exact ⟨caller, hcall, ⟨chain⟩, CallGraph.mem_callStrings.mpr hchain,
        congrArg CallString.mk heq⟩
    · rintro ⟨caller, hcall, c, hc, rfl⟩
      exact ⟨caller, hcall, c.frames, CallGraph.mem_callStrings.mp hc, rfl⟩
  have hends := hcalls.wellFormed.ends
  refine ⟨hentered, fun caller hcall c d h => ?_, fun d hd => ?_⟩
  · obtain ⟨hcaller, hcallee⟩ := hends caller callee hcall
    obtain ⟨hc, hd⟩ := (mem_transitions hcaller).mp h
    rw [contexts_eq hcaller, contexts_eq hcallee]
    exact ⟨hc, (hentered d).mpr ⟨caller, hcall, c, hc, hd⟩⟩
  · obtain ⟨_, hcall⟩ := hcalled
    rw [contexts_eq (hends _ callee hcall).2] at hd
    obtain ⟨caller, hcall, c, hc, hd⟩ := (hentered d).mp hd
    have hcaller := (hends caller callee hcall).1
    exact ⟨caller, hcall, c, (contexts_eq hcaller).symm ▸ hc,
      (mem_transitions hcaller).mpr ⟨hc, hd⟩⟩

/-- A function that two others call, and that calls itself. -/
def recurring : CallGraph := ((CallGraph.empty.addCall 1 3 0).addCall 2 3 1).addCall 3 3 2

/-- Of the call strings of length two, those of one caller are entered from outside, the others from
the function itself. -/
theorem callStrings_entered_recurring :
    recurring.callStrings 3 2 = [⟨[1]⟩, ⟨[2]⟩, ⟨[3, 1]⟩, ⟨[3, 2]⟩, ⟨[3, 3]⟩] ∧
      (∀ d, d ∈ recurring.callStrings 3 2 ↔
        ∃ caller, recurring.Calls caller 3 ∧ ∃ c ∈ recurring.callStrings caller 2,
        c.enter caller 2 = d) ∧
      (∀ caller, recurring.Calls caller 3 → ∀ c d, (c, d) ∈ transitions ⟨recurring, 2⟩ caller →
        c ∈ contexts ⟨recurring, 2⟩ caller ∧ d ∈ contexts ⟨recurring, 2⟩ 3) ∧
      ∀ d ∈ contexts ⟨recurring, 2⟩ 3, ∃ caller, recurring.Calls caller 3 ∧
        ∃ c ∈ contexts ⟨recurring, 2⟩ caller, (c, d) ∈ transitions ⟨recurring, 2⟩ caller := by
  have hbuilt : recurring.Built :=
    ((CallGraph.Built.empty.addCall 1 3 0).addCall 2 3 1).addCall 3 3 2
  have hcalled : recurring.Calls 3 3 := ⟨_, List.mem_cons_self, rfl, rfl⟩
  exact ⟨by decide +kernel, callStrings_entered hbuilt ⟨3, hcalled⟩ 2⟩

end CallStringPolicy

end PointerAnalysis
