import PointerAnalysis.Policy.Origin
import PointerAnalysis.Proofs.CallGraph
import PointerAnalysis.Proofs.ContextGraph.Bijection

/-!
Calls between origins. A call or a return connects every copy in the caller, with one exception: if
an entry function is called by a function that it reaches itself and that is no entry, the two share
the origin that the entry opens, and the copies of the caller in other origins are left out.
-/

namespace PointerAnalysis

theorem forall₂_of_mapM {α β ε : Type} {f : α → Except ε β} {xs : List α} {ys : List β}
    (h : xs.mapM f = .ok ys) : List.Forall₂ (fun x y => f x = .ok y) xs ys := by
  induction xs generalizing ys with
  | nil =>
      cases h
      exact .nil
  | cons x xs ih =>
      rw [List.mapM_cons] at h
      obtain ⟨y, hy, h⟩ := bind_eq_ok h
      obtain ⟨ys', hys, h⟩ := bind_eq_ok h
      cases h
      exact .cons hy (ih hys)

namespace OriginPolicy

variable {calls : CallGraph} {q : OriginPolicy}

/-! ## Entries -/

/-- The function of a name is registered under it. -/
theorem mem_functions_of_entry {name : String} {f : FuncId} (h : entry calls name = .ok f) :
    (f, name) ∈ calls.functions := by
  unfold entry at h
  split at h
  · rename_i hname
    cases h
    obtain ⟨⟨f', name'⟩, hfound, rfl⟩ := Option.map_eq_some_iff.mp hname
    have heq : name' = name := by simpa using List.find?_some hfound
    exact heq ▸ List.mem_of_find?_eq_some hfound
  · cases h

/-! ## The passes of the marking -/

theorem mem_join {origin : Nat} {origins : Marking} {f f' : FuncId} {n : Nat} :
    n ∈ (join origin origins f).getD f' ∅ ↔ f' = f ∧ n = origin ∨ n ∈ origins.getD f' ∅ := by
  simp only [join, Std.TreeMap.getD_insert, Std.LawfulEqCmp.compare_eq_iff_eq]
  by_cases heq : f = f'
  · simp [heq]
  · simp [heq, Ne.symm heq]

theorem mem_foldl_join {origin : Nat} {fs : List FuncId} {origins : Marking} {f : FuncId}
    {n : Nat} :
    n ∈ (fs.foldl (join origin) origins).getD f ∅ ↔ f ∈ fs ∧ n = origin ∨ n ∈ origins.getD f ∅ := by
  induction fs generalizing origins with
  | nil => simp
  | cons f' fs ih =>
      rw [List.foldl_cons, ih, mem_join, List.mem_cons, or_and_right, or_assoc, or_left_comm]

theorem mem_markMain {f : FuncId} {n : Nat} :
    n ∈ (markMain calls).getD f ∅ ↔ calls.contains f ∧ n = Origin.mainProgram := by
  rw [markMain, mem_foldl_join, ← IdSet.mem_def, CallGraph.functionIds, IdSet.mem_ofList,
    ← CallGraph.contains_iff]
  simp

theorem mem_foldl_markReached {es : List (FuncId × Nat)} {origins : Marking} {f : FuncId}
    {n : Nat} : n ∈ (es.foldl (markReached calls) origins).getD f ∅ ↔
      (∃ e ∈ es, f ∈ calls.reachable e.1 ∧ n = e.2 + 1) ∨ n ∈ origins.getD f ∅ := by
  induction es generalizing origins with
  | nil => simp
  | cons e es ih =>
      rw [List.foldl_cons, ih, markReached, mem_foldl_join, ← IdSet.mem_def,
        List.exists_mem_cons_iff, or_assoc, or_left_comm]

/-- Of the entries that are the same function, the last one decides. -/
theorem getD_foldl_markEntry (es : List (FuncId × Nat)) (origins : Marking) (f : FuncId) :
    (es.foldl markEntry origins).getD f ∅ =
      (es.filter (·.1 = f)).getLast?.elim (origins.getD f ∅) fun e => {e.2 + 1} := by
  induction es using List.reverseRecOn with
  | nil => rfl
  | append_singleton es e ih =>
      simp only [List.foldl_concat, markEntry, Std.TreeMap.getD_insert,
        Std.LawfulEqCmp.compare_eq_iff_eq, ih, List.filter_append]
      by_cases hf : e.1 = f
      · simp [hf]
      · simp [hf]

/-- What the passes make of the entries. -/
def marked (calls : CallGraph) (entries : List FuncId) : OriginPolicy where
  origins :=
    entries.zipIdx.foldl markEntry (entries.zipIdx.foldl (markReached calls) (markMain calls))
  entries := entries

theorem foldlM_openOrigin (names : List String) (k : Nat) (q : OriginPolicy) :
    (names.zipIdx k).foldlM (openOrigin calls) q = do
      let entries ← names.mapM (entry calls)
      return ⟨(entries.zipIdx k).foldl (markReached calls) q.origins, q.entries ++ entries⟩ := by
  induction names generalizing k q with
  | nil => simp
  | cons name names ih =>
      rw [List.zipIdx_cons, List.foldlM_cons, List.mapM_cons, openOrigin]
      cases entry calls name with
      | error _ => rfl
      | ok e =>
          refine (ih (k + 1) _).trans ?_
          cases names.mapM (entry calls) with
          | error _ => rfl
          | ok es => simp [bind, Except.bind, pure, Except.pure]

/-- All names can be looked up before anything is marked. -/
theorem ofEntries_eq (names : List String) :
    ofEntries calls names = marked calls <$> names.mapM (entry calls) := by
  rw [ofEntries, foldlM_openOrigin]
  cases names.mapM (entry calls) <;> rfl

/-- The origin that a function opens; the last one if it is listed more than once. -/
def opened? (entries : List FuncId) (f : FuncId) : Option Nat :=
  (entries.zipIdx.filter (·.1 = f)).getLast?.map (·.2 + 1)

theorem originsOf_marked_of_opened? {entries : List FuncId} {f : FuncId} {n : Nat}
    (h : opened? entries f = some n) : (marked calls entries).originsOf f = {n} := by
  obtain ⟨e, he, rfl⟩ := Option.map_eq_some_iff.mp h
  rw [originsOf, marked, getD_foldl_markEntry, he]
  rfl

/-- A function that opens no origin is left in those it was marked with. -/
theorem mem_originsOf_marked {entries : List FuncId} {f : FuncId} {n : Nat}
    (h : opened? entries f = none) : n ∈ (marked calls entries).originsOf f ↔
      (∃ i e, entries[i]? = some e ∧ f ∈ calls.reachable e ∧ n = i + 1) ∨
        calls.contains f ∧ n = Origin.mainProgram := by
  rw [originsOf, marked, getD_foldl_markEntry, Option.map_eq_none_iff.mp h]
  simp only [Option.elim_none, mem_foldl_markReached, mem_markMain, Prod.exists,
    List.mem_zipIdx_iff_getElem?]
  rw [exists_comm]

/-- A policy is what the passes make of its entries, which are registered functions, each listed
once. -/
structure Opens (calls : CallGraph) (q : OriginPolicy) : Prop where
  marked : q = marked calls q.entries
  nodup : q.entries.Nodup
  contains : ∀ f ∈ q.entries, calls.contains f

/-- Different names are those of different functions. -/
theorem opens_of_ofEntries (hcalls : calls.WellFormed) {names : List String} (hnames : names.Nodup)
    (hok : ofEntries calls names = .ok q) : Opens calls q := by
  rw [ofEntries_eq] at hok
  obtain ⟨entries, hentries, hok⟩ := bind_eq_ok hok
  cases hok
  have hfound := forall₂_of_mapM hentries
  have hunique : Relator.BiUnique fun name f => entry calls name = .ok f := by
    constructor
    · intro name f name' h h'
      exact congrArg Prod.snd (List.inj_on_of_nodup_map hcalls.nodup (mem_functions_of_entry h)
        (mem_functions_of_entry h') rfl)
    · intro name f f' h h'
      exact Except.ok.inj (h.symm.trans h')
  refine ⟨rfl, (List.rel_nodup hunique hfound).mp hnames, fun f hf => ?_⟩
  obtain ⟨i, hi, rfl⟩ := List.getElem_of_mem hf
  have hentry := hfound.get (hfound.length_eq ▸ hi) hi
  exact CallGraph.contains_iff.mpr (List.mem_map.mpr ⟨_, mem_functions_of_entry hentry, rfl⟩)

/-! ## The origins of a function -/

/-- An entry function belongs to the origin it opens, any other function to the main program and to
the origins of the entries that reach it. -/
inductive Belongs (calls : CallGraph) (entries : List FuncId) (f : FuncId) : Nat → Prop where
  | opens {j : Nat} (hj : entries[j]? = some f) : Belongs calls entries f (j + 1)
  | main (hf : f ∉ entries) : Belongs calls entries f Origin.mainProgram
  | reached {j : Nat} {e : FuncId} (hf : f ∉ entries) (hj : entries[j]? = some e)
      (hreaches : calls.Reaches e f) : Belongs calls entries f (j + 1)

/-- An entry has one place in the list. -/
theorem place_unique {entries : List FuncId} (hnodup : entries.Nodup) {f : FuncId} {i j : Nat}
    (hi : entries[i]? = some f) (hj : entries[j]? = some f) : i = j :=
  (List.getElem?_inj (List.getElem?_eq_some_iff.mp hi).1 hnodup).mp (hi.trans hj.symm)

theorem belongs_entry_iff {entries : List FuncId} (hnodup : entries.Nodup) {f : FuncId} {j n : Nat}
    (hj : entries[j]? = some f) : Belongs calls entries f n ↔ n = j + 1 := by
  have hin := List.mem_of_getElem? hj
  constructor
  · intro h
    cases h with
    | opens hi => rw [place_unique hnodup hi hj]
    | main hout => exact absurd hin hout
    | reached hout => exact absurd hin hout
  · rintro rfl
    exact .opens hj

theorem opened?_eq_some_iff {entries : List FuncId} (hnodup : entries.Nodup) {f : FuncId}
    {n : Nat} : opened? entries f = some n ↔ ∃ j, entries[j]? = some f ∧ n = j + 1 := by
  have hmem : ∀ e j, (e, j) ∈ entries.zipIdx.filter (·.1 = f) ↔ entries[j]? = some f ∧ e = f := by
    intro e j
    rw [List.mem_filter, List.mem_zipIdx_iff_getElem?, decide_eq_true_eq]
    constructor
    · rintro ⟨hj, rfl⟩
      exact ⟨hj, rfl⟩
    · rintro ⟨hj, rfl⟩
      exact ⟨hj, rfl⟩
  rw [opened?, Option.map_eq_some_iff]
  constructor
  · rintro ⟨⟨e, j⟩, hlast, rfl⟩
    exact ⟨j, ((hmem e j).mp (List.mem_of_getLast? hlast)).1, rfl⟩
  · rintro ⟨j, hj, rfl⟩
    cases hlast : (entries.zipIdx.filter (·.1 = f)).getLast? with
    | none =>
        have hin := (hmem f j).mpr ⟨hj, rfl⟩
        rw [List.getLast?_eq_none_iff.mp hlast] at hin
        cases hin
    | some last =>
        obtain ⟨e, i⟩ := last
        obtain ⟨hi, -⟩ := (hmem e i).mp (List.mem_of_getLast? hlast)
        exact ⟨_, rfl, congrArg (· + 1) (place_unique hnodup hi hj)⟩

theorem opened?_eq_none_iff {entries : List FuncId} (hnodup : entries.Nodup) {f : FuncId} :
    opened? entries f = none ↔ f ∉ entries := by
  rw [Option.eq_none_iff_forall_ne_some, List.mem_iff_getElem?]
  constructor
  · rintro h ⟨j, hj⟩
    exact h (j + 1) ((opened?_eq_some_iff hnodup).mpr ⟨j, hj, rfl⟩)
  · intro h n hn
    obtain ⟨j, hj, -⟩ := (opened?_eq_some_iff hnodup).mp hn
    exact h ⟨j, hj⟩

theorem Opens.originsOf_entry (hq : Opens calls q) {i : Nat} {e : FuncId}
    (hi : q.entries[i]? = some e) : q.originsOf e = {i + 1} := by
  rw [hq.marked]
  exact originsOf_marked_of_opened? ((opened?_eq_some_iff hq.nodup).mpr ⟨i, hi, rfl⟩)

theorem Opens.mem_originsOf_other (hcalls : calls.WellFormed) (hq : Opens calls q) {f : FuncId}
    (hf : f ∉ q.entries) {n : Nat} : n ∈ q.originsOf f ↔
      (∃ i e, q.entries[i]? = some e ∧ calls.Reaches e f ∧ n = i + 1) ∨
        calls.contains f ∧ n = Origin.mainProgram := by
  have hreachable : ∀ (i : Nat) (e : FuncId), q.entries[i]? = some e →
      (f ∈ calls.reachable e ↔ calls.Reaches e f) := by
    intro i e hi
    rw [CallGraph.mem_reachable hcalls]
    exact and_iff_right (hq.contains e (List.mem_of_getElem? hi))
  rw [hq.marked, mem_originsOf_marked ((opened?_eq_none_iff hq.nodup).mpr hf)]
  refine or_congr_left (exists_congr fun i => exists_congr fun e => and_congr_right fun hi => ?_)
  rw [hreachable i e hi]

theorem mem_originsOf_iff (hcalls : calls.WellFormed) (hq : Opens calls q) {f : FuncId}
    (hf : calls.contains f) {n : Nat} : n ∈ q.originsOf f ↔ Belongs calls q.entries f n := by
  by_cases hentry : f ∈ q.entries
  · obtain ⟨j, hj⟩ := List.mem_iff_getElem?.mp hentry
    rw [hq.originsOf_entry hj, IdSet.mem_singleton, belongs_entry_iff hq.nodup hj]
  · rw [hq.mem_originsOf_other hcalls hentry]
    constructor
    · rintro (⟨j, e, hj, hreaches, rfl⟩ | ⟨-, rfl⟩)
      · exact .reached hentry hj hreaches
      · exact .main hentry
    · intro h
      cases h with
      | opens hj => exact absurd (List.mem_of_getElem? hj) hentry
      | main => exact .inr ⟨hf, rfl⟩
      | reached _ hj hreaches => exact .inl ⟨_, _, hj, hreaches, rfl⟩

/-! ## Which origins a call continues in -/

/-- The copies of a caller in an origin take part in a call: if an entry is called by a function
that it reaches itself and that is no entry, only those in the origin that the entry opens do. -/
def Continues (calls : CallGraph) (entries : List FuncId) (caller callee : FuncId) (origin : Nat) :
    Prop :=
  ∀ j, entries[j]? = some callee → caller ∉ entries → calls.Reaches callee caller → origin = j + 1

section calls

variable {entries : List FuncId} {caller callee : FuncId} {n : Nat}

/-- What reaches the caller reaches the callee. An origin of the caller is thus one of the callee,
unless the callee is an entry. -/
theorem Belongs.of_calls (hcall : calls.Calls caller callee) (hout : callee ∉ entries)
    (h : Belongs calls entries caller n) : Belongs calls entries callee n := by
  cases h with
  | opens hj => exact .reached hout hj (.single hcall)
  | main => exact .main hout
  | reached _ hj hreaches => exact .reached hout hj (hreaches.tail hcall)

/-- An origin of the caller is continued in if it is one of the callee as well, or if the two
share none. -/
theorem continues_iff (hnodup : entries.Nodup) (hcall : calls.Calls caller callee)
    (hn : Belongs calls entries caller n) :
    (Belongs calls entries callee n ∨
        ∀ m, Belongs calls entries caller m → ¬ Belongs calls entries callee m) ↔
      Continues calls entries caller callee n := by
  by_cases hentry : callee ∈ entries
  · obtain ⟨j, hj⟩ := List.mem_iff_getElem?.mp hentry
    simp only [belongs_entry_iff hnodup hj]
    constructor
    · rintro (rfl | hdisjoint) i hi hout hreaches
      · rw [place_unique hnodup hj hi]
      · exact absurd rfl (hdisjoint (j + 1) (.reached hout hj hreaches))
    · intro h
      by_cases hshared : Belongs calls entries caller (j + 1)
      · left
        cases hshared with
        | opens hi => exact (belongs_entry_iff hnodup hi).mp hn
        | @reached _ e hout hi hreaches =>
            cases hi.symm.trans hj
            exact h j hj hout hreaches
      · right
        rintro m hm rfl
        exact hshared hm
  · constructor
    · intro _ j hj
      exact absurd (List.mem_of_getElem? hj) hentry
    · intro _
      exact .inl (hn.of_calls hcall hentry)

theorem exists_belongs (calls : CallGraph) (entries : List FuncId) (f : FuncId) :
    ∃ n, Belongs calls entries f n := by
  by_cases hf : f ∈ entries
  · obtain ⟨j, hj⟩ := List.mem_iff_getElem?.mp hf
    exact ⟨j + 1, .opens hj⟩
  · exact ⟨_, .main hf⟩

end calls

/-! ## Pairs of contexts -/

/-- The pairs of contexts that a call or return joins, if both of its ends have a program value. -/
def joint (xs ys : List Origin) : List (Origin × Origin) :=
  match shared xs ys with
  | [] => allPairs xs ys
  | common => samePairs common

theorem pairs_eq {p : AssignmentGraph} {pe : Edge} {src dst : Node}
    (hsrc : p.nodes[pe.src]? = some src)
    (hdst : p.nodes[pe.dst]? = some dst) (hs : src.hasValue) (hd : dst.hasValue)
    (xs ys : List Origin) : pairs p pe xs ys = .ok (joint xs ys) := by
  simp only [pairs, entryAt_eq_ok hsrc, entryAt_eq_ok hdst, hs, hd, bind, Except.bind, pure,
    Except.pure, if_true, joint]
  cases shared xs ys <;> rfl

theorem mem_joint {xs ys : List Origin} {c d : Origin} : (c, d) ∈ joint xs ys ↔
    c ∈ xs ∧ d ∈ ys ∧ ((∀ x ∈ xs, x ∈ ys → x = .absent) ∨ c = d ∧ c ≠ .absent) := by
  unfold joint
  split
  · rename_i hnone
    have hdisjoint : ∀ x ∈ xs, x ∈ ys → x = .absent := by
      intro x hx hy
      by_contra hne
      have hmem := mem_shared.mpr ⟨hx, hy, hne⟩
      rw [hnone] at hmem
      cases hmem
    simp only [allPairs, List.mem_flatMap, List.mem_map, Prod.mk.injEq]
    constructor
    · rintro ⟨_, hc, _, hd, rfl, rfl⟩
      exact ⟨hc, hd, .inl hdisjoint⟩
    · rintro ⟨hc, hd, -⟩
      exact ⟨c, hc, d, hd, rfl, rfl⟩
  · rename_i hsome
    simp only [samePairs, List.mem_map, Prod.mk.injEq, mem_shared]
    constructor
    · rintro ⟨_, ⟨hx, hy, hne⟩, rfl, rfl⟩
      exact ⟨hx, hy, .inr ⟨rfl, hne⟩⟩
    · rintro ⟨hc, hd, hdisjoint | ⟨rfl, hne⟩⟩
      · obtain ⟨x, hx⟩ := List.exists_mem_of_ne_nil _ hsome
        obtain ⟨hx, hy, hne⟩ := mem_shared.mp hx
        exact absurd (hdisjoint x hx hy) hne
      · exact ⟨c, ⟨hc, hd, hne⟩, rfl, rfl⟩

theorem mem_joint_comm {xs ys : List Origin} {c d : Origin} :
    (c, d) ∈ joint xs ys ↔ (d, c) ∈ joint ys xs := by
  have hswap : ∀ xs ys c d, (c, d) ∈ joint xs ys → (d, c) ∈ joint ys xs := by
    intro xs ys c d h
    obtain ⟨hc, hd, h⟩ := mem_joint.mp h
    refine mem_joint.mpr ⟨hd, hc, ?_⟩
    rcases h with hdisjoint | ⟨rfl, hne⟩
    · exact .inl fun x hy hx => hdisjoint x hx hy
    · exact .inr ⟨rfl, hne⟩
  exact ⟨hswap xs ys c d, hswap ys xs d c⟩

/-- Whether a context takes part in a call depends on the numbers of the origins only. -/
theorem exists_mem_joint_iff {xs ys : List Origin} {A B : Nat → Prop}
    (hxs : ∀ c, c ∈ xs ↔ ∃ m, c = .ofNat m ∧ A m) (hys : ∀ c, c ∈ ys ↔ ∃ m, c = .ofNat m ∧ B m)
    (hB : ∃ m, B m) {n : Nat} (hn : A n) :
    (∃ d, (Origin.ofNat n, d) ∈ joint xs ys) ↔ B n ∨ ∀ m, A m → ¬ B m := by
  have hinj : ∀ {m m'}, Origin.ofNat m = Origin.ofNat m' → m = m' := fun h =>
    Option.some.inj (congrArg Origin.id h)
  constructor
  · rintro ⟨d, hd⟩
    obtain ⟨-, hd, hdisjoint | ⟨rfl, -⟩⟩ := mem_joint.mp hd
    · right
      intro m hA hB
      cases hdisjoint (.ofNat m) ((hxs _).mpr ⟨m, rfl, hA⟩) ((hys _).mpr ⟨m, rfl, hB⟩)
    · left
      obtain ⟨m, heq, hm⟩ := (hys _).mp hd
      exact hinj heq ▸ hm
  · intro h
    have hx := (hxs (.ofNat n)).mpr ⟨n, rfl, hn⟩
    rcases h with hBn | hdisjoint
    · exact ⟨.ofNat n,
        mem_joint.mpr ⟨hx, (hys _).mpr ⟨n, rfl, hBn⟩, .inr ⟨rfl, by simp [Origin.ofNat,
        Origin.absent]⟩⟩⟩
    · obtain ⟨m, hm⟩ := hB
      refine ⟨.ofNat m, mem_joint.mpr ⟨hx, (hys _).mpr ⟨m, rfl, hm⟩, .inl fun x hx hy => ?_⟩⟩
      obtain ⟨k, rfl, hA⟩ := (hxs x).mp hx
      obtain ⟨k', heq, hB⟩ := (hys _).mp hy
      exact absurd (hinj heq ▸ hB) (hdisjoint k hA)

/-! ## The graph -/

section graph

open ContextGraph

variable {p : AssignmentGraph} {fieldSensitive : Bool} {g : ContextGraph Origin}
  (hg : g.Unfolds q.policy p fieldSensitive)

include hg

/-- The contexts of a node of a registered function are the origins of the function. -/
theorem mem_contextsOf_iff_belongs (hcalls : calls.WellFormed) (hq : Opens calls q)
    (hcheck : p.check = .ok ()) {i : NodeId} {n : Node} (hn : p.nodes[i]? = some n) {f : FuncId}
    (hf : n.affinity = some f) (hcontains : calls.contains f) (c : Origin) :
    c ∈ g.contextsOf i ↔ ∃ m, c = .ofNat m ∧ Belongs calls q.entries f m := by
  have hcontexts : ∀ c, c ∈ q.policy.contexts f ↔ ∃ m, c = .ofNat m ∧
      Belongs calls q.entries f m := by
    intro c
    simp only [policy, List.mem_map, ← mem_originsOf_iff hcalls hq hcontains, IdSet.mem_def]
    constructor
    · rintro ⟨m, hm, rfl⟩
      exact ⟨m, rfl, hm⟩
    · rintro ⟨m, rfl, hm⟩
      exact ⟨m, hm, rfl⟩
  have hid : reservedCount ≤ n.id := by
    by_contra hlt
    rw [Node.affinity, AssignmentGraph.check_reserved hcheck hn (Nat.lt_of_not_le hlt)] at hf
    cases hf
  rw [hg.mem_contextsOf_iff_copiedIn hn, ← hcontexts]
  constructor
  · intro h
    cases h with
    | own _ hf' hctx =>
        cases hf.symm.trans hf'
        exact hctx
    | alone h =>
        obtain ⟨m, hm⟩ := exists_belongs calls q.entries f
        have hmem := (hcontexts _).mpr ⟨m, rfl, hm⟩
        rw [h f hid hf] at hmem
        cases hmem
  · exact .own hid hf

/-- An edge of a kind leads from one node to another. -/
def Linked (g : ContextGraph Origin) (kind : EdgeKind) (i j : NodeId) : Prop :=
  ∃ e ∈ g.edges, e.kind = kind ∧ e.src = i ∧ e.dst = j

/-- Two copies are joined by a call or return if their contexts are. -/
theorem linked_iff {pe : Edge} (hpe : pe ∈ p.edges) (hkind : pe.kind = .call ∨ pe.kind = .ret)
    {src dst : Node} (hsrc : p.nodes[pe.src]? = some src) (hdst : p.nodes[pe.dst]? = some dst)
    (hs : src.hasValue) (hd : dst.hasValue) {c d : Origin} {i j : NodeId}
    (hi : g.copyIn? pe.src c = some i) (hj : g.copyIn? pe.dst d = some j) :
    Linked g pe.kind i j ↔ (c, d) ∈ joint (g.contextsOf pe.src) (g.contextsOf pe.dst) := by
  have hpairs : ∀ pe' : Edge, pe'.kind = pe.kind → pe'.src = pe.src → pe'.dst = pe.dst →
      pairsFor q.policy p g pe' = .ok (joint (g.contextsOf pe.src) (g.contextsOf pe.dst)) := by
    intro pe' hkind' hsrc' hdst'
    rw [← hsrc'] at hsrc
    rw [← hdst'] at hdst
    rw [pairsFor, hkind', ← hsrc', ← hdst']
    rcases hkind with hkind | hkind <;> rw [hkind] <;> exact pairs_eq hsrc hdst hs hd _ _
  have hunique : ∀ {input input' : NodeId} {c c' : Origin} {i : NodeId},
      g.copyIn? input c = some i → g.copyIn? input' c' = some i → input = input' ∧ c = c' := by
    intro input input' c c' i h h'
    obtain ⟨node, hnode, hinput, rfl⟩ := (hg.copyIn?_iff _ _ _).mp h
    obtain ⟨node', hnode', hinput', rfl⟩ := (hg.copyIn?_iff _ _ _).mp h'
    cases hnode.symm.trans hnode'
    exact ⟨Option.some.inj (hinput.symm.trans hinput'), rfl⟩
  constructor
  · rintro ⟨e, he, hek, rfl, rfl⟩
    obtain ⟨pe', hpe', pairs', hok, ⟨c', d'⟩, hctxs, hjoins⟩ := hg.edge e he
    obtain ⟨hsrc', rfl⟩ := hunique hjoins.src hi
    obtain ⟨hdst', rfl⟩ := hunique hjoins.dst hj
    rw [hpairs pe' (hjoins.kind.symm.trans hek) hsrc' hdst'] at hok
    cases hok
    exact hctxs
  · intro hctxs
    obtain ⟨pairs', hok, hjoined⟩ := hg.joined pe hpe
    rw [hpairs pe rfl rfl rfl] at hok
    cases hok
    obtain ⟨e, he, hjoins⟩ := hjoined _ hctxs
    exact ⟨e, he, hjoins.kind, Option.some.inj (hjoins.src.symm.trans hi),
      Option.some.inj (hjoins.dst.symm.trans hj)⟩

/-- A copy on the caller's side takes part in a call or return if its origin continues in
the callee. -/
theorem exists_joined_iff_continues (hcalls : calls.WellFormed) (hq : Opens calls q)
    (hcheck : p.check = .ok ()) {caller callee : FuncId} (hcall : calls.Calls caller callee)
    {near far : NodeId} {inside outside : Node} (hnear : p.nodes[near]? = some inside)
    (hfar : p.nodes[far]? = some outside) (hlocal : inside.localTo = some caller)
    (haffinity : outside.affinity = some callee) {c : Origin} {i : NodeId}
    (hi : g.copyIn? near c = some i) :
    ∃ n, c = .ofNat n ∧ ((∃ d j, g.copyIn? far d = some j ∧
      (c, d) ∈ joint (g.contextsOf near) (g.contextsOf far)) ↔
      Continues calls q.entries caller callee n) := by
  obtain ⟨hcaller, hcallee⟩ := hcalls.ends caller callee hcall
  have hxs :=
    mem_contextsOf_iff_belongs hg hcalls hq hcheck hnear (Node.affinity_of_localTo hlocal) hcaller
  have hys := mem_contextsOf_iff_belongs hg hcalls hq hcheck hfar haffinity hcallee
  obtain ⟨n, rfl, hn⟩ := (hxs c).mp (mem_contextsOf_iff.mpr ⟨i, hi⟩)
  refine ⟨n, rfl, ?_⟩
  rw [← continues_iff hq.nodup hcall hn,
    ← exists_mem_joint_iff hxs hys (exists_belongs calls q.entries callee) hn]
  refine exists_congr fun d => ⟨fun ⟨_, _, hd⟩ => hd, fun hd => ?_⟩
  obtain ⟨j, hj⟩ := mem_contextsOf_iff.mp (mem_joint.mp hd).2.1
  exact ⟨j, hj, hd⟩

end graph

section results

open ContextGraph

variable {p : AssignmentGraph} {fieldSensitive : Bool} {g : ContextGraph Origin}
  {names : List String}

/-- Of a function that calls another, each copy of a value that is passed or received is joined
with a copy at the other end of the call or return, if its origin continues in the callee, and
else with none. -/
theorem linked_iff_continues (hcalls : calls.Built) (hnames : names.Nodup)
    (hentries : ofEntries calls names = .ok q) (hp : p.Built) (hcheck : p.check = .ok ())
    (hok : build q.policy p fieldSensitive = .ok g) {pe : Edge} (hpe : pe ∈ p.edges)
    {src dst : Node}
    (hsrc : p.nodes[pe.src]? = some src) (hdst : p.nodes[pe.dst]? = some dst)
    {caller callee : FuncId} (hcall : calls.Calls caller callee) :
    (pe.kind = .call → src.localTo = some caller → dst.affinity = some callee →
      ∀ c i, g.copyIn? pe.src c = some i → ∃ n, c = .ofNat n ∧
        ((∃ d j, g.copyIn? pe.dst d = some j ∧ Linked g .call i j) ↔
          Continues calls q.entries caller callee n)) ∧
    (pe.kind = .ret → src.affinity = some callee → dst.localTo = some caller →
      ∀ c i, g.copyIn? pe.dst c = some i → ∃ n, c = .ofNat n ∧
        ((∃ d j, g.copyIn? pe.src d = some j ∧ Linked g .ret j i) ↔
          Continues calls q.entries caller callee n)) := by
  have hwf := hcalls.wellFormed
  have hq := opens_of_ofEntries hwf hnames hentries
  have hg := build_unfolds hp.layout hok
  constructor
  · intro hkind hlocal haffinity c i hi
    obtain ⟨n, hc, hiff⟩ :=
      exists_joined_iff_continues hg hwf hq hcheck hcall hsrc hdst hlocal haffinity hi
    refine ⟨n, hc,
      .trans (exists_congr fun d => exists_congr fun j => and_congr_right fun hj => ?_) hiff⟩
    rw [← hkind]
    exact linked_iff hg hpe (.inl hkind) hsrc hdst (Node.hasValue_of_localTo hlocal)
      (Node.hasValue_of_affinity haffinity) hi hj
  · intro hkind haffinity hlocal c i hi
    obtain ⟨n, hc, hiff⟩ :=
      exists_joined_iff_continues hg hwf hq hcheck hcall hdst hsrc hlocal haffinity hi
    refine ⟨n, hc,
      .trans (exists_congr fun d => exists_congr fun j => and_congr_right fun hj => ?_) hiff⟩
    rw [← hkind, mem_joint_comm]
    exact linked_iff hg hpe (.inr hkind) hsrc hdst (Node.hasValue_of_affinity haffinity)
      (Node.hasValue_of_localTo hlocal) hj hi

/-- `main() { helper() }  worker(u) { helper(); return u }  helper() { r = worker(p) }`,
with the functions 0, 1 and 2, the nodes 4 and 5 for `p` and `u`, 6 for what `worker`
returns, and 7 for `r`. -/
def relaying : AssignmentGraph :=
  let g := (AssignmentGraph.empty.addValue (.instruction 2)).2
  let g := (g.addValue (.argument 1)).2
  let g := (g.addReturned 1).2
  let g := (g.addValue (.instruction 2)).2
  let g := (g.addSiteEdge .call 4 5 2).2
  (g.addSiteEdge .ret 6 7 2).2

theorem built_relaying : relaying.Built :=
  have h := (AssignmentGraph.Built.empty.addValue (.instruction 2)).addValue (.argument 1)
  have h := (h.addReturned 1).addValue (.instruction 2)
  (h.pushEdge .call 4 5 0 (some 2)).pushEdge .ret 6 7 0 (some 2)

/-- Who calls whom in `relaying`. -/
def relayingCalls : CallGraph :=
  let g := ((CallGraph.empty.addFunction 0 "main").addFunction 1 "worker").addFunction 2 "helper"
  ((g.addCall 0 2 0).addCall 1 2 1).addCall 2 1 2

theorem built_relayingCalls : relayingCalls.Built :=
  have h := (CallGraph.Built.empty.addFunction 0 "main").addFunction 1 "worker"
  (((h.addFunction 2 "helper").addCall 0 2 0).addCall 1 2 1).addCall 2 1 2

theorem exists_origins_of_any {P : OriginPolicy → ContextGraph Origin → Bool}
    (h : (ofEntries calls names).toOption.any
      (fun q => (build q.policy p fieldSensitive).toOption.any (P q)) = true) :
    ∃ q g, ofEntries calls names = .ok q ∧ build q.policy p fieldSensitive = .ok g ∧
      P q g = true := by
  obtain ⟨q, hq, h⟩ := exists_ok_of_any h
  obtain ⟨g, hok, hg⟩ := exists_ok_of_any h
  exact ⟨q, g, hq, hok, hg⟩

/-- The helper's copy of `p` in the origin of the worker is passed on, and so is what the worker
returns to the copy of `r` there. -/
theorem linked_iff_continues_relaying :
    ∃ q g, ofEntries relayingCalls ["worker"] = .ok q ∧ build q.policy relaying true = .ok g ∧
      (g.copyIn? 4 (.ofNat 1) = some 5 ∧ ∃ d j, g.copyIn? 5 d = some j ∧ Linked g .call 5 j) ∧
      g.copyIn? 7 (.ofNat 1) = some 9 ∧ ∃ d j, g.copyIn? 6 d = some j ∧ Linked g .ret j 9 := by
  have hcheck : relaying.check = .ok () := by decide +kernel
  have hrun : (ofEntries relayingCalls ["worker"]).toOption.any (fun q =>
      (build q.policy relaying true).toOption.any fun g =>
        decide (q.entries = [1] ∧ g.copyIn? 4 (.ofNat 1) = some 5 ∧
          g.copyIn? 7 (.ofNat 1) = some 9)) =
      true := by
    decide +kernel
  obtain ⟨q, g, hq, hok, hg⟩ := exists_origins_of_any hrun
  obtain ⟨hentries, hcopy, hcopy'⟩ := of_decide_eq_true hg
  have hcall : relayingCalls.Calls 2 1 := ⟨_, List.mem_cons_self, rfl, rfl⟩
  have hcontinues : Continues relayingCalls q.entries 2 1 1 := by
    intro j hj _ _
    rw [hentries] at hj
    cases j with
    | zero => rfl
    | succ j => simp at hj
  have hpassed : (⟨0, .call, 4, 5, 0, some 2⟩ : Edge) ∈ relaying.edges := by decide +kernel
  have hreturned : (⟨1, .ret, 6, 7, 0, some 2⟩ : Edge) ∈ relaying.edges := by decide +kernel
  obtain ⟨n, hn, hlinked⟩ := (linked_iff_continues built_relayingCalls (List.nodup_singleton _) hq
    built_relaying hcheck hok hpassed rfl rfl hcall).1 rfl rfl rfl _ _ hcopy
  obtain ⟨m, hm, hlinked'⟩ := (linked_iff_continues built_relayingCalls (List.nodup_singleton _) hq
    built_relaying hcheck hok hreturned rfl rfl hcall).2 rfl rfl rfl _ _ hcopy'
  cases hn
  cases hm
  exact ⟨q, g, hq, hok, ⟨hcopy, hlinked.mpr hcontinues⟩, hcopy', hlinked'.mpr hcontinues⟩

/-- The helper's copies in the main program are left out: nothing passes `p` on from there, and
nothing is returned to `r`. -/
theorem not_linked_relaying :
    ∃ q g, relayingCalls.Built ∧ relaying.Built ∧ relaying.check = .ok () ∧
      ofEntries relayingCalls ["worker"] = .ok q ∧ build q.policy relaying true = .ok g ∧
      relayingCalls.Calls 2 1 ∧
      (relaying.nodes.map fun n => (n.localTo, n.affinity)).toList.drop 4 =
        [(some 2, some 2), (some 1, some 1), (none, some 1), (some 2, some 2)] ∧
      relaying.edges.toList.map (fun e => (e.kind, e.src, e.dst)) = [(.call, 4, 5), (.ret, 6, 7)] ∧
      g.copyIn? 4 (.ofNat Origin.mainProgram) = some 4 ∧
      (∀ e ∈ g.edges, e.kind = .call → e.src ≠ 4) ∧
      g.copyIn? 7 (.ofNat Origin.mainProgram) = some 8 ∧ ∀ e ∈ g.edges, e.kind = .ret →
      e.dst ≠ 8 := by
  have hrun : (ofEntries relayingCalls ["worker"]).toOption.any (fun q =>
      (build q.policy relaying true).toOption.any fun g =>
        decide (g.copyIn? 4 (.ofNat Origin.mainProgram) = some 4 ∧
          (∀ e ∈ g.edges, e.kind = .call → e.src ≠ 4) ∧
          g.copyIn? 7 (.ofNat Origin.mainProgram) = some 8 ∧
          ∀ e ∈ g.edges, e.kind = .ret → e.dst ≠ 8)) = true := by
    decide +kernel
  obtain ⟨q, g, hq, hok, hg⟩ := exists_origins_of_any hrun
  exact ⟨q, g, built_relayingCalls, built_relaying, by decide +kernel, hq, hok,
    ⟨_, List.mem_cons_self, rfl, rfl⟩, by decide +kernel, by decide +kernel, of_decide_eq_true hg⟩

end results

end OriginPolicy

end PointerAnalysis
