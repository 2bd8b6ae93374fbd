import PointerAnalysis.Proofs.Solver.Yields

/-!
Runs that are watched. A traced computation is a computation together with the states that it shows
on its way. The traced form of each part of a run does what that part does, and shows the state
after the start, after every node that was merged or visited, and after every round.
-/

namespace PointerAnalysis

namespace Solver

variable {C : Type} [Context C] {α β : Type}

/-- What a run has just done when it shows its state. -/
inductive Event where
  | seeded
  | merged
  | visited
  | rounded
deriving DecidableEq

/-- A computation, and the states that it shows when it starts from a given one. -/
structure Traced (C : Type) [Context C] (α : Type) where
  run : SolverM C α
  shown : Solver C → List (Event × Solver C)

namespace Traced

instance : Monad (Traced C) where
  pure a := ⟨pure a, fun _ => []⟩
  bind x f :=
    ⟨x.run >>= fun a => (f a).run, fun s => x.shown s ++
      match x.run s with
      | .ok a t => (f a).shown t
      | .error _ _ => []⟩

/-- A computation that shows nothing. -/
def quietly (m : SolverM C α) : Traced C α := ⟨m, fun _ => []⟩

/-- Shows the state. -/
def observe (event : Event) : Traced C Unit := ⟨pure (), fun s => [(event, s)]⟩

/-! ## The parts of a run -/

def mergeNode (sub rep : NodeId) (members : IdSet) : Traced C Unit := do
  quietly (Solver.mergeNode sub rep members)
  observe .merged

def mergeGroup (members : IdSet) : Traced C Unit :=
  match members.toList with
  | [] => pure ()
  | rep :: subs => subs.forM fun sub => mergeNode sub rep members

def mergeCycles : Traced C (List NodeId) := do
  quietly (count fun t => { t with cycleSearches := t.cycleSearches + 1 })
  let s ← quietly get
  let pairs ← quietly (orHalt s.graph.directPairs)
  let components ← quietly (orHalt (Components.find s.graph.liveNodes pairs))
  components.cycles.forM mergeGroup
  return components.order

def foldField (base field : NodeId) : Traced C Unit := do
  quietly do
    (← get).facts.pointersTo field |>.forM fun ptr => do
      if ← learn ptr {base} then modify fun s => { s with merged := true }
  let s ← quietly get
  let baseRep := s.graph.rep base
  let fieldRep := s.graph.rep field
  if fieldRep ≠ baseRep then
    mergeNode fieldRep baseRep (.ofList (s.graph.group baseRep ++ s.graph.group fieldRep))
    quietly (count fun t => { t with foldedFields := t.foldedFields + 1 })

def foldObject (mem : MemObjId) : Traced C Unit := do
  let bases ← quietly (do orHalt ((← get).graph.contexts.baseCopies mem))
  bases.forM fun base => do
    (← quietly get).graph.contexts.fieldsAt base |>.forM (foldField base)

def foldPending : Traced C Unit := do
  let objects := (← quietly get).pending
  quietly (modify fun s => { s with pending := ∅ })
  objects.toList.forM foldObject

def settle (n : NodeId) : Traced C NodeId := do
  let s ← quietly get
  if s.graph.isShifting n then
    quietly ((s.pointsTo n).toList.forM markFieldInsensitive)
    foldPending
    quietly (rep n)
  else return n

def visitDirect (n : NodeId) : Traced C Unit := do
  quietly countVisit
  let n ← settle n
  quietly do
    let s ← get
    if s.strategy = .waveDiff then
      let (facts, gained) := s.facts.send n
      set { s with facts }
      if gained then send n (facts.gainedBy n)
    else send n (s.pointsTo n)

def sweep (n : NodeId) : Traced C Unit := do
  let g := (← quietly get).graph
  if g.rep n = n ∧ g.isLive n then visitDirect n
  observe .visited

def serve (visit : NodeId → SolverM C Unit) (n : NodeId) : Traced C Unit := do
  let n ← quietly (rep n)
  if (← quietly get).graph.isLive n then
    let n ← settle n
    quietly (visit n)
    foldPending
  observe .visited

def drain (visit : NodeId → SolverM C Unit) : (fuel : Nat) → Traced C Unit
  | 0 => quietly (throw .outOfFuel)
  | fuel + 1 => do
    match (← quietly get).worklist.pop? with
    | none => return
    | some (n, worklist) =>
      quietly (modify fun s => { s with worklist })
      serve visit n
      drain visit fuel

def seed : Traced C Unit := do
  let s ← quietly get
  if s.initialized then return
  quietly do
    let whole := s.graph.contexts.memObjs.toList.filter (·.fieldInsensitive)
    set { s with
      initialized := true
      pending := s.pending ∪ IdSet.ofList (whole.map MemObject.id) }
    (s.graph.edgesOfClass .addr).forM processAddr
  foldPending
  observe .seeded

def round : Traced C Bool := do
  seed
  quietly (modify fun s => { s with copied := false, merged := false })
  quietly (count fun t => { t with rounds := t.rounds + 1 })
  let order ← mergeCycles
  if (← quietly get).strategy.isWave then
    order.forM sweep
    foldPending
    drain visitIndirect (← quietly get).fuel
  else
    quietly (order.forM schedule)
    drain visitFully (← quietly get).fuel
  foldPending
  observe .rounded
  let s ← quietly get
  return s.copied || s.merged

def rounds : (fuel : Nat) → Traced C Unit
  | 0 => quietly (throw .outOfFuel)
  | fuel + 1 => do if ← round then rounds fuel

def solve : Traced C Unit := do
  seed
  rounds (← quietly get).fuel

/-! ## What they do -/

@[simp] theorem run_pure (a : α) : (pure a : Traced C α).run = pure a := rfl

@[simp] theorem run_bind (x : Traced C α) (f : α → Traced C β) :
    (x >>= f).run = x.run >>= fun a => (f a).run := rfl

@[simp] theorem run_quietly (m : SolverM C α) : (quietly m).run = m := rfl

@[simp] theorem run_observe (event : Event) : (observe event : Traced C Unit).run = pure () := rfl

theorem shown_bind {x : Traced C α} {f : α → Traced C β} {s t : Solver C} {a : α}
    (h : x.run s = .ok a t) : (x >>= f).shown s = x.shown s ++ (f a).shown t := by
  change x.shown s ++ (match x.run s with | .ok a t => (f a).shown t | .error _ _ => []) = _
  rw [h]

theorem shown_bind_of_error {x : Traced C α} {f : α → Traced C β} {s t : Solver C} {e : Halt}
    (h : x.run s = .error e t) : (x >>= f).shown s = x.shown s := by
  change x.shown s ++ (match x.run s with | .ok a t => (f a).shown t | .error _ _ => []) = _
  rw [h, List.append_nil]

@[simp] theorem run_ite (p : Prop) [Decidable p] (x y : Traced C α) :
    (if p then x else y).run = if p then x.run else y.run := by
  split <;> rfl

@[simp] theorem run_forM (xs : List α) (f : α → Traced C PUnit) :
    (forM xs f).run = forM xs fun x => (f x).run := by
  induction xs with
  | nil => rfl
  | cons x xs ih => simp only [List.forM_cons, run_bind, ih]

@[simp] theorem run_mergeNode (sub rep : NodeId) (members : IdSet) :
    (mergeNode sub rep members : Traced C Unit).run = Solver.mergeNode sub rep members := by
  simp [mergeNode]

@[simp] theorem run_mergeGroup (members : IdSet) :
    (mergeGroup members : Traced C Unit).run = Solver.mergeGroup members := by
  unfold mergeGroup Solver.mergeGroup
  cases members.toList with
  | nil => rfl
  | cons rep subs => simp

@[simp] theorem run_mergeCycles : (mergeCycles : Traced C _).run = Solver.mergeCycles := by
  simp [mergeCycles, Solver.mergeCycles]

@[simp] theorem run_foldField (base field : NodeId) :
    (foldField base field : Traced C Unit).run = Solver.foldField base field := by
  simp [foldField, Solver.foldField]

@[simp] theorem run_foldObject (mem : MemObjId) :
    (foldObject mem : Traced C Unit).run = Solver.foldObject mem := by
  simp [foldObject, Solver.foldObject]

@[simp] theorem run_foldPending : (foldPending : Traced C Unit).run = Solver.foldPending := by
  simp [foldPending, Solver.foldPending]

@[simp] theorem run_settle (n : NodeId) : (settle n : Traced C NodeId).run = Solver.settle n := by
  simp [settle, Solver.settle]

@[simp] theorem run_visitDirect (n : NodeId) :
    (visitDirect n : Traced C Unit).run = Solver.visitDirect n := by
  simp [visitDirect, Solver.visitDirect]

@[simp] theorem run_sweep (n : NodeId) : (sweep n : Traced C Unit).run = Solver.sweep n := by
  simp [sweep, Solver.sweep]

@[simp] theorem run_serve (visit : NodeId → SolverM C Unit) (n : NodeId) :
    (serve visit n).run = Solver.serve visit n := by
  simp [serve, Solver.serve]

@[simp] theorem run_drain (visit : NodeId → SolverM C Unit) (fuel : Nat) :
    (drain visit fuel).run = Solver.drain visit fuel := by
  induction fuel with
  | zero => rfl
  | succ fuel ih =>
      rw [drain, Solver.drain, run_bind]
      refine congrArg (get >>= ·) (funext fun s => ?_)
      cases s.worklist.pop? with
      | none => rfl
      | some p => simp [ih]

@[simp] theorem run_seed : (seed : Traced C Unit).run = Solver.seed := by
  simp [seed, Solver.seed]

@[simp] theorem run_round : (round : Traced C Bool).run = Solver.round := by
  simp [round, Solver.round]

@[simp] theorem run_rounds (fuel : Nat) :
    (rounds fuel : Traced C Unit).run = Solver.rounds fuel := by
  induction fuel with
  | zero => rfl
  | succ fuel ih => simp [rounds, Solver.rounds, ih]

@[simp] theorem run_solve : (solve : Traced C Unit).run = Solver.solve := by
  simp [solve, Solver.solve]

end Traced

/-! ## Watched runs -/

/-- The computation succeeds, whatever it shows satisfies `I`, and `Q` holds of its result and of
the state it leaves. -/
def Exhibits (I : Solver C → Prop) (x : Traced C α) (s : Solver C) (Q : α → Solver C → Prop) :
    Prop :=
  (∀ v ∈ x.shown s, I v.2) ∧ Yields x.run s Q

variable {I : Solver C → Prop} {x : Traced C α} {s : Solver C} {Q : α → Solver C → Prop}

theorem Exhibits.mono {Q' : α → Solver C → Prop} (h : Exhibits I x s Q)
    (hQ : ∀ a t, Q a t → Q' a t) : Exhibits I x s Q' :=
  ⟨h.1, h.2.mono hQ⟩

theorem Exhibits.weaken {I' : Solver C → Prop} (h : Exhibits I x s Q) (hI : ∀ t, I t → I' t) :
    Exhibits I' x s Q :=
  ⟨fun v hv => hI v.2 (h.1 v hv), h.2⟩

@[simp] theorem exhibits_pure (a : α) : Exhibits I (pure a) s Q ↔ Q a s := by
  rw [Exhibits, Traced.run_pure, yields_pure]
  exact and_iff_right fun _ hv => nomatch hv

@[simp] theorem exhibits_quietly {m : SolverM C α} :
    Exhibits I (Traced.quietly m) s Q ↔ Yields m s Q :=
  and_iff_right fun _ hv => nomatch hv

@[simp] theorem exhibits_observe (event : Event) {Q : Unit → Solver C → Prop} :
    Exhibits I (Traced.observe event) s Q ↔ I s ∧ Q () s := by
  rw [Exhibits, Traced.run_observe, yields_pure]
  simp [Traced.observe]

theorem exhibits_bind {f : α → Traced C β} {Q : β → Solver C → Prop} :
    Exhibits I (x >>= f) s Q ↔ Exhibits I x s fun a t => Exhibits I (f a) t Q := by
  simp only [Exhibits, Traced.run_bind, yields_bind]
  constructor
  · rintro ⟨hI, a, t, hok, hf⟩
    rw [Traced.shown_bind hok] at hI
    exact ⟨fun v hv => hI v (List.mem_append_left _ hv), a, t, hok,
      fun v hv => hI v (List.mem_append_right _ hv), hf⟩
  · rintro ⟨hx, a, t, hok, hfI, hf⟩
    refine ⟨fun v hv => ?_, a, t, hok, hf⟩
    rw [Traced.shown_bind hok] at hv
    rcases List.mem_append.mp hv with hv | hv
    · exact hx v hv
    · exact hfI v hv

theorem Exhibits.bind {f : α → Traced C β} {Q' : β → Solver C → Prop} (h : Exhibits I x s Q)
    (hf : ∀ a t, Q a t → Exhibits I (f a) t Q') : Exhibits I (x >>= f) s Q' :=
  exhibits_bind.mpr (h.mono hf)

/-- A loop whose rounds keep a property. -/
theorem Exhibits.forM_of_keeps {P : Solver C → Prop} {f : α → Traced C PUnit} (hs : P s)
    (xs : List α) (h : ∀ x ∈ xs, ∀ t, P t → Exhibits I (f x) t fun _ u => P u) :
    Exhibits I (xs.forM f) s fun _ t => P t := by
  induction xs generalizing s with
  | nil => exact (exhibits_pure _).mpr hs
  | cons x xs ih =>
      change Exhibits I (f x >>= fun _ => xs.forM f) s _
      refine (h x List.mem_cons_self s hs).bind fun _ t ht => ?_
      exact ih ht fun y hy => h y (List.mem_cons_of_mem x hy)

end Solver

end PointerAnalysis
