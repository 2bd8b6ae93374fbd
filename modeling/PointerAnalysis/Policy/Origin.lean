import Std.Data.TreeMap
import PointerAnalysis.CallGraph
import PointerAnalysis.Context.Origin
import PointerAnalysis.Error
import PointerAnalysis.Policy.Basic

/-!
Origins. Every function belongs to the main program; each entry function opens an origin of its own,
to which everything it reaches belongs too. A call inside a shared origin stays there; one between
functions that share none joins all their copies.
-/

namespace PointerAnalysis

/-- Functions and the origins to which they belong. -/
abbrev Marking := Std.TreeMap FuncId IdSet

/-- The origins that a list of entry functions opens; the entry at position `i` opens origin
`i + 1`. -/
structure OriginPolicy where
  origins : Marking
  entries : List FuncId

namespace OriginPolicy

/-- The function of a name, which must exist. -/
def entry (g : CallGraph) (name : String) : Except AnalysisError FuncId :=
  match g.byName? name with
  | some f => .ok f
  | none => .error (.unknownEntry name)

/-- Lets a function belong to an origin besides those it is in already. -/
def join (origin : Nat) (origins : Marking) (f : FuncId) : Marking :=
  origins.insert f ((origins.getD f ∅).insert origin)

/-- Every function belongs to the main program. -/
def markMain (g : CallGraph) : Marking :=
  g.functionIds.toList.foldl (join Origin.mainProgram) ∅

/-- What the entry at a position reaches belongs to its origin. -/
def markReached (g : CallGraph) (origins : Marking) (e : FuncId × Nat) : Marking :=
  (g.reachable e.1).toList.foldl (join (e.2 + 1)) origins

/-- The entry at a position belongs to its own origin only. -/
def markEntry (origins : Marking) (e : FuncId × Nat) : Marking := origins.insert e.1 {e.2 + 1}

/-- Opens an origin for the name at a position. -/
def openOrigin (g : CallGraph) (p : OriginPolicy) (name : String × Nat) :
    Except AnalysisError OriginPolicy := do
  let e ← entry g name.1
  return { origins := markReached g p.origins (e, name.2), entries := p.entries ++ [e] }

/-- Opens an origin for each of the named functions. Those are taken out of all other origins once
all origins are open. -/
def ofEntries (g : CallGraph) (names : List String) : Except AnalysisError OriginPolicy := do
  let p ← names.zipIdx.foldlM (openOrigin g) { origins := markMain g, entries := [] }
  return { p with origins := p.entries.zipIdx.foldl markEntry p.origins }

/-- The origins of a function. -/
def originsOf (p : OriginPolicy) (f : FuncId) : IdSet := p.origins.getD f ∅

/-- The numbers of the origins in a list of contexts. -/
def numbers (ctxs : List Origin) : IdSet := .ofList (ctxs.filterMap (·.id))

/-- The origins that two lists of contexts share, ascending by number. -/
def shared (xs ys : List Origin) : List Origin :=
  (numbers xs ∩ numbers ys).toList.map Origin.ofNat

/-- A call or return joins the copies of its end points in each origin they share, in the order of
the origins, or all their copies if they share none. -/
def pairs (g : AssignmentGraph) (e : Edge) (srcs dsts : List Origin) :
    Except Fault (List (Origin × Origin)) := do
  unless (← entryAt g.nodes e.src).hasValue do return []
  unless (← entryAt g.nodes e.dst).hasValue do return []
  match shared srcs dsts with
  | [] => return allPairs srcs dsts
  | common => return samePairs common

theorem mem_numbers {ctxs : List Origin} {n : Nat} : n ∈ numbers ctxs ↔ Origin.ofNat n ∈ ctxs := by
  rw [numbers, IdSet.mem_ofList, List.mem_filterMap]
  constructor
  · rintro ⟨⟨id⟩, hmem, rfl⟩
    exact hmem
  · intro hmem
    exact ⟨_, hmem, rfl⟩

/-- The shared origins are the contexts of both lists other than having no origin. -/
theorem mem_shared {xs ys : List Origin} {c : Origin} :
    c ∈ shared xs ys ↔ c ∈ xs ∧ c ∈ ys ∧ c ≠ .absent := by
  obtain ⟨id⟩ := c
  cases id with
  | none => simp [shared, Origin.ofNat, Origin.absent]
  | some n =>
      have h : Origin.ofNat n ∈ shared xs ys ↔ n ∈ numbers xs ∩ numbers ys := by
        simp [shared, Origin.ofNat, IdSet.mem_def]
      rw [show (⟨some n⟩ : Origin) = Origin.ofNat n from rfl, h, IdSet.mem_inter, mem_numbers,
        mem_numbers]
      simp [Origin.ofNat, Origin.absent]

/-- The policy in its general form. -/
def policy (p : OriginPolicy) : ContextPolicy Origin where
  name := "origin"
  contexts f := (p.originsOf f).toList.map Origin.ofNat
  callPairs := pairs
  returnPairs := pairs

end OriginPolicy

end PointerAnalysis
