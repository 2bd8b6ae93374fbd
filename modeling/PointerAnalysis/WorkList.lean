import PointerAnalysis.Ident

/-!
Worklists: queues of nodes still to be visited. A node waits at most once, and nodes leave in the
order in which they came.
-/

namespace PointerAnalysis

/-- A first-in first-out queue; `back` holds the latest arrivals, the last one first. -/
structure WorkList where
  front : List NodeId
  back : List NodeId

namespace WorkList

instance : EmptyCollection WorkList := ⟨⟨[], []⟩⟩

/-- The waiting nodes, the next one first. -/
def toList (w : WorkList) : List NodeId := w.front ++ w.back.reverse

/-- Whether a node is waiting. -/
def contains (w : WorkList) (n : NodeId) : Bool := w.front.contains n || w.back.contains n

/-- The number of waiting nodes. -/
def size (w : WorkList) : Nat := w.front.length + w.back.length

/-- Whether no node is waiting. -/
def isEmpty (w : WorkList) : Bool := w.front.isEmpty && w.back.isEmpty

/-- Lets a node wait, unless it does so already; also says whether it was let in. -/
def offer (w : WorkList) (n : NodeId) : WorkList × Bool :=
  if w.contains n then (w, false) else ({ w with back := n :: w.back }, true)

/-- Lets a node wait, unless it does so already. -/
def push (w : WorkList) (n : NodeId) : WorkList := (w.offer n).1

/-- The node that waited longest, and the queue without it. -/
def pop? (w : WorkList) : Option (NodeId × WorkList) :=
  match w.front with
  | n :: front => some (n, { w with front })
  | [] =>
    match w.back.reverse with
    | n :: front => some (n, { front, back := [] })
    | [] => none

@[simp] theorem toList_empty : (∅ : WorkList).toList = [] := rfl

theorem contains_iff {w : WorkList} {n : NodeId} : w.contains n = true ↔ n ∈ w.toList := by
  simp [contains, toList]

theorem toList_push (w : WorkList) (n : NodeId) :
    (w.push n).toList = if n ∈ w.toList then w.toList else w.toList ++ [n] := by
  simp only [push, offer, ← contains_iff]
  split
  · rfl
  · simp [toList]

theorem pop?_eq_none_iff {w : WorkList} : w.pop? = none ↔ w.toList = [] := by
  obtain ⟨front, back⟩ := w
  cases front with
  | nil => cases h : back.reverse <;> simp [pop?, toList, h]
  | cons n front => simp [pop?, toList]

theorem toList_of_pop? {w w' : WorkList} {n : NodeId} (h : w.pop? = some (n, w')) :
    w.toList = n :: w'.toList := by
  obtain ⟨front, back⟩ := w
  cases front with
  | nil =>
      cases hb : back.reverse with
      | nil => simp [pop?, hb] at h
      | cons m rest =>
          simp only [pop?, hb, Option.some.injEq, Prod.mk.injEq] at h
          obtain ⟨rfl, rfl⟩ := h
          simp [toList, hb]
  | cons m front =>
      simp only [pop?, Option.some.injEq, Prod.mk.injEq] at h
      obtain ⟨rfl, rfl⟩ := h
      simp [toList]

end WorkList

end PointerAnalysis
