import Std.Data.TreeMap
import PointerAnalysis.IdSet
import PointerAnalysis.Ident

/-!
Points-to facts, together with the records that let a solver send only what is new: for each node
the objects it has gained since it last sent its set, and those it has sent; for each edge the
objects it has dealt with.
-/

namespace PointerAnalysis

/-- What is known at one moment of a solver's run. -/
structure Facts where
  /-- the points-to sets; a node without an entry points to nothing -/
  pts : Std.TreeMap NodeId IdSet := ∅
  /-- what a node had gained when it last sent its set -/
  gained : Std.TreeMap NodeId IdSet := ∅
  /-- what a node has sent -/
  sent : Std.TreeMap NodeId IdSet := ∅
  /-- the objects that a load or store edge has dealt with -/
  handled : Std.TreeMap EdgeId IdSet := ∅

namespace Facts

/-- The objects that a node points to. -/
def pointsTo (f : Facts) (n : NodeId) : IdSet := f.pts.getD n ∅

/-- What a node had gained when it last sent its set. -/
def gainedBy (f : Facts) (n : NodeId) : IdSet := f.gained.getD n ∅

/-- What a node has sent. -/
def sentBy (f : Facts) (n : NodeId) : IdSet := f.sent.getD n ∅

/-- The objects that an edge has dealt with. -/
def handledBy (f : Facts) (e : EdgeId) : IdSet := f.handled.getD e ∅

/-- Adds objects to a node's points-to set, and says whether the set grew. -/
def absorb (f : Facts) (n : NodeId) (objs : IdSet) : Facts × Bool :=
  let (set, grew) := (f.pointsTo n).absorb objs
  if grew then ({ f with pts := f.pts.insert n set }, true) else (f, false)

/-- Adds one object to a node's points-to set, and says whether it was new. -/
def add (f : Facts) (n : NodeId) (obj : NodeId) : Facts × Bool := f.absorb n {obj}

/-- Adds what `src` points to to the set of `dst`, and says whether that set grew. -/
def flow (f : Facts) (dst src : NodeId) : Facts × Bool := f.absorb dst (f.pointsTo src)

/-- Moves the points-to set of `sub` to `rep` and forgets what was recorded for `sub`; says whether
the set of `rep` grew. -/
def merge (f : Facts) (rep sub : NodeId) : Facts × Bool :=
  absorb
    { f with pts := f.pts.erase sub, gained := f.gained.erase sub, sent := f.sent.erase sub }
    rep (f.pointsTo sub)

/-- Lets `rep` count as sent only what `sub` has sent too, so that after merging it sends again
whatever either of them had not sent. -/
def restrictSent (f : Facts) (rep sub : NodeId) : Facts :=
  { f with sent := f.sent.modify rep (· ∩ f.sentBy sub) }

/-- Records the whole points-to set of a node as sent, and what of it was not so before as gained;
says whether anything was gained. -/
def send (f : Facts) (n : NodeId) : Facts × Bool :=
  let gained := f.pointsTo n \ f.sentBy n
  ({ f with gained := f.gained.insert n gained, sent := f.sent.insert n (f.pointsTo n) },
    !gained.isEmpty)

/-- The objects of a node that an edge has not dealt with yet; it counts as having done so now. -/
def handle (f : Facts) (e : EdgeId) (n : NodeId) : IdSet × Facts :=
  let fresh := f.pointsTo n \ f.handledBy e
  (fresh, { f with handled := f.handled.insert e (f.handledBy e ∪ fresh) })

/-- The nodes that point to an object, ascending. -/
def pointersTo (f : Facts) (obj : NodeId) : List NodeId :=
  (f.pts.toList.filter fun e => decide (obj ∈ e.2)).map (·.1)

/-- The number of nodes that point to anything. -/
def nodeCount (f : Facts) : Nat := f.pts.size

/-- The number of pairs of a node and an object it points to. -/
def factCount (f : Facts) : Nat := f.pts.toList.foldl (fun n e => n + e.2.size) 0

/-- The nodes that point to anything, ascending, with their points-to sets. -/
def snapshot (f : Facts) : List (NodeId × IdSet) := f.pts.toList.filter (!·.2.isEmpty)

end Facts

end PointerAnalysis
