import TileAtlas.Atlas.History
import TileAtlas.Atlas.View
import TileAtlas.Scenario.Filter

/-!
Queries: questions about the atlases of a scenario, and the answers to them.

A scenario works on three atlases side by side. Most questions concern one of them; the question
about a leaf takes the leaf's name from a second one, where it may name another leaf or none.
-/

namespace TileAtlas

structure Session (order : HandleOrder) where
  atlases : Vector (Atlas UInt32 (Handle order)) 3 := Vector.replicate 3 ∅

inductive Query where
  | tile (place : Location)
  | find (area : Area) (filter : Filter)
  /-- As `find`, but for some kinds only, and with the number of creatures offered. -/
  | search (area : Area) (kinds : KindSet) (filter : Filter)
  | offered (area : Area) (kinds : KindSet)
  | visited (area : Area)
  | leafAt (x y : UInt16)
  /-- The leaf whose name is that of the leaf at a point of another atlas. -/
  | leaf (x y : UInt16) (source : Nat)
  /-- What the leaf at a point says of the tile at a place, which may lie in another block. -/
  | leafTile (x y : UInt16) (place : Location)
  | members (x y : UInt16) (kinds : KindSet)
  | leaves
  | links
  | counts
  | text
  | leafText (x y : UInt16)
  | viewText (area : Area) (kinds : KindSet)
  deriving DecidableEq, Repr

inductive Answer (order : HandleOrder) where
  | placed (result : Except Refusal LeafId)
  | tile (tile : Option UInt32)
  | truth (b : Bool)
  /-- Whether a creature is now in the block it moved from, and in the block it moved to. -/
  | moved (atSource atTarget : Bool)
  | creatures (found : List (Handle order))
  | search (area : Area) (offered : Nat) (found : List (Handle order))
  | visited (leaves : List (LeafId × Leaf UInt32 (Handle order)))
  | leafName (id : LeafId)
  | leaf (id : LeafId) (leaf : Leaf UInt32 (Handle order))
  | leafTile (tile : Option UInt32)
  | leaves (leaves : List (LeafId × Leaf UInt32 (Handle order)))
  /-- Leaves with the leaves to their south and east. -/
  | links (links : List (LeafId × Option LeafId × Option LeafId))
  | counts (counts : Counts)
  | text (s : String)
  | number (n : Nat)
  | done
  /-- The block in question has no leaf. -/
  | noLeaf
  /-- The name of a leaf means nothing to this atlas. -/
  | foreignLeaf
  | noAtlas

namespace Atlas

variable {order : HandleOrder}

def ofLeafAt (a : Atlas UInt32 (Handle order)) (x y : UInt16)
    (f : LeafId → Leaf UInt32 (Handle order) → Answer order) : Except Fault (Answer order) := do
  match ← a.leafAt? x y with
  | some id => return f id (← a.tree.leaf id)
  | none => return .noLeaf

def isMember (a : Atlas UInt32 (Handle order)) (p : Location) (c : Handle order) :
    Except Fault Bool := do
  match ← a.leafAt? p.x p.y with
  | some id => return c ∈ (← a.tree.leaf id).roster.creatures
  | none => return false

end Atlas

namespace Session

variable {order : HandleOrder}

def answer (s : Session order) (a : Atlas UInt32 (Handle order)) :
    Query → Except Fault (Answer order)
  | .tile p => return .tile (← a.tile? p)
  | .find area filter => do
    return .creatures ((← a.find area (filter.ask area)).run 0).1
  | .search area kinds filter => do
    let view := { a.view area with kinds }
    let (found, offered) := (← view.collect (filter.ask area)).run 0
    return .search view.area offered found
  | .offered area kinds => return .creatures (← { a.view area with kinds }.offered)
  | .visited area => return .visited (← (a.view area).leaves)
  | .leafAt x y => a.ofLeafAt x y fun id _ => .leafName id
  | .leaf x y source => do
    let some other := s.atlases[source]? | return .noAtlas
    let some id ← other.leafAt? x y | return .noLeaf
    match a.leaf? id with
    | some leaf => return .leaf id leaf
    | none => return .foreignLeaf
  | .leafTile x y p => a.ofLeafAt x y fun _ leaf => .leafTile (leaf.tiles.get? p.x p.y p.floor)
  | .members x y kinds => a.ofLeafAt x y fun _ leaf => .creatures (leaf.roster.members kinds)
  | .leaves => return .leaves a.leaves
  | .links => return .links (a.leaves.map fun (id, leaf) => (id, leaf.south, leaf.east))
  | .counts => return .counts a.counts
  | .text => return .text a.text
  | .leafText x y => a.ofLeafAt x y fun _ leaf => .text leaf.text
  | .viewText area kinds => return .text { a.view area with kinds }.text

end Session

end TileAtlas
