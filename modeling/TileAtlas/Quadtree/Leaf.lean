import TileAtlas.Quadtree.Id
import TileAtlas.Roster
import TileAtlas.Text.Record
import TileAtlas.TileStore

/-!
Leaves: what is kept of one block of the map. A leaf knows where its block starts, the tiles on it,
the creatures in it, and the leaves of the blocks to its south and east where there are any.
-/

namespace TileAtlas

structure Leaf (τ κ : Type) where
  /-- The western column of the block. -/
  x : UInt16
  /-- The northern row of the block. -/
  y : UInt16
  tiles : TileStore τ := ∅
  roster : Roster κ := {}
  south : Option LeafId := none
  east : Option LeafId := none
  deriving DecidableEq, Repr

namespace Leaf

variable {τ κ : Type}

/-- The fresh leaf of the block that a point lies in. -/
def ofPoint (x y : UInt16) : Leaf τ κ := { x := blockStart x, y := blockStart y }

def putTile (l : Leaf τ κ) (x y : UInt16) (floor : Fin floorCount) (tile : τ) : Leaf τ κ :=
  { l with tiles := l.tiles.set x y floor tile }

def clearTile (l : Leaf τ κ) (x y : UInt16) (floor : UInt8) : Leaf τ κ :=
  { l with tiles := l.tiles.clear x y floor }

def setRoster (l : Leaf τ κ) (r : Roster κ) : Leaf τ κ := { l with roster := r }

def setSouth (l : Leaf τ κ) (id : Option LeafId) : Leaf τ κ := { l with south := id }

def setEast (l : Leaf τ κ) (id : Option LeafId) : Leaf τ κ := { l with east := id }

def text (l : Leaf τ κ) : String :=
  Text.openRecord "Leaf"
    [("origin", Text.pair (toString l.x.toNat) (toString l.y.toNat)),
      ("floors_allocated", toString l.tiles.usedFloors),
      ("creatures", toString l.roster.creatures.size),
      ("south", link l.south), ("east", link l.east)]
where
  link (id : Option LeafId) : String :=
    Text.optional (id.map fun id => Text.wrapped "LeafId" (toString id.index))

end Leaf

end TileAtlas
