import TileAtlas.Coordinate
import TileAtlas.Text.Record

/-!
Locations: a point of the map together with a storey. They are ordered by `x`, then `y`, then
storey.
-/

namespace TileAtlas

/-- A point of the map and a storey. `x` grows to the east and `y` to the south. -/
structure Location where
  x : UInt16 := 0
  y : UInt16 := 0
  floor : UInt8 := 0
  deriving DecidableEq, Ord, Repr, Inhabited

namespace Location

/-- Two locations share a block when they lie in the same square, on whatever storeys. -/
def SameBlock (a b : Location) : Prop :=
  blockStart a.x = blockStart b.x ∧ blockStart a.y = blockStart b.y

instance (a b : Location) : Decidable (a.SameBlock b) :=
  inferInstanceAs (Decidable (_ ∧ _))

def text (p : Location) : String :=
  Text.record "Location"
    [("x", toString p.x.toNat), ("y", toString p.y.toNat), ("floor", toString p.floor.toNat)]

end Location

end TileAtlas
