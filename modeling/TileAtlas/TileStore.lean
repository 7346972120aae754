import TileAtlas.Coordinate

/-!
The tiles of one block, storey by storey. A storey takes up no room until a tile is first put on it,
and keeps its room from then on.
-/

namespace TileAtlas

/-- The tiles of one storey of a block, one place for each of its points. -/
abbrev Grid (τ : Type) := Vector (Option τ) 64

/-- The tiles of a block: a grid for each storey that has been used. -/
structure TileStore (τ : Type) where
  floors : Vector (Option (Grid τ)) floorCount
  deriving DecidableEq, Repr

namespace TileStore

variable {τ : Type}

def empty : TileStore τ := ⟨Vector.replicate floorCount none⟩

instance : EmptyCollection (TileStore τ) := ⟨empty⟩

instance : Inhabited (TileStore τ) := ⟨empty⟩

/-- The place of a point in the grids of its block: columns from west to east, each from north to
south. -/
def cell (x y : UInt16) : Fin 64 :=
  ⟨8 * (offset x).toNat + (offset y).toNat, by
    have hx := toNat_offset_lt x
    have hy := toNat_offset_lt y
    omega⟩

def grid? (s : TileStore τ) (floor : UInt8) : Option (Grid τ) :=
  if h : floor.toNat < floorCount then s.floors[floor.toNat] else none

/-- The tile at a point. Only the position of the point inside its block counts. -/
def get? (s : TileStore τ) (x y : UInt16) (floor : UInt8) : Option τ :=
  match s.grid? floor with
  | some grid => grid[cell x y]
  | none => none

def set (s : TileStore τ) (x y : UInt16) (floor : Fin floorCount) (tile : τ) : TileStore τ :=
  ⟨s.floors.set floor.val (some (((s.floors[floor]).getD (Vector.replicate 64 none)).set
    (cell x y).val (some tile)))⟩

/-- The store with nothing at a point. A storey that has no room, or that no block has, stays as
it is. -/
def clear (s : TileStore τ) (x y : UInt16) (floor : UInt8) : TileStore τ :=
  if h : floor.toNat < floorCount then
    ⟨s.floors.set floor.toNat (s.floors[floor.toNat].map fun grid => grid.set (cell x y).val none)⟩
  else s

/-- The number of storeys that take up room. -/
def usedFloors (s : TileStore τ) : Nat := s.floors.countP Option.isSome

def floorTiles : Option (Grid τ) → Nat
  | some grid => grid.countP Option.isSome
  | none => 0

def count (s : TileStore τ) : Nat :=
  s.floors.foldl (fun n floor => n + floorTiles floor) 0

end TileStore

end TileAtlas
