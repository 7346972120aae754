import TileAtlas.Location
import TileAtlas.Quadtree.Basic

/-!
Atlases: the tiles and creatures of a whole map, and what can be read from them.
-/

namespace TileAtlas

/-- The tiles and creatures of a map, with the number of memberships kept alongside. -/
structure Atlas (τ κ : Type) where
  tree : Quadtree τ κ := ∅
  members : Nat := 0
  deriving DecidableEq, Repr, Inhabited

structure Counts where
  branches : Nat := 0
  leaves : Nat := 0
  tiles : Nat := 0
  creatures : Nat := 0
  deriving DecidableEq, Repr, Inhabited

def Counts.text (c : Counts) : String :=
  Text.record "IndexStats"
    [("branches", toString c.branches), ("leaves", toString c.leaves),
      ("tiles", toString c.tiles), ("creatures", toString c.creatures)]

namespace Atlas

variable {τ κ : Type}

instance : EmptyCollection (Atlas τ κ) := ⟨{}⟩

def tile? (a : Atlas τ κ) (p : Location) : Except Fault (Option τ) := do
  match ← a.tree.locate p.x p.y with
  | some id => return (← a.tree.leaf id).tiles.get? p.x p.y p.floor
  | none => return none

def leafAt? (a : Atlas τ κ) (x y : UInt16) : Except Fault (Option LeafId) := a.tree.locate x y

/-- The leaf with a given name, which may come from another atlas. -/
def leaf? (a : Atlas τ κ) (id : LeafId) : Option (Leaf τ κ) := a.tree.leaves[id.index]?

def leaves (a : Atlas τ κ) : List (LeafId × Leaf τ κ) := a.tree.namedLeaves

/-- The counts of an atlas. Tiles are counted afresh, creatures by the number kept alongside. -/
def counts (a : Atlas τ κ) : Counts where
  branches := a.tree.branches.size
  leaves := a.tree.leaves.size
  tiles := a.tree.tileCount
  creatures := a.members

def text (a : Atlas τ κ) : String :=
  Text.record "WorldIndex" [("tree", a.tree.text), ("members", toString a.members)]

end Atlas

end TileAtlas
