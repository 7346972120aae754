import TileAtlas.Area
import TileAtlas.Quadtree.Basic

/-!
The sweep over the blocks of an area: row by row from the north, each row from the west.

From a block with a leaf the sweep goes on along the leaf's link. From a block without one it
looks the next block up from the root. The first block of each row is reached in the same two ways
from the first block of the row before.
-/

namespace TileAtlas

/-- A stop of a sweep: the start of a block, and the block's leaf if it has one. -/
structure Hop where
  x : Nat
  y : Nat
  leaf : Option LeafId
  deriving DecidableEq, Repr

namespace Quadtree

variable {τ κ : Type}

def locateWide (t : Quadtree τ κ) (x y : Nat) : Except Fault (Option LeafId) :=
  if x < UInt16.size ∧ y < UInt16.size then t.locate (UInt16.ofNat x) (UInt16.ofNat y)
  else .error (.offMap x y)

/-- The leaf of the block to the east of a stop, in a row that ends with column `last`. -/
def eastOf (t : Quadtree τ κ) (last : Nat) (hop : Hop) : Except Fault (Option LeafId) := do
  match hop.leaf with
  | some id => return (← t.leaf id).east
  | none =>
    if hop.x + blockSide.toNat ≤ last then t.locateWide (hop.x + blockSide.toNat) hop.y
    else return none

def southOf (t : Quadtree τ κ) (last : Nat) (hop : Hop) : Except Fault (Option LeafId) := do
  match hop.leaf with
  | some id => return (← t.leaf id).south
  | none =>
    if hop.y + blockSide.toNat ≤ last then t.locateWide hop.x (hop.y + blockSide.toNat)
    else return none

/-- The stops of a row from a given one on, up to column `last`. -/
def sweepRow (t : Quadtree τ κ) (last : Nat) (hop : Hop) : Except Fault (List Hop) := do
  if hop.x ≤ last then
    let leaf ← t.eastOf last hop
    let rest ← t.sweepRow last { hop with x := hop.x + blockSide.toNat, leaf }
    return hop :: rest
  else return []
termination_by last + 1 - hop.x
decreasing_by simp only [toNat_blockSide]; omega

def sweepRows (t : Quadtree τ κ) (lastX lastY : Nat) (head : Hop) : Except Fault (List Hop) := do
  if head.y ≤ lastY then
    let row ← t.sweepRow lastX head
    let leaf ← t.southOf lastY head
    let rest ← t.sweepRows lastX lastY { head with y := head.y + blockSide.toNat, leaf }
    return row ++ rest
  else return []
termination_by lastY + 1 - head.y
decreasing_by simp only [toNat_blockSide]; omega

/-- The stops of the sweep over an area, in order: one for each block that the area touches. -/
def sweep (t : Quadtree τ κ) (area : Area) : Except Fault (List Hop) := do
  if area.IsEmpty then return []
  else
    let a := area.aligned
    let leaf ← t.locate a.west a.north
    t.sweepRows a.east.toNat a.south.toNat { x := a.west.toNat, y := a.north.toNat, leaf }

/-- The leaves that a sweep over an area comes across, in order. -/
def visit (t : Quadtree τ κ) (area : Area) : Except Fault (List (LeafId × Leaf τ κ)) := do
  let hops ← t.sweep area
  (hops.filterMap Hop.leaf).mapM fun id => return (id, ← t.leaf id)

end Quadtree

end TileAtlas
