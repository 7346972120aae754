import TileAtlas.Event
import TileAtlas.Quadtree.Basic

/-!
Growth of the tree. The leaf of a block is made when the block is first touched, together with the
branches on its path that are not there yet. A new leaf is connected at once: its links to the south
and east are looked up, and the leaves to its north and west learn of it.
-/

namespace TileAtlas

namespace Quadtree

variable {τ κ : Type}

/-- A tree after a path was followed to its end, and the leaf found or made there. -/
structure Growth (τ κ : Type) where
  tree : Quadtree τ κ
  leaf : LeafId
  /-- The leaf was not there before. -/
  isNew : Bool

/-- Follows the rest of a path from a table on and makes what is missing, the leaf `fresh` last. -/
def grow (fresh : Leaf τ κ) (t : Quadtree τ κ) : Table → List Quadrant → Except Fault (Growth τ κ)
  | _, [] => .error .pathExhausted
  | table, q :: rest => do
    let node ← t.node table
    match node.get q with
    | .branch b => t.grow fresh (.branch b) rest
    | .leaf id =>
      if rest.isEmpty then return { tree := t, leaf := id, isNew := false }
      else throw (.earlyLeaf id)
    | .vacant =>
      if rest.isEmpty then
        let id := LeafId.ofIndex t.leaves.size
        let t := t.setSlot table q (.leaf id)
        return { tree := { t with leaves := t.leaves.push fresh }, leaf := id, isNew := true }
      else
        let b := BranchId.ofIndex t.branches.size
        let t := t.setSlot table q (.branch b)
        { t with branches := t.branches.push Node.vacant }.grow fresh (.branch b) rest

/-- A tree in which a block has its leaf, and what was reported about it. -/
structure Planting (τ κ : Type) where
  tree : Quadtree τ κ
  leaf : LeafId
  events : List Event

/-- The leaf at a point of which either coordinate may lie beyond the edge of the map. -/
def locate? (t : Quadtree τ κ) : Option UInt16 → Option UInt16 → Except Fault (Option LeafId)
  | some x, some y => t.locate x y
  | _, _ => .ok none

def modifyLeaf? (t : Quadtree τ κ) (id : Option LeafId) (f : Leaf τ κ → Leaf τ κ) :
    Except Fault (Quadtree τ κ) :=
  match id with
  | some id => t.modifyLeaf id f
  | none => .ok t

def connect (t : Quadtree τ κ) (id : LeafId) : Except Fault (Planting τ κ) := do
  let leaf ← t.leaf id
  let north ← t.locate? leaf.x (previousBlock? leaf.y)
  let west ← t.locate? (previousBlock? leaf.x) leaf.y
  let south ← t.locate? leaf.x (nextBlock? leaf.y)
  let east ← t.locate? (nextBlock? leaf.x) leaf.y
  let t ← t.modifyLeaf? north (·.setSouth (some id))
  let t ← t.modifyLeaf? west (·.setEast (some id))
  let t ← t.modifyLeaf id fun leaf => (leaf.setSouth south).setEast east
  let created :=
    Event.leafCreated id leaf.x leaf.y north.isSome west.isSome south.isSome east.isSome
  return { tree := t, leaf := id, events := [created] }

/-- Gives the block of a point its leaf, unless it has one, and says which leaf that is. -/
def plant (t : Quadtree τ κ) (x y : UInt16) : Except Fault (Planting τ κ) := do
  let growth ← t.grow (Leaf.ofPoint x y) .root (Path.ofPoint x y).toList
  if growth.isNew then growth.tree.connect growth.leaf
  else return { tree := growth.tree, leaf := growth.leaf, events := [] }

end Quadtree

end TileAtlas
