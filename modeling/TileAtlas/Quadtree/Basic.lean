import TileAtlas.Path
import TileAtlas.Quadtree.Leaf

/-!
The tree that leads from a point to the leaf of its block.

A tree consists of tables of four slots, one slot for each quadrant. The root table belongs to the
whole map; every other table is a branch. A slot is vacant, or leads to a branch, or, at the end
of a path, to a leaf. Branches and leaves are kept in arrays and slots hold their names, so a slot
could in principle name something that does not exist. Reading such a slot is a `Fault`; a tree
that is grown from the empty one has none.
-/

namespace TileAtlas

inductive Slot where
  | vacant
  | branch (id : BranchId)
  | leaf (id : LeafId)
  deriving DecidableEq, Repr

abbrev Node := Vector Slot 4

def Node.vacant : Node := Vector.replicate 4 .vacant

inductive Table where
  | root
  | branch (id : BranchId)
  deriving DecidableEq, Repr

/-- A way in which a tree can fail to hold together. -/
inductive Fault where
  /-- A name of a branch that does not exist. -/
  | danglingBranch (id : BranchId)
  /-- A name of a leaf that does not exist. -/
  | danglingLeaf (id : LeafId)
  /-- A leaf in a slot that is not at the end of a path. -/
  | earlyLeaf (id : LeafId)
  /-- A path that ends in a branch. -/
  | pathExhausted
  /-- A point that does not lie on the map. -/
  | offMap (x y : Nat)
  deriving DecidableEq, Repr

/-- A tree of tables over the map, with a leaf for each block that has been touched. -/
structure Quadtree (τ κ : Type) where
  root : Node := Node.vacant
  branches : Array Node := #[]
  leaves : Array (Leaf τ κ) := #[]
  deriving DecidableEq, Repr

namespace Quadtree

variable {τ κ : Type}

instance : EmptyCollection (Quadtree τ κ) := ⟨{}⟩

instance : Inhabited (Quadtree τ κ) := ⟨∅⟩

def node (t : Quadtree τ κ) : Table → Except Fault Node
  | .root => .ok t.root
  | .branch b =>
    match t.branches[b.index]? with
    | some node => .ok node
    | none => .error (.danglingBranch b)

def setSlot (t : Quadtree τ κ) (table : Table) (q : Quadrant) (slot : Slot) : Quadtree τ κ :=
  match table with
  | .root => { t with root := t.root.set q.val slot }
  | .branch b => { t with branches := t.branches.modify b.index fun node => node.set q.val slot }

def leaf (t : Quadtree τ κ) (id : LeafId) : Except Fault (Leaf τ κ) :=
  match t.leaves[id.index]? with
  | some leaf => .ok leaf
  | none => .error (.danglingLeaf id)

def modifyLeaf (t : Quadtree τ κ) (id : LeafId) (f : Leaf τ κ → Leaf τ κ) :
    Except Fault (Quadtree τ κ) :=
  if id.index < t.leaves.size then .ok { t with leaves := t.leaves.modify id.index f }
  else .error (.danglingLeaf id)

/-- Follows the rest of a path from a table on, to the leaf at its end if there is one. -/
def descend (t : Quadtree τ κ) : Table → List Quadrant → Except Fault (Option LeafId)
  | _, [] => .error .pathExhausted
  | table, q :: rest => do
    let node ← t.node table
    match node.get q with
    | .vacant => return none
    | .branch b => t.descend (.branch b) rest
    | .leaf id => if rest.isEmpty then return some id else throw (.earlyLeaf id)

/-- The leaf of the block that a point lies in, if the block has one. -/
def locate (t : Quadtree τ κ) (x y : UInt16) : Except Fault (Option LeafId) :=
  t.descend .root (Path.ofPoint x y).toList

def namedLeaves (t : Quadtree τ κ) : List (LeafId × Leaf τ κ) :=
  t.leaves.toList.zipIdx.map fun (leaf, i) => (LeafId.ofIndex i, leaf)

def tileCount (t : Quadtree τ κ) : Nat :=
  t.leaves.foldl (fun n leaf => n + leaf.tiles.count) 0

def text (t : Quadtree τ κ) : String :=
  Text.record "Tree"
    [("roots", toString (t.root.countP (· ≠ .vacant))), ("branches", toString t.branches.size),
      ("leaves", toString t.leaves.size)]

end Quadtree

end TileAtlas
