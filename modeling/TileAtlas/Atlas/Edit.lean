import TileAtlas.Atlas.Basic
import TileAtlas.Quadtree.Growth

/-!
Edits of an atlas: putting and clearing tiles, and creatures that enter, leave and move.

A creature is a member of a block, whatever storey it is on. The caller says where a creature is;
the atlas keeps no such record. So a creature can be reported to leave, or to move out of, a block
in which it is not: the atlas then says so in an event and carries on with the part of the edit
that makes sense.
-/

namespace TileAtlas

inductive Refusal where
  /-- The storey is beyond those that hold tiles. -/
  | floorOutOfRange (floor : UInt8)
  deriving DecidableEq, Repr

namespace Refusal

def message : Refusal → String
  | floorOutOfRange floor =>
    "floor " ++ toString floor.toNat ++ " is outside the " ++ toString floorCount ++
      " floors stored per leaf"

def text : Refusal → String
  | floorOutOfRange floor => Text.record "FloorOutOfRange" [("floor", toString floor.toNat)]

end Refusal

/-- What an edit leads to: the atlas after it, the answer to the caller and the events it
reports. -/
structure Step (τ κ α : Type) where
  atlas : Atlas τ κ
  reply : α
  events : List Event

namespace Atlas

variable {τ κ : Type}

/-- Puts a tile at a location, in place of what was there. The reply names the leaf that holds
it. -/
def putTile (a : Atlas τ κ) (p : Location) (tile : τ) :
    Except Fault (Step τ κ (Except Refusal LeafId)) := do
  if h : p.floor.toNat < floorCount then
    let planting ← a.tree.plant p.x p.y
    let tree ← planting.tree.modifyLeaf planting.leaf (·.putTile p.x p.y ⟨p.floor.toNat, h⟩ tile)
    return { atlas := { a with tree }, reply := .ok planting.leaf, events := planting.events }
  else return { atlas := a, reply := .error (.floorOutOfRange p.floor), events := [] }

/-- Clears a location. The reply is the tile that was there. -/
def clearTile (a : Atlas τ κ) (p : Location) : Except Fault (Step τ κ (Option τ)) := do
  match ← a.tree.locate p.x p.y with
  | some id =>
    let leaf ← a.tree.leaf id
    let tree ← a.tree.modifyLeaf id (·.clearTile p.x p.y p.floor)
    return { atlas := { a with tree }, reply := leaf.tiles.get? p.x p.y p.floor, events := [] }
  | none => return { atlas := a, reply := none, events := [] }

variable [Creature κ]

def addMember (a : Atlas τ κ) (id : LeafId) (c : κ) : Except Fault (Atlas τ κ × Bool) := do
  match (← a.tree.leaf id).roster.insert? c with
  | some roster =>
    return ({ tree := ← a.tree.modifyLeaf id (·.setRoster roster), members := a.members + 1 }, true)
  | none => return (a, false)

def removeMember (a : Atlas τ κ) (id : LeafId) (c : κ) : Except Fault (Atlas τ κ × Bool) := do
  match (← a.tree.leaf id).roster.erase? c with
  | some roster =>
    return ({ tree := ← a.tree.modifyLeaf id (·.setRoster roster), members := a.members - 1 }, true)
  | none => return (a, false)

/-- A creature enters a block. The reply says whether it was not there before. -/
def enter (a : Atlas τ κ) (p : Location) (c : κ) : Except Fault (Step τ κ Bool) := do
  let planting ← a.tree.plant p.x p.y
  let (atlas, added) ← { a with tree := planting.tree }.addMember planting.leaf c
  let events := if added then [] else [.alreadyPresent p]
  return { atlas, reply := added, events := planting.events ++ events }

/-- A creature leaves a block. The reply says whether it was there. -/
def leave (a : Atlas τ κ) (p : Location) (c : κ) : Except Fault (Step τ κ Bool) := do
  match ← a.tree.locate p.x p.y with
  | some id =>
    let (atlas, removed) ← a.removeMember id c
    return { atlas, reply := removed, events := if removed then [] else [.notPresent p] }
  | none => return { atlas := a, reply := false, events := [] }

def removeMember? (a : Atlas τ κ) (id : Option LeafId) (c : κ) : Except Fault (Atlas τ κ × Bool) :=
  match id with
  | some id => a.removeMember id c
  | none => .ok (a, false)

/-- A creature moves. Nothing changes if the place it comes from has a leaf and that leaf covers the
place it goes to as well; otherwise it ends up in the block of the place it goes to. -/
def move (a : Atlas τ κ) (source target : Location) (c : κ) : Except Fault (Step τ κ Unit) := do
  let old ← a.tree.locate source.x source.y
  let planting ← a.tree.plant target.x target.y
  let a := { a with tree := planting.tree }
  if old = some planting.leaf then return { atlas := a, reply := (), events := planting.events }
  else
    let (a, removed) ← a.removeMember? old c
    let (a, _) ← a.addMember planting.leaf c
    let strays := if removed then [] else [Event.movedFromElsewhere source target]
    return {
      atlas := a
      reply := ()
      events := planting.events ++ strays ++ [.leafChanged source target] }

end Atlas

end TileAtlas
