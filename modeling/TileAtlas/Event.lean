import TileAtlas.Location
import TileAtlas.Quadtree.Id

/-!
Events: what an edit tells a log. Leaves that come into being and creatures that change blocks are
traced; edits that do not fit the membership of a block are worth a closer look and are logged as
such.
-/

namespace TileAtlas

inductive Level where
  | trace
  | debug
  deriving DecidableEq, Repr

/-- Something that an edit reports. -/
inductive Event where
  /-- A leaf came into being at `(x, y)`. The flags say which of its four neighbours were there
  already. -/
  | leafCreated (leaf : LeafId) (x y : UInt16) (north west south east : Bool)
  /-- A creature entered a block in which it already was. -/
  | alreadyPresent (place : Location)
  /-- A creature left a block in which it was not. -/
  | notPresent (place : Location)
  /-- A creature moved out of a block in which it was not. -/
  | movedFromElsewhere (source target : Location)
  /-- A creature moved from one leaf to another. -/
  | leafChanged (source target : Location)
  deriving DecidableEq, Repr

namespace Event

inductive Value where
  | number (n : Nat)
  | flag (b : Bool)
  | text (s : String)
  deriving DecidableEq, Repr

def level : Event → Level
  | leafCreated .. => .trace
  | alreadyPresent _ => .debug
  | notPresent _ => .debug
  | movedFromElsewhere _ _ => .debug
  | leafChanged _ _ => .trace

def message : Event → String
  | leafCreated .. => "created leaf"
  | alreadyPresent _ => "creature already present in leaf"
  | notPresent _ => "removing creature that is not a member"
  | movedFromElsewhere _ _ => "moved creature was not a member of its old leaf"
  | leafChanged _ _ => "creature changed leaf"

def fields : Event → List (String × Value)
  | leafCreated leaf x y north west south east =>
    [("leaf", .number leaf.index), ("x", .number x.toNat), ("y", .number y.toNat),
      ("north", .flag north), ("west", .flag west), ("south", .flag south), ("east", .flag east)]
  | alreadyPresent place => placeFields place
  | notPresent place => placeFields place
  | movedFromElsewhere source target => [("from", .text source.text), ("to", .text target.text)]
  | leafChanged source target => [("from", .text source.text), ("to", .text target.text)]
where
  placeFields (p : Location) : List (String × Value) :=
    [("x", .number p.x.toNat), ("y", .number p.y.toNat), ("floor", .number p.floor.toNat)]

end Event

end TileAtlas
