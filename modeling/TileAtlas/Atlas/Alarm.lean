import TileAtlas.Atlas.History

/-!
Assertions: what edits take for granted on their way.

Whoever is struck off the set of all creatures should be in the set of their kind as well, and
whoever moves should have been where the move starts. Neither is needed for an edit to go on, so an
edit does not look back when one of them fails. A build that checks assertions stops there instead,
with an alarm.
-/

namespace TileAtlas

inductive Alarm where
  /-- A member of a block is missing from the set of its kind. -/
  | kindOutOfStep
  /-- A creature moved out of a block in which it was not. -/
  | notAtSource (source : Location)
  deriving DecidableEq, Repr

variable {τ κ : Type} [Creature κ]

/-- The assertion that fails when a creature is struck off a roster, if it does. It is not reached
for a creature that is absent. -/
def Roster.alarm? (r : Roster κ) (c : κ) : Option Alarm :=
  if c ∈ r.creatures ∧ c ∉ r.ofKind (Creature.kind c) then some .kindOutOfStep else none

namespace Atlas

/-- The assertion that fails when a membership of the block with a given leaf is ended, if the block
has a leaf. -/
def removalAlarm? (a : Atlas τ κ) (id : Option LeafId) (c : κ) : Except Fault (Option Alarm) :=
  match id with
  | some id => do return (← a.tree.leaf id).roster.alarm? c
  | none => return none

/-- The first assertion that fails in the course of an edit, if one does. -/
def alarm? (a : Atlas τ κ) : Edit τ κ → Except Fault (Option Alarm)
  | .putTile _ _ => return none
  | .clearTile _ => return none
  | .enter _ _ => return none
  | .leave p c => do a.removalAlarm? (← a.tree.locate p.x p.y) c
  | .move p q c => do
    let old ← a.tree.locate p.x p.y
    let planting ← a.tree.plant q.x q.y
    let a := { a with tree := planting.tree }
    if old = some planting.leaf then return none
    else
      let alarm ← a.removalAlarm? old c
      let (_, removed) ← a.removeMember? old c
      return alarm.or (if removed then none else some (.notAtSource p))

end Atlas

end TileAtlas
