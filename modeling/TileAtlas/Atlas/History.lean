import TileAtlas.Atlas.Edit

/-!
Histories: edits as data, and what comes of carrying them out one after another.
-/

namespace TileAtlas

inductive Edit (τ κ : Type) where
  | putTile (place : Location) (tile : τ)
  | clearTile (place : Location)
  | enter (place : Location) (creature : κ)
  | leave (place : Location) (creature : κ)
  | move (source target : Location) (creature : κ)
  deriving DecidableEq, Repr

inductive Outcome (τ : Type) where
  | placed (result : Except Refusal LeafId)
  | cleared (tile : Option τ)
  /-- A creature entered, unless it was there already. -/
  | entered (isNew : Bool)
  /-- A creature left, unless it was not there. -/
  | left (wasPresent : Bool)
  | moved

/-- An atlas with the replies and events of the edits that led to it, oldest first. -/
structure History (τ κ : Type) where
  atlas : Atlas τ κ := ∅
  outcomes : Array (Outcome τ) := #[]
  events : Array Event := #[]

namespace Step

variable {τ κ α β : Type}

def map (f : α → β) (s : Step τ κ α) : Step τ κ β :=
  { atlas := s.atlas, reply := f s.reply, events := s.events }

end Step

namespace Atlas

variable {τ κ : Type} [Creature κ]

def apply (a : Atlas τ κ) : Edit τ κ → Except Fault (Step τ κ (Outcome τ))
  | .putTile p tile => (a.putTile p tile).map (·.map .placed)
  | .clearTile p => (a.clearTile p).map (·.map .cleared)
  | .enter p c => (a.enter p c).map (·.map .entered)
  | .leave p c => (a.leave p c).map (·.map .left)
  | .move p q c => (a.move p q c).map (·.map fun _ => .moved)

end Atlas

namespace History

variable {τ κ : Type} [Creature κ]

def extend (h : History τ κ) (e : Edit τ κ) : Except Fault (History τ κ) := do
  let step ← h.atlas.apply e
  return {
    atlas := step.atlas
    outcomes := h.outcomes.push step.reply
    events := h.events ++ step.events }

def replay (h : History τ κ) (edits : List (Edit τ κ)) : Except Fault (History τ κ) :=
  edits.foldlM extend h

theorem replay_nil (h : History τ κ) : h.replay [] = .ok h := rfl

theorem replay_cons (h : History τ κ) (e : Edit τ κ) (edits : List (Edit τ κ)) :
    h.replay (e :: edits) = h.extend e >>= fun k => k.replay edits := rfl

end History

end TileAtlas
