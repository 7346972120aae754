import TileAtlas.Scenario.Query

/-!
Commands: what a scenario does, one after another, and the report on each.

A command is an edit, a question, or a fill: edits at the points of an area that lie a stride
apart. It names the atlas it is for. The report gives the answer, the counts of that atlas
afterwards and the events of the command itself.
-/

namespace TileAtlas

inductive Action (order : HandleOrder) where
  | edit (edit : Edit UInt32 (Handle order))
  | query (query : Query)
  /-- Puts tiles with rising numbers on one storey of an area. -/
  | fillTiles (area : Area) (stride : Nat) (floor : UInt8) (first : UInt32)
  /-- Lets creatures with rising numbers, of each kind in turn, enter an area. -/
  | fillCreatures (area : Area) (stride : Nat) (first : UInt32)

structure Command (order : HandleOrder) where
  atlas : Nat
  action : Action order

structure Report (order : HandleOrder) where
  answer : Answer order
  counts : Counts
  events : List Event

namespace Action

variable {order : HandleOrder}

/-- The storey that creatures enter by when an area is filled with them. -/
def fillFloor : UInt8 := 7

/-- The part of an area that is tried when it is filled with tiles. A fill ends at the first
refusal, so on a storey that holds no tiles it does not get past the first point. -/
def triedArea (area : Area) (floor : UInt8) : Area :=
  if floor.toNat < floorCount ∨ area.IsEmpty then area
  else { area with east := area.west, south := area.north }

def edits : Action order → List (Edit UInt32 (Handle order))
  | edit e => [e]
  | query _ => []
  | fillTiles area stride floor first =>
    ((triedArea area floor).lattice stride).zipIdx.map fun ((x, y), i) =>
      .putTile { x, y, floor } (first + UInt32.ofNat i)
  | fillCreatures area stride first =>
    (area.lattice stride).zipIdx.map fun ((x, y), i) =>
      let id := first + UInt32.ofNat i
      .enter { x, y, floor := fillFloor } { kind := .ofIndex id.toNat, id }

end Action

namespace Outcome

variable {τ : Type}

def isArrival : Outcome τ → Bool
  | entered isNew => isNew
  | _ => false

def refusal? : Outcome τ → Option Refusal
  | placed (.error refusal) => some refusal
  | _ => none

end Outcome

namespace Session

variable {order : HandleOrder}

def answerEdit (a : Atlas UInt32 (Handle order)) :
    Edit UInt32 (Handle order) → Outcome UInt32 → Except Fault (Answer order)
  | .move p q c, _ => return .moved (← a.isMember p c) (← a.isMember q c)
  | _, .placed result => return .placed result
  | _, .cleared tile => return .tile tile
  | _, .entered isNew => return .truth isNew
  | _, .left wasPresent => return .truth wasPresent
  | _, .moved => return .done

def answerAction (s : Session order) (h : History UInt32 (Handle order)) :
    Action order → Except Fault (Answer order)
  | .edit e =>
    match h.outcomes[0]? with
    | some outcome => answerEdit h.atlas e outcome
    | none => return .done
  | .query q => s.answer h.atlas q
  | .fillTiles .. =>
    match h.outcomes.findSome? Outcome.refusal? with
    | some refusal => return .placed (.error refusal)
    | none => return .number h.outcomes.size
  | .fillCreatures .. => return .number (h.outcomes.countP Outcome.isArrival)

/-- Carries out a command. There is no report if there is no such atlas. -/
def perform (s : Session order) (c : Command order) :
    Except Fault (Session order × Option (Report order)) := do
  if h : c.atlas < 3 then
    let history ← { atlas := s.atlases[c.atlas] : History _ _ }.replay c.action.edits
    let s : Session order := { atlases := s.atlases.set c.atlas history.atlas }
    let answer ← s.answerAction history c.action
    return (s, some { answer, counts := history.atlas.counts, events := history.events.toList })
  else return (s, none)

def run (s : Session order) : List (Command order) → Except Fault (List (Option (Report order)))
  | [] => .ok []
  | c :: rest => do
    let (s, report) ← s.perform c
    return report :: (← s.run rest)

end Session

end TileAtlas
