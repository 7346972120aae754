import TileAtlas.Atlas.Basic
import TileAtlas.Quadtree.Sweep

/-!
Views: an area of an atlas, and the kinds of creatures that are of interest there.

A view works on whole blocks. It offers every creature of the chosen kinds that is in a block
which the area touches, block by block in the order of the sweep; a creature in such a block may
be outside the area itself, and the caller's test is there to leave it out.
-/

namespace TileAtlas

/-- A search of an area for creatures of some kinds. -/
structure View (τ κ : Type) where
  atlas : Atlas τ κ
  area : Area
  kinds : KindSet := .all

namespace View

variable {τ κ : Type}

def leaves (v : View τ κ) : Except Fault (List (LeafId × Leaf τ κ)) := v.atlas.tree.visit v.area

def offered (v : View τ κ) : Except Fault (List κ) := do
  return (← v.leaves).flatMap fun (_, leaf) => leaf.roster.members v.kinds

/-- The creatures in view that pass a test. The test sees each of them once, in order, and may
remember what it has seen. -/
def collect {m : Type → Type} [Monad m] (v : View τ κ) (test : κ → m Bool) :
    Except Fault (m (List κ)) := do
  return (← v.offered).filterM test

def text (v : View τ κ) : String :=
  Text.record "SpectatorQuery"
    [("index", v.atlas.text), ("area", v.area.text), ("kinds", v.kinds.text)]

end View

namespace Atlas

variable {τ κ : Type}

def view (a : Atlas τ κ) (area : Area) : View τ κ := { atlas := a, area }

def find {m : Type → Type} [Monad m] (a : Atlas τ κ) (area : Area) (test : κ → m Bool) :
    Except Fault (m (List κ)) :=
  (a.view area).collect test

end Atlas

end TileAtlas
