import TileAtlas.Area
import TileAtlas.Creature

/-!
Filters: tests on creatures that a scenario can name. Some of them depend on how many creatures have
been offered before, so a filter is asked in a state that counts the offers.
-/

namespace TileAtlas

/-- A test on the creatures that a view offers. -/
inductive Filter where
  | all
  | none
  /-- The first creature offered, the third, and so on. -/
  | everyOther
  /-- The creatures whose number leaves a remainder on division. No number does on division by
  zero. -/
  | idMod (divisor remainder : UInt32)
  | idBelow (bound : UInt32)
  | kindIs (kind : Kind)
  | idIn (ids : List UInt32)
  /-- The creatures offered first, up to a number of them. -/
  | first (count : UInt32)
  /-- The creatures with a number for which a point of the area is on record. -/
  | clip (points : List (UInt32 × UInt16 × UInt16))
  deriving DecidableEq, Repr

namespace Filter

variable {order : HandleOrder}

/-- Whether a creature passes when `before` others have been offered before it. -/
def accepts (f : Filter) (area : Area) (before : Nat) (c : Handle order) : Bool :=
  match f with
  | all => true
  | none => false
  | everyOther => before % 2 = 0
  | idMod divisor remainder => divisor ≠ 0 ∧ c.id % divisor = remainder
  | idBelow bound => c.id < bound
  | kindIs kind => c.kind = kind
  | idIn ids => c.id ∈ ids
  | first count => before < count.toNat
  | clip points => points.any fun (id, point) => id = c.id ∧ point ∈ area

def ask (f : Filter) (area : Area) (c : Handle order) : StateM Nat Bool := do
  let before ← get
  set (before + 1)
  return f.accepts area before c

end Filter

end TileAtlas
