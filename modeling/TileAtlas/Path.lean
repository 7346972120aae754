import TileAtlas.Coordinate

/-!
The path of a point: the quadrants that lead from the root table to the leaf of its block, the
largest square first. A path is read one quadrant at a time and knows how many are left.
-/

namespace TileAtlas

/-- What is left of the path of a point. The bits already read have been shifted out of `x` and
`y`. -/
structure Path where
  x : UInt16
  y : UInt16
  remaining : Nat
  deriving DecidableEq, Repr

namespace Path

def ofPoint (x y : UInt16) : Path := { x, y, remaining := treeDepth }

/-- The next quadrant and the path after it, or nothing once the path is used up. -/
def next? (p : Path) : Option (Quadrant × Path) :=
  match p.remaining with
  | 0 => none
  | n + 1 => some (quadrant p.x p.y, ⟨dropTopBit p.x, dropTopBit p.y, n⟩)

def toList (p : Path) : List Quadrant := go p.x p.y p.remaining
where
  go (x y : UInt16) : Nat → List Quadrant
    | 0 => []
    | n + 1 => quadrant x y :: go (dropTopBit x) (dropTopBit y) n

/-- The path after one read: a path that is used up stays so. -/
def rest (p : Path) : Path :=
  match p.next? with
  | some (_, q) => q
  | none => p

/-- What `n` reads give, each with the number of quadrants left after it, and the path left at the
end. -/
def read (p : Path) : Nat → List (Option Quadrant × Nat) × Path
  | 0 => ([], p)
  | n + 1 =>
    let (reads, last) := p.rest.read n
    ((p.next?.map Prod.fst, p.rest.remaining) :: reads, last)

@[simp] theorem length_toList (p : Path) : p.toList.length = p.remaining := by
  obtain ⟨x, y, n⟩ := p
  suffices h : (toList.go x y n).length = n from h
  induction n generalizing x y with
  | zero => rfl
  | succ n ih => simp [toList.go, ih]

end Path

end TileAtlas
