import TileAtlas.Coordinate
import TileAtlas.Text.Record

/-!
Areas: rectangles of points with their edges included. An area whose edges are out of order holds
no point. A search works on whole blocks, so it first moves the edges of its area to the starts of
their blocks; that keeps every block that the area touches.
-/

namespace TileAtlas

/-- A rectangle of points, given by its four outermost rows and columns. -/
structure Area where
  west : UInt16
  north : UInt16
  east : UInt16
  south : UInt16
  deriving DecidableEq, Repr

namespace Area

/-- The points within `reachX` columns and `reachY` rows of a centre. The edges of the map cut it
off. -/
def ofReach (x y reachX reachY : UInt16) : Area where
  west := less x reachX
  north := less y reachY
  east := more x reachX
  south := more y reachY
where
  less (v reach : UInt16) : UInt16 := UInt16.ofNat (v.toNat - reach.toNat)
  more (v reach : UInt16) : UInt16 := UInt16.ofNat (min (v.toNat + reach.toNat) (UInt16.size - 1))

/-- The area with each edge moved to the start of its block. -/
def aligned (a : Area) : Area where
  west := blockStart a.west
  north := blockStart a.north
  east := blockStart a.east
  south := blockStart a.south

/-- An area is empty when its edges are out of order, from west to east or from north to south. -/
def IsEmpty (a : Area) : Prop := a.east < a.west ∨ a.south < a.north

instance (a : Area) : Decidable a.IsEmpty := inferInstanceAs (Decidable (_ ∨ _))

instance : Membership (UInt16 × UInt16) Area where
  mem a p := (a.west ≤ p.1 ∧ p.1 ≤ a.east) ∧ a.north ≤ p.2 ∧ p.2 ≤ a.south

instance (a : Area) (p : UInt16 × UInt16) : Decidable (p ∈ a) :=
  inferInstanceAs (Decidable ((_ ∧ _) ∧ _ ∧ _))

theorem mem_iff {a : Area} {x y : UInt16} :
    (x, y) ∈ a ↔ (a.west ≤ x ∧ x ≤ a.east) ∧ a.north ≤ y ∧ y ≤ a.south :=
  Iff.rfl

def blockCount (a : Area) : Nat :=
  if a.IsEmpty then 0
  else
    let b := a.aligned
    (((b.east - b.west) / blockSide).toNat + 1) * (((b.south - b.north) / blockSide).toNat + 1)

/-- The points met when the area is walked row by row, with the same stride in both directions. A
stride of zero counts as one. -/
def lattice (a : Area) (stride : Nat) : List (UInt16 × UInt16) :=
  (marks a.north a.south).flatMap fun y => (marks a.west a.east).map fun x => (x, y)
where
  marks (first last : UInt16) : List UInt16 :=
    if first ≤ last then
      (List.range ((last - first).toNat / max stride 1 + 1)).map fun i =>
        first + UInt16.ofNat (i * max stride 1)
    else []

def text (a : Area) : String :=
  Text.record "Area"
    [("start_x", toString a.west.toNat), ("start_y", toString a.north.toNat),
      ("end_x", toString a.east.toNat), ("end_y", toString a.south.toNat)]

end Area

end TileAtlas
