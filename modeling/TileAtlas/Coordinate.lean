/-!
Coordinates of the map and the way a pair of them is read.

A map has `2 ^ 16` points on each axis, so a coordinate is a machine word of sixteen bits. The three
low bits of a coordinate say where in its block a point lies; the thirteen high bits say which block
it is, and are read from the top, one bit of each coordinate at a time. One such pair of bits is a
quadrant.
-/

namespace TileAtlas

def coordBits : Nat := 16

/-- The number of low bits that place a point inside its block. -/
def blockBits : Nat := 3

def blockSide : UInt16 := 8

/-- The number of quadrants read between the root table and a leaf. -/
def treeDepth : Nat := 13

/-- The number of storeys that hold tiles. -/
def floorCount : Nat := 16

@[simp] theorem toNat_blockSide : blockSide.toNat = 8 := rfl

/-- A quadrant of a square: bit 0 is set for the eastern half, bit 1 for the southern half. -/
abbrev Quadrant := Fin 4

/-- The position of a coordinate inside its block. -/
def offset (v : UInt16) : UInt16 := v % blockSide

/-- The least coordinate of the block that `v` lies in. -/
def blockStart (v : UInt16) : UInt16 := v - v % blockSide

/-- The number of points along one half of a side of the map: the value of the top bit of a
coordinate. -/
def halfSide : UInt16 := 32768

@[simp] theorem toNat_halfSide : halfSide.toNat = 32768 := rfl

def quadrant (x y : UInt16) : Quadrant :=
  ⟨x.toNat / halfSide.toNat + 2 * (y.toNat / halfSide.toNat), by
    have hx := x.toNat_lt
    have hy := y.toNat_lt
    rw [toNat_halfSide]
    omega⟩

/-- A coordinate with its top bit read and dropped; the other bits move up by one. -/
def dropTopBit (v : UInt16) : UInt16 := v <<< 1

/-- The start of the block before the one that starts at `v`, unless that one is the first. -/
def previousBlock? (v : UInt16) : Option UInt16 :=
  if blockSide ≤ v then some (v - blockSide) else none

def nextBlock? (v : UInt16) : Option UInt16 :=
  if v.toNat + blockSide.toNat < UInt16.size then some (v + blockSide) else none

theorem toNat_offset (v : UInt16) : (offset v).toNat = v.toNat % 8 := by
  simp [offset, blockSide, UInt16.toNat_mod]

theorem toNat_offset_lt (v : UInt16) : (offset v).toNat < 8 := by
  rw [toNat_offset]
  omega

theorem toNat_blockStart (v : UInt16) : (blockStart v).toNat = v.toNat - v.toNat % 8 := by
  have h : v % blockSide ≤ v := by
    rw [UInt16.le_iff_toNat_le, UInt16.toNat_mod]
    exact Nat.mod_le _ _
  rw [blockStart, UInt16.toNat_sub_of_le _ _ h, UInt16.toNat_mod]
  rfl

theorem toNat_dropTopBit (v : UInt16) : (dropTopBit v).toNat = 2 * v.toNat % UInt16.size := by
  simp [dropTopBit, UInt16.toNat_shiftLeft, Nat.shiftLeft_eq, Nat.mul_comm]

end TileAtlas
