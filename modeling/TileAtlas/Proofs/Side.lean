import TileAtlas.Proofs.Coordinate

/-!
The four sides of a block.

A block goes by its corner, and how far one lies from another is counted in
blocks along one side. One predicate serves for neighbours and for whole rows
of blocks, since distances on a side add up.
-/

namespace TileAtlas

inductive Side where
  | north
  | west
  | south
  | east
  deriving DecidableEq

namespace Side

def opposite : Side → Side
  | .north => .south
  | .west => .east
  | .south => .north
  | .east => .west

/-- The corner `d` is `k` blocks from the corner `c`, on this side. -/
def Ahead (k : Nat) (c d : UInt16 × UInt16) : Side → Prop
  | .north => d.1 = c.1 ∧ d.2.toNat + 8 * k = c.2.toNat
  | .west => d.1.toNat + 8 * k = c.1.toNat ∧ d.2 = c.2
  | .south => d.1 = c.1 ∧ d.2.toNat = c.2.toNat + 8 * k
  | .east => d.1.toNat = c.1.toNat + 8 * k ∧ d.2 = c.2

instance (k : Nat) (c d : UInt16 × UInt16) : (s : Side) → Decidable (s.Ahead k c d)
  | .north => inferInstanceAs (Decidable (_ ∧ _))
  | .west => inferInstanceAs (Decidable (_ ∧ _))
  | .south => inferInstanceAs (Decidable (_ ∧ _))
  | .east => inferInstanceAs (Decidable (_ ∧ _))

variable {s : Side} {j k : Nat} {b c d : UInt16 × UInt16}

theorem ahead_zero_iff : s.Ahead 0 c d ↔ d = c := by
  rw [Prod.ext_iff, ← UInt16.toNat_inj, ← UInt16.toNat_inj]
  cases s <;> simp only [Ahead, ← UInt16.toNat_inj, Nat.mul_zero, Nat.add_zero]

theorem ahead_add_iff (h : s.Ahead j b c) : s.Ahead (j + k) b d ↔ s.Ahead k c d := by
  cases s <;> simp only [Ahead, ← UInt16.toNat_inj] at h ⊢ <;> omega

theorem ahead_opposite_iff : s.opposite.Ahead k c d ↔ s.Ahead k d c := by
  cases s <;> simp only [opposite, Ahead, eq_comm]

theorem not_ahead_one_self : ¬ s.Ahead 1 c c := by
  cases s <;> simp [Ahead]

theorem Ahead.unique (hc : s.Ahead k b c) (hd : s.Ahead k b d) : c = d :=
  (ahead_zero_iff.mp ((ahead_add_iff hc).mp hd)).symm

/-- The start of the next block on a side, which may lie beyond the edge. -/
def next? (c : UInt16 × UInt16) : Side → Option UInt16 × Option UInt16
  | .north => (some c.1, previousBlock? c.2)
  | .west => (previousBlock? c.1, some c.2)
  | .south => (some c.1, nextBlock? c.2)
  | .east => (nextBlock? c.1, some c.2)

theorem next?_eq_some_iff :
    (s.next? c).1 = some d.1 ∧ (s.next? c).2 = some d.2 ↔ s.Ahead 1 c d := by
  cases s with
  | north =>
      simp only [next?, Ahead, previousBlock?_eq_some_iff, Option.some.injEq, eq_comm (a := c.1),
        eq_comm (a := c.2.toNat), Nat.mul_one]
  | west =>
      simp only [next?, Ahead, previousBlock?_eq_some_iff, Option.some.injEq,
        eq_comm (a := c.1.toNat), eq_comm (a := c.2), Nat.mul_one]
  | south =>
      simp only [next?, Ahead, nextBlock?_eq_some_iff, Option.some.injEq, eq_comm (a := c.1),
        Nat.mul_one]
  | east =>
      simp only [next?, Ahead, nextBlock?_eq_some_iff, Option.some.injEq, eq_comm (a := c.2),
        Nat.mul_one]

theorem atStart_next? {x y : UInt16} (hx : blockStart x = x) (hy : blockStart y = y) (s : Side) :
    AtStart (s.next? (x, y)).1 ∧ AtStart (s.next? (x, y)).2 := by
  cases s with
  | north => exact ⟨atStart_some hx, atStart_previousBlock? hy⟩
  | west => exact ⟨atStart_previousBlock? hx, atStart_some hy⟩
  | south => exact ⟨atStart_some hx, atStart_nextBlock? hy⟩
  | east => exact ⟨atStart_nextBlock? hx, atStart_some hy⟩

end Side

end TileAtlas
