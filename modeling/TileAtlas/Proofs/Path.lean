import TileAtlas.Path
import TileAtlas.Proofs.Coordinate

/-!
What a path says about its point. The reads shift the bits of the coordinates
out at the top, so the quadrant read after `k` others is made of bit `15 - k`
of either coordinate (`toList_eq_map_bitPair`). Two paths therefore begin alike
exactly as far as the coordinates agree in their high bits
(`take_toList_eq_iff`). A whole path reads thirteen bits and leaves out the
three that place the point inside its block, so two points have the same path
exactly when they share a block.
-/

namespace TileAtlas

/-- The quadrant made of bit `k` of either coordinate. -/
def bitPair (x y : UInt16) (k : Nat) : Quadrant :=
  ⟨(x.toNat.testBit k).toNat + 2 * (y.toNat.testBit k).toNat, by
    have hx := (x.toNat.testBit k).toNat_lt
    have hy := (y.toNat.testBit k).toNat_lt
    omega⟩

theorem bitPair_eq_iff {x y x' y' : UInt16} {k : Nat} :
    bitPair x y k = bitPair x' y' k ↔
      x.toNat.testBit k = x'.toNat.testBit k ∧ y.toNat.testBit k = y'.toNat.testBit k := by
  rw [bitPair, bitPair, Fin.mk.injEq]
  cases x.toNat.testBit k <;> cases y.toNat.testBit k <;>
    cases x'.toNat.testBit k <;> cases y'.toNat.testBit k <;> decide

theorem quadrant_eq_bitPair (x y : UInt16) : quadrant x y = bitPair x y 15 := by
  have hx := x.toNat_lt
  have hy := y.toNat_lt
  apply Fin.ext
  simp only [quadrant, bitPair, toNat_halfSide, Nat.toNat_testBit]
  omega

theorem testBit_dropTopBit {v : UInt16} {k : Nat} (hk : k < 15) :
    (dropTopBit v).toNat.testBit (k + 1) = v.toNat.testBit k := by
  have hsize : UInt16.size = 2 ^ 16 := rfl
  rw [toNat_dropTopBit, hsize, Nat.testBit_mod_two_pow, Nat.testBit_succ,
    Nat.mul_div_cancel_left _ (by decide)]
  simp only [show k + 1 < 16 by omega, decide_true, Bool.true_and]

theorem bitPair_dropTopBit {x y : UInt16} {k : Nat} (hk : k < 15) :
    bitPair (dropTopBit x) (dropTopBit y) (k + 1) = bitPair x y k := by
  simp only [bitPair, testBit_dropTopBit hk]

namespace Path

theorem go_eq_map_bitPair (x y : UInt16) {n : Nat} (hn : n ≤ 16) :
    toList.go x y n = (List.range n).map fun k => bitPair x y (15 - k) := by
  induction n generalizing x y with
  | zero => rfl
  | succ n ih =>
      rw [toList.go, ih _ _ (by omega), List.range_succ_eq_map, List.map_cons, List.map_map,
        quadrant_eq_bitPair]
      congr 1
      apply List.map_congr_left
      intro k hk
      have hkn : k < n := List.mem_range.mp hk
      rw [Function.comp_apply, show 15 - k = 15 - (k + 1) + 1 by omega]
      exact bitPair_dropTopBit (by omega)

/-- The quadrant read after `k` others is made of bit `15 - k` of either
coordinate. -/
theorem toList_eq_map_bitPair (x y : UInt16) :
    (ofPoint x y).toList = (List.range treeDepth).map fun k => bitPair x y (15 - k) :=
  go_eq_map_bitPair x y (n := treeDepth) (by decide)

theorem shiftRight_eq_iff_testBit {v w : UInt16} {n : Nat} (hn : n ≤ coordBits) :
    v.toNat >>> (coordBits - n) = w.toNat >>> (coordBits - n) ↔
      ∀ k < n, v.toNat.testBit (15 - k) = w.toNat.testBit (15 - k) := by
  have hbits : coordBits = 16 := rfl
  rw [hbits] at hn ⊢
  constructor
  · intro h k hk
    have hbit := congrArg (Nat.testBit · (n - 1 - k)) h
    simp only [Nat.testBit_shiftRight] at hbit
    rwa [show 16 - n + (n - 1 - k) = 15 - k by omega] at hbit
  · intro h
    apply Nat.eq_of_testBit_eq
    intro i
    rw [Nat.testBit_shiftRight, Nat.testBit_shiftRight]
    by_cases hi : i < n
    · have hbit := h (n - 1 - i) (by omega)
      rwa [show 15 - (n - 1 - i) = 16 - n + i by omega] at hbit
    · have hpow : 2 ^ 16 ≤ 2 ^ (16 - n + i) := Nat.pow_le_pow_right (by decide) (by omega)
      rw [Nat.testBit_lt_two_pow (Nat.lt_of_lt_of_le v.toNat_lt hpow),
        Nat.testBit_lt_two_pow (Nat.lt_of_lt_of_le w.toNat_lt hpow)]

theorem blockStart_eq_iff_shiftRight {v w : UInt16} :
    blockStart v = blockStart w ↔
      v.toNat >>> (coordBits - treeDepth) = w.toNat >>> (coordBits - treeDepth) := by
  rw [blockStart_eq_iff, Nat.shiftRight_eq_div_pow, Nat.shiftRight_eq_div_pow]
  rfl

theorem take_toList_eq_iff {x y x' y' : UInt16} {n : Nat} (hn : n ≤ treeDepth) :
    (ofPoint x y).toList.take n = (ofPoint x' y').toList.take n ↔
      x.toNat >>> (coordBits - n) = x'.toNat >>> (coordBits - n) ∧
        y.toNat >>> (coordBits - n) = y'.toNat >>> (coordBits - n) := by
  have hbits : n ≤ coordBits := Nat.le_trans hn (by decide)
  simp only [toList_eq_map_bitPair, ← List.map_take, List.take_range, Nat.min_eq_left hn,
    List.map_inj_left, List.mem_range, bitPair_eq_iff, shiftRight_eq_iff_testBit hbits]
  exact ⟨fun h => ⟨fun k hk => (h k hk).1, fun k hk => (h k hk).2⟩,
    fun h k hk => ⟨h.1 k hk, h.2 k hk⟩⟩

/-- Two points have the same path exactly when they share a block. -/
theorem toList_ofPoint_eq_iff {x y x' y' : UInt16} :
    (ofPoint x y).toList = (ofPoint x' y').toList ↔
      blockStart x = blockStart x' ∧ blockStart y = blockStart y' := by
  have hwhole : ∀ u v, (ofPoint u v).toList.take treeDepth = (ofPoint u v).toList := fun u v =>
    List.take_of_length_le (Nat.le_of_eq (length_toList _))
  rw [← hwhole x y, ← hwhole x' y', take_toList_eq_iff (Nat.le_refl _),
    blockStart_eq_iff_shiftRight, blockStart_eq_iff_shiftRight]

end Path

end TileAtlas
