import Mathlib.Logic.Basic
import Mathlib.Tactic.SplitIfs
import TileAtlas.Proofs.Coordinate
import TileAtlas.TileStore

/-!
Reading the tiles of a block.

Where a tile is kept is worked out twice: the storey picks a grid and the
position inside the block picks a place in it. Neither mixes anything up, so
a store is a map from storeys and positions to tiles; that a grid is only made
when it is first needed does not show.
-/

namespace TileAtlas

namespace Grid

variable {τ : Type}

def write (grid : Grid τ) (i : Fin 64) (entry : Option τ) : Grid τ := grid.set i.val entry

theorem getElem_write (grid : Grid τ) (i j : Fin 64) (entry : Option τ) :
    (grid.write i entry)[j] = if j = i then entry else grid[j] := by
  simp only [write, Fin.getElem_fin, Vector.getElem_set, Fin.val_inj, eq_comm (a := j)]

end Grid

namespace TileStore

variable {τ : Type} (s : TileStore τ) (x y x' y' : UInt16)

theorem cell_eq_iff {x y x' y' : UInt16} :
    cell x y = cell x' y' ↔ offset x = offset x' ∧ offset y = offset y' := by
  have hy := toNat_offset_lt y
  have hy' := toNat_offset_lt y'
  rw [cell, cell, Fin.mk.injEq, ← UInt16.toNat_inj, ← UInt16.toNat_inj]
  omega

/-! ### Grids -/

theorem grid?_of_not_lt {floor : UInt8} (h : ¬ floor.toNat < floorCount) :
    s.grid? floor = none := dif_neg h

theorem grid?_empty (floor : UInt8) : (∅ : TileStore τ).grid? floor = none := by
  rw [grid?]
  split_ifs
  · exact Vector.getElem_replicate ..
  · rfl

theorem grid?_set (floor : Fin floorCount) (tile : τ) (floor' : UInt8) :
    (s.set x y floor tile).grid? floor' =
      if floor'.toNat = floor then
        some (((s.grid? floor').getD (Vector.replicate 64 none)).write (cell x y) (some tile))
      else s.grid? floor' := by
  by_cases hfloor' : floor'.toNat < floorCount
  · simp only [grid?, dif_pos hfloor', set, Vector.getElem_set, eq_comm (a := floor'.toNat)]
    split_ifs with heq
    · simp only [Grid.write, Fin.getElem_fin, heq]
    · rfl
  · have hne : floor'.toNat ≠ floor := fun h => hfloor' (h ▸ floor.isLt)
    rw [if_neg hne, grid?_of_not_lt _ hfloor', grid?_of_not_lt _ hfloor']

theorem grid?_clear (floor floor' : UInt8) :
    (s.clear x y floor).grid? floor' =
      if floor' = floor then (s.grid? floor').map (·.write (cell x y) none)
      else s.grid? floor' := by
  by_cases hfloor : floor.toNat < floorCount
  · by_cases hfloor' : floor'.toNat < floorCount
    · simp only [grid?, dif_pos hfloor', clear, dif_pos hfloor, Vector.getElem_set,
        UInt8.toNat_inj, eq_comm (a := floor')]
      split_ifs with heq
      · simp only [Grid.write, heq]
      · rfl
    · rw [grid?_of_not_lt _ hfloor', grid?_of_not_lt _ hfloor', Option.map_none, ite_self]
  · rw [clear, dif_neg hfloor]
    split_ifs with heq
    · rw [heq, grid?_of_not_lt _ hfloor, Option.map_none]
    · rfl

/-! ### Tiles -/

theorem get?_empty (floor : UInt8) : (∅ : TileStore τ).get? x y floor = none := by
  rw [get?, grid?_empty]

theorem get?_congr {x y x' y' : UInt16} (hx : offset x = offset x') (hy : offset y = offset y')
    (floor : UInt8) : s.get? x y floor = s.get? x' y' floor := by
  simp only [get?, cell_eq_iff.mpr ⟨hx, hy⟩]

theorem clear_empty (floor : UInt8) : (∅ : TileStore τ).clear x y floor = ∅ := by
  rw [clear]
  split_ifs with hfloor
  · have hnone : (∅ : TileStore τ).floors[floor.toNat] = none := Vector.getElem_replicate ..
    rw [hnone, Option.map_none, ← hnone, Vector.set_getElem_self]
  · rfl

/-- A tile that is put down is there from then on, and no other is touched. -/
theorem get?_set (floor : Fin floorCount) (tile : τ) (floor' : UInt8) :
    (s.set x y floor tile).get? x' y' floor' =
      if floor'.toNat = floor ∧ offset x' = offset x ∧ offset y' = offset y then some tile
      else s.get? x' y' floor' := by
  simp only [← cell_eq_iff]
  rw [get?, grid?_set]
  by_cases hfloor : floor'.toNat = floor
  · rw [if_pos hfloor]
    simp only [Grid.getElem_write, hfloor, true_and]
    refine if_congr Iff.rfl rfl ?_
    -- Elsewhere a grid that was just made has as little as no grid.
    rw [get?]
    cases s.grid? floor' with
    | none => exact Vector.getElem_replicate ..
    | some grid => rfl
  · rw [if_neg hfloor, if_neg fun h => hfloor h.1]
    rfl

/-- A tile that is cleared is gone, and no other is touched. -/
theorem get?_clear (floor floor' : UInt8) :
    (s.clear x y floor).get? x' y' floor' =
      if floor' = floor ∧ offset x' = offset x ∧ offset y' = offset y then none
      else s.get? x' y' floor' := by
  simp only [← cell_eq_iff]
  rw [get?, grid?_clear, get?]
  by_cases hfloor : floor' = floor
  · rw [if_pos hfloor]
    simp only [hfloor, true_and]
    cases s.grid? floor with
    | none => exact (ite_self _).symm
    | some grid => exact grid.getElem_write ..
  · rw [if_neg hfloor, if_neg fun h => hfloor h.1]

end TileStore

end TileAtlas
