import Mathlib.Algebra.BigOperators.Fin
import Mathlib.Algebra.Order.Ring.Nat
import Mathlib.Data.Set.Card
import TileAtlas.Location
import TileAtlas.Proofs.TileStore

/-!
How many tiles a store holds.

The tiles are counted grid by grid. This counts the places at which a tile can
be read, since every storey and every place in a grid stand for exactly one
location of the block.
-/

namespace TileAtlas

/-! ### Sums over vectors -/

section Vectors

variable {α : Type} {n : Nat}

theorem toList_eq_ofFn (v : Vector α n) : v.toList = List.ofFn fun i : Fin n => v[i] := by
  apply List.ext_getElem
  · simp
  · intro i h h'
    simp

theorem foldl_add_eq_sum (v : Vector α n) (f : α → Nat) :
    v.foldl (fun m a => m + f a) 0 = ∑ i : Fin n, f v[i] := by
  rw [← Vector.foldl_toList, ← List.foldl_map (g := fun m k => m + k), ← List.sum_eq_foldl,
    toList_eq_ofFn, List.map_ofFn, List.sum_ofFn]
  rfl

theorem countP_eq_sum (v : Vector α n) (p : α → Bool) :
    v.countP p = ∑ i : Fin n, if p v[i] then 1 else 0 := by
  have hlist : ∀ l : List α, l.countP p = (l.map fun a => if p a then 1 else 0).sum := by
    intro l
    induction l with
    | nil => rfl
    | cons a l ih => rw [List.countP_cons, ih, List.map_cons, List.sum_cons, Nat.add_comm]
  rw [← Vector.countP_toList, hlist, toList_eq_ofFn, List.map_ofFn, List.sum_ofFn]
  rfl

end Vectors

namespace TileStore

variable {τ : Type} {s : TileStore τ} {x y : UInt16} {floor : UInt8}

def occupied (s : TileStore τ) : Finset (Fin floorCount × Fin 64) :=
  Finset.univ.filter fun q => (s.floors[q.1].bind fun grid => grid.get q.2).isSome

theorem floorTiles_eq_sum (grid : Option (Grid τ)) :
    floorTiles grid = ∑ i : Fin 64, if (grid.bind fun g => g.get i).isSome then 1 else 0 := by
  cases grid with
  | none => exact (Finset.sum_const_zero).symm
  | some grid => exact countP_eq_sum grid Option.isSome

theorem card_occupied (s : TileStore τ) : s.occupied.card = s.count := by
  rw [occupied, Finset.card_filter, Fintype.sum_prod_type, count, foldl_add_eq_sum]
  exact Finset.sum_congr rfl fun i _ => (floorTiles_eq_sum s.floors[i]).symm

theorem isSome_get?_iff :
    (s.get? x y floor).isSome ↔
      ∃ h : floor.toNat < floorCount, (⟨floor.toNat, h⟩, cell x y) ∈ s.occupied := by
  rw [get?]
  by_cases h : floor.toNat < floorCount
  · rw [grid?, dif_pos h, exists_prop_of_true h, occupied, Finset.mem_filter,
      and_iff_right (Finset.mem_univ _)]
    show _ ↔ (s.floors[floor.toNat].bind _).isSome = true
    cases s.floors[floor.toNat] <;> rfl
  · rw [grid?_of_not_lt s h]
    simp [h]

/-- The storey and the place in its grid at which the tile of a location is
kept. A storey beyond those that hold tiles stands for one of these. -/
def placeOf (p : Location) : Fin floorCount × Fin 64 :=
  (⟨p.floor.toNat % floorCount, Nat.mod_lt _ (by decide)⟩, cell p.x p.y)

theorem placeOf_of_lt {p : Location} (h : p.floor.toNat < floorCount) :
    placeOf p = (⟨p.floor.toNat, h⟩, cell p.x p.y) :=
  Prod.ext (Fin.ext (Nat.mod_eq_of_lt h)) rfl

theorem eq_of_placeOf_eq {p q : Location} (hp : p.floor.toNat < floorCount)
    (hq : q.floor.toNat < floorCount)
    (hblock : (blockStart p.x, blockStart p.y) = (blockStart q.x, blockStart q.y))
    (h : placeOf p = placeOf q) : p = q := by
  rw [placeOf_of_lt hp, placeOf_of_lt hq, Prod.mk.injEq, Fin.mk.injEq, UInt8.toNat_inj,
    cell_eq_iff] at h
  obtain ⟨hx, hy⟩ := Prod.ext_iff.mp hblock
  obtain ⟨hfloor, hxo, hyo⟩ := h
  cases p
  cases q
  rw [Location.mk.injEq]
  exact ⟨eq_of_blockStart_eq_of_offset_eq hx hxo, eq_of_blockStart_eq_of_offset_eq hy hyo, hfloor⟩

theorem exists_placeOf_eq {c : UInt16 × UInt16} (hc : (blockStart c.1, blockStart c.2) = c)
    (q : Fin floorCount × Fin 64) :
    ∃ p : Location, (blockStart p.x, blockStart p.y) = c ∧ p.floor.toNat < floorCount ∧
      placeOf p = q := by
  obtain ⟨floor, i⟩ := q
  obtain ⟨hx, hy⟩ := Prod.ext_iff.mp hc
  obtain ⟨x, hx, hxi⟩ := exists_of_blockStart_of_offset hx (UInt16.ofNat (i.val / 8))
  obtain ⟨y, hy, hyi⟩ := exists_of_blockStart_of_offset hy (UInt16.ofNat (i.val % 8))
  have hoffset : ∀ n < 8, (offset (UInt16.ofNat n)).toNat = n := by
    intro n hn
    rw [toNat_offset, UInt16.toNat_ofNat_of_lt' (by simp only [UInt16.size]; omega)]
    exact Nat.mod_eq_of_lt hn
  have hfloor : (UInt8.ofNat floor.val).toNat = floor.val :=
    UInt8.toNat_ofNat_of_lt' (Nat.lt_trans floor.isLt (by decide))
  have hlt : (UInt8.ofNat floor.val).toNat < floorCount := by
    rw [hfloor]
    exact floor.isLt
  have hcell : cell x y = i := by
    apply Fin.ext
    simp only [cell, hxi, hyi, hoffset (i.val / 8) (by omega), hoffset (i.val % 8) (by omega)]
    omega
  refine ⟨⟨x, y, UInt8.ofNat floor.val⟩, Prod.ext hx hy, hlt, ?_⟩
  rw [placeOf_of_lt hlt]
  exact Prod.ext (Fin.ext hfloor) hcell

/-- The tiles in a store are as many as the locations of its block with a tile. -/
theorem encard_isSome_get? (s : TileStore τ) {c : UInt16 × UInt16}
    (hc : (blockStart c.1, blockStart c.2) = c) :
    {p : Location | (blockStart p.x, blockStart p.y) = c ∧
      (s.get? p.x p.y p.floor).isSome}.encard = s.count := by
  have hbij : Set.BijOn placeOf {p : Location | (blockStart p.x, blockStart p.y) = c ∧
      (s.get? p.x p.y p.floor).isSome} s.occupied := by
    refine ⟨?_, ?_, ?_⟩
    · rintro p ⟨-, hp⟩
      obtain ⟨hfloor, hp⟩ := isSome_get?_iff.mp hp
      rw [placeOf_of_lt hfloor]
      exact hp
    · rintro p ⟨hpc, hp⟩ q ⟨hqc, hq⟩ heq
      exact eq_of_placeOf_eq (isSome_get?_iff.mp hp).choose (isSome_get?_iff.mp hq).choose
        (hpc.trans hqc.symm) heq
    · intro q hq
      obtain ⟨p, hpc, hfloor, rfl⟩ := exists_placeOf_eq hc q
      rw [placeOf_of_lt hfloor] at hq
      exact ⟨p, ⟨hpc, isSome_get?_iff.mpr ⟨hfloor, hq⟩⟩, rfl⟩
  rw [← hbij.injOn.encard_image, hbij.image_eq, Set.encard_coe_eq_coe_finsetCard, card_occupied]

end TileStore

end TileAtlas
