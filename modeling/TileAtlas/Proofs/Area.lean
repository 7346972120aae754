import Mathlib.Data.List.Nodup
import TileAtlas.Area
import TileAtlas.Proofs.Coordinate

/-!
The blocks that an area touches.

They are listed in the order in which a search is to go through them. Moving
the edges of an area to the starts of their blocks neither loses a block nor
adds one: every block in the list holds a point of the area.
-/

namespace TileAtlas

namespace Area

/-! ### One direction -/

def starts (first last : UInt16) : List Nat :=
  List.range' (blockStart first).toNat
    (((blockStart last).toNat - (blockStart first).toNat) / 8 + 1) 8

variable {first last : UInt16} {n : Nat} {a : Area}

theorem mem_starts_iff (h : first ≤ last) :
    n ∈ starts first last ↔ ∃ v, (first ≤ v ∧ v ≤ last) ∧ (blockStart v).toNat = n := by
  simp only [starts, List.mem_range', toNat_blockStart_eq, UInt16.le_iff_toNat_le] at h ⊢
  constructor
  · rintro ⟨i, hi, rfl⟩
    have hlast := last.toNat_lt
    -- The first block may start before `first`, but then it reaches as far.
    have hv : (UInt16.ofNat (max first.toNat (8 * (first.toNat / 8) + 8 * i))).toNat =
        max first.toNat (8 * (first.toNat / 8) + 8 * i) :=
      UInt16.toNat_ofNat_of_lt' (by simp only [UInt16.size]; omega)
    refine ⟨UInt16.ofNat (max first.toNat (8 * (first.toNat / 8) + 8 * i)), ?_, ?_⟩
    · rw [hv]
      omega
    · rw [hv]
      omega
  · rintro ⟨v, hv, rfl⟩
    exact ⟨v.toNat / 8 - first.toNat / 8, by omega, by omega⟩

theorem toNat_ofNat_of_mem_starts (h : first ≤ last) (hn : n ∈ starts first last) :
    (UInt16.ofNat n).toNat = n := by
  obtain ⟨v, -, rfl⟩ := (mem_starts_iff h).mp hn
  rw [UInt16.ofNat_toNat]

theorem length_starts : (starts first last).length =
    ((blockStart last).toNat - (blockStart first).toNat) / 8 + 1 :=
  List.length_range'

theorem exists_blockStart_eq_iff (h : first ≤ last) {u : UInt16} :
    (∃ v, (first ≤ v ∧ v ≤ last) ∧ blockStart v = u) ↔
      8 ∣ u.toNat ∧ blockStart first ≤ u ∧ u ≤ blockStart last := by
  rw [Nat.dvd_iff_mod_eq_zero, ← blockStart_eq_self_iff]
  constructor
  · rintro ⟨v, ⟨hfirst, hlast⟩, rfl⟩
    exact ⟨blockStart_blockStart v, blockStart_mono hfirst, blockStart_mono hlast⟩
  · rintro ⟨hu, hfirst, hlast⟩
    by_cases hle : u ≤ first
    · -- Of the first block it may be only the end that lies in between.
      have hge : u ≤ blockStart first := hu ▸ blockStart_mono hle
      exact ⟨first, ⟨UInt16.le_refl first, h⟩, UInt16.le_antisymm hfirst hge⟩
    · refine ⟨u, ⟨UInt16.le_of_lt (UInt16.not_le.mp hle), UInt16.le_trans hlast ?_⟩, hu⟩
      rw [UInt16.le_iff_toNat_le, toNat_blockStart]
      exact Nat.sub_le _ _

theorem pairwise_starts (first last : UInt16) : (starts first last).Pairwise (· < ·) :=
  List.pairwise_lt_range' 8 (by decide)

/-! ### Blocks -/

/-- The starts of the blocks that an area touches, row by row from the north
and each row from the west. An area whose edges are out of order touches none,
even where the blocks of its edges are not out of order. -/
def blocks (a : Area) : List (UInt16 × UInt16) :=
  if a.IsEmpty then []
  else
    (starts a.north a.south).flatMap fun y =>
      (starts a.west a.east).map fun x => (UInt16.ofNat x, UInt16.ofNat y)

theorem edges_le (h : ¬ a.IsEmpty) : a.west ≤ a.east ∧ a.north ≤ a.south := by
  rw [IsEmpty, not_or, UInt16.not_lt, UInt16.not_lt] at h
  exact h

theorem not_isEmpty_of_mem {x y : UInt16} (h : (x, y) ∈ a) : ¬ a.IsEmpty := by
  obtain ⟨⟨hwest, heast⟩, hnorth, hsouth⟩ := mem_iff.mp h
  rintro (hx | hy)
  · exact UInt16.not_lt.mpr (UInt16.le_trans hwest heast) hx
  · exact UInt16.not_lt.mpr (UInt16.le_trans hnorth hsouth) hy

theorem map_blocks {β : Type} (h : ¬ a.IsEmpty) (f : Nat → Nat → β) :
    a.blocks.map (fun p => f p.1.toNat p.2.toNat) =
      (starts a.north a.south).flatMap fun y => (starts a.west a.east).map fun x => f x y := by
  obtain ⟨hx, hy⟩ := edges_le h
  rw [blocks, if_neg h, List.map_flatMap]
  refine List.flatMap_congr fun y hymem => ?_
  rw [List.map_map]
  refine List.map_congr_left fun x hxmem => ?_
  rw [Function.comp_apply, toNat_ofNat_of_mem_starts hx hxmem, toNat_ofNat_of_mem_starts hy hymem]

theorem mem_blocks_iff {u v : UInt16} :
    (u, v) ∈ a.blocks ↔ ∃ x y, (x, y) ∈ a ∧ blockStart x = u ∧ blockStart y = v := by
  rw [blocks]
  split
  · rename_i hempty
    constructor
    · exact nofun
    · rintro ⟨x, y, hmem, -⟩
      exact absurd hempty (not_isEmpty_of_mem hmem)
  rename_i hempty
  obtain ⟨hx, hy⟩ := edges_le hempty
  simp only [List.mem_flatMap, List.mem_map, mem_starts_iff hx, mem_starts_iff hy, mem_iff,
    Prod.mk.injEq]
  constructor
  · rintro ⟨_, ⟨y, hymem, rfl⟩, _, ⟨x, hxmem, rfl⟩, hu, hv⟩
    rw [UInt16.ofNat_toNat] at hu hv
    exact ⟨x, y, ⟨hxmem, hymem⟩, hu, hv⟩
  · rintro ⟨x, y, ⟨hxmem, hymem⟩, rfl, rfl⟩
    exact ⟨_, ⟨y, hymem, rfl⟩, _, ⟨x, hxmem, rfl⟩, UInt16.ofNat_toNat, UInt16.ofNat_toNat⟩

/-- Blocks come from north to south, and from west to east within a row. -/
def Before (p q : UInt16 × UInt16) : Prop := p.2 < q.2 ∨ p.2 = q.2 ∧ p.1 < q.1

instance : Std.Irrefl Before where
  irrefl p h := by
    rcases h with h | ⟨-, h⟩
    · exact UInt16.lt_irrefl _ h
    · exact UInt16.lt_irrefl _ h

theorem pairwise_blocks (a : Area) : a.blocks.Pairwise Before := by
  rw [blocks]
  split
  · exact List.Pairwise.nil
  rename_i hempty
  obtain ⟨hx, hy⟩ := edges_le hempty
  have hlt : ∀ {first last : UInt16}, first ≤ last → (starts first last).Pairwise fun m n =>
      UInt16.ofNat m < UInt16.ofNat n := by
    intro first last hle
    refine (pairwise_starts first last).imp_of_mem fun {m n} hm hn hmn => ?_
    obtain ⟨v, -, rfl⟩ := (mem_starts_iff hle).mp hm
    obtain ⟨w, -, rfl⟩ := (mem_starts_iff hle).mp hn
    rw [UInt16.ofNat_toNat, UInt16.ofNat_toNat]
    exact hmn
  rw [List.pairwise_flatMap]
  constructor
  · intro y _
    exact List.pairwise_map.mpr ((hlt hx).imp fun h => .inr ⟨rfl, h⟩)
  · refine (hlt hy).imp fun {m n} hmn p hp q hq => ?_
    obtain ⟨_, -, rfl⟩ := List.mem_map.mp hp
    obtain ⟨_, -, rfl⟩ := List.mem_map.mp hq
    exact .inl hmn

theorem length_blocks (a : Area) : a.blocks.length = a.blockCount := by
  rw [blocks, blockCount]
  split
  · rfl
  rename_i hempty
  obtain ⟨hx, hy⟩ := edges_le hempty
  -- Edges that are in order stay so when they are moved, so the subtraction is exact.
  have hcount : ∀ {first last : UInt16}, first ≤ last →
      ((blockStart last - blockStart first) / blockSide).toNat + 1 =
        (starts first last).length := by
    intro first last hle
    rw [length_starts, UInt16.toNat_div, UInt16.toNat_sub_of_le _ _ (blockStart_mono hle)]
    rfl
  dsimp only [aligned]
  rw [hcount hx, hcount hy, List.length_flatMap]
  simp only [List.length_map, List.map_const', List.sum_replicate_nat]
  exact Nat.mul_comm _ _

/-- The blocks of an area start at the points of the aligned area at multiples of eight, unless
the area is empty; the aligned area need not be empty then. -/
theorem mem_blocks_iff_mem_aligned {u v : UInt16} :
    (u, v) ∈ a.blocks ↔
      ¬ a.IsEmpty ∧ (8 ∣ u.toNat ∧ 8 ∣ v.toNat) ∧ (u, v) ∈ a.aligned := by
  rw [mem_blocks_iff]
  constructor
  · rintro ⟨x, y, hmem, hx, hy⟩
    have hempty := not_isEmpty_of_mem hmem
    obtain ⟨hwe, hns⟩ := edges_le hempty
    obtain ⟨hu, hcolumn⟩ := (exists_blockStart_eq_iff hwe).mp ⟨x, hmem.1, hx⟩
    obtain ⟨hv, hrow⟩ := (exists_blockStart_eq_iff hns).mp ⟨y, hmem.2, hy⟩
    exact ⟨hempty, ⟨hu, hv⟩, hcolumn, hrow⟩
  · rintro ⟨hempty, ⟨hu, hv⟩, hcolumn, hrow⟩
    obtain ⟨hwe, hns⟩ := edges_le hempty
    obtain ⟨x, hxmem, hx⟩ := (exists_blockStart_eq_iff hwe).mpr ⟨hu, hcolumn⟩
    obtain ⟨y, hymem, hy⟩ := (exists_blockStart_eq_iff hns).mpr ⟨hv, hrow⟩
    exact ⟨x, y, ⟨hxmem, hymem⟩, hx, hy⟩

theorem nodup_blocks (a : Area) : a.blocks.Nodup := (pairwise_blocks a).nodup

end Area

end TileAtlas
