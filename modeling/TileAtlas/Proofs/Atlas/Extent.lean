import Mathlib.Data.Set.Card
import TileAtlas.Proofs.Atlas.Survey

/-!
How far a search of an area goes, measured in blocks.

Three things have to come to the same number: the blocks of the points in an
area, the differences of its edges once these are moved to the starts of their
blocks, and the stops of a sweep, which counts with numbers that can run past
the edge of the map. The list of blocks stands between them. An area whose
edges are out of order has no blocks, and the sweep sees that before the edges
are moved, since they may be in order afterwards. A search comes across as many
leaves as there are stops exactly if no block is without one.
-/

namespace TileAtlas

theorem Area.encard_blocks (a : Area) :
    {b | ∃ x y, (x, y) ∈ a ∧ (blockStart x, blockStart y) = b}.encard = a.blockCount := by
  have hset : {b | ∃ x y, (x, y) ∈ a ∧ (blockStart x, blockStart y) = b} =
      (a.blocks.toFinset : Set (UInt16 × UInt16)) := by
    ext ⟨u, v⟩
    rw [Set.mem_ofPred_eq, List.coe_toFinset, Set.mem_ofPred_eq, mem_blocks_iff]
    simp only [Prod.mk.injEq]
  rw [hset, Set.encard_coe_eq_coe_finsetCard, List.toFinset_card_of_nodup (nodup_blocks a),
    length_blocks]

namespace Quadtree

variable {τ κ : Type} {t : Quadtree τ κ} {area : Area}

theorem Sound.le_of_mem_hops {hops : List Hop} (hs : t.Sound) (h : t.sweep area = .ok hops)
    {hop : Hop} (hmem : hop ∈ hops) :
    hop.x ≤ area.aligned.east.toNat ∧ hop.y ≤ area.aligned.south.toNat := by
  obtain rfl := Except.ok.inj (h.symm.trans (hs.sweep_ok area))
  obtain ⟨⟨u, v⟩, hblock, rfl⟩ := List.mem_map.mp hmem
  obtain ⟨-, -, hcolumn, hrow⟩ := Area.mem_blocks_iff_mem_aligned.mp hblock
  exact ⟨UInt16.le_iff_toNat_le.mp hcolumn.2, UInt16.le_iff_toNat_le.mp hrow.2⟩

theorem length_entries_le (t : Quadtree τ κ) (area : Area) :
    (t.entries area).length ≤ area.blockCount := by
  rw [← Area.length_blocks]
  exact List.length_filterMap_le _ _

theorem Sound.length_entries_eq_iff (hs : t.Sound) :
    (t.entries area).length = area.blockCount ↔
      ∀ x y, (x, y) ∈ area → ∃ id, t.locate x y = .ok (some id) := by
  have hcovered : ∀ x y, (∃ id, t.locate x y = .ok (some id)) ↔ (t.lookup? x y).isSome := by
    intro x y
    rw [hs.locate_eq, ← Option.isSome_map (f := Prod.fst), Option.isSome_iff_exists]
    simp only [Except.ok.injEq]
  rw [← Area.length_blocks, entries, List.filterMap_length_eq_length]
  constructor
  · intro h x y hmem
    rw [locate_congr (blockStart_blockStart x).symm (blockStart_blockStart y).symm, hcovered]
    exact h (blockStart x, blockStart y) (Area.mem_blocks_iff.mpr ⟨x, y, hmem, rfl, rfl⟩)
  · rintro h ⟨u, v⟩ hblock
    obtain ⟨x, y, hmem, rfl, rfl⟩ := Area.mem_blocks_iff.mp hblock
    rw [← hcovered, locate_congr (blockStart_blockStart x) (blockStart_blockStart y)]
    exact h x y hmem

end Quadtree

namespace Atlas

variable {τ κ : Type} {a : Atlas τ κ}

/-- The blocks of an area, as they are counted, gone through and found in an atlas. -/
structure Spans (a : Atlas τ κ) (area : Area) : Prop where
  count : {b | ∃ x y, (x, y) ∈ area ∧ (blockStart x, blockStart y) = b}.encard = area.blockCount
  inverted : area.IsEmpty → area.blockCount = 0
  /-- The blocks of the points in an area start at the multiples of eight in the aligned area,
  unless the area is inverted; then it has no points, whatever there is in the aligned area. -/
  starts (u v : UInt16) :
    (∃ x y, (x, y) ∈ area ∧ (blockStart x, blockStart y) = (u, v)) ↔
      ¬ area.IsEmpty ∧ (8 ∣ u.toNat ∧ 8 ∣ v.toNat) ∧ (u, v) ∈ area.aligned
  /-- The edges that are subtracted from one another to count blocks are in order. -/
  ordered : ¬ area.IsEmpty →
    area.aligned.west ≤ area.aligned.east ∧ area.aligned.north ≤ area.aligned.south
  /-- The sweep goes through, with one stop for each block. What it looks up from the root on its
  way to the east or to the south is always on the map. -/
  sweep : ∃ hops, a.tree.sweep area = .ok hops ∧ hops.length = area.blockCount ∧
    ∀ hop ∈ hops,
      (hop.x + 8 ≤ area.aligned.east.toNat → hop.x + 8 < UInt16.size ∧ hop.y < UInt16.size) ∧
        (hop.y + 8 ≤ area.aligned.south.toNat → hop.x < UInt16.size ∧ hop.y + 8 < UInt16.size)
  leaves : ∃ leaves, (a.view area).leaves = .ok leaves ∧ leaves.length ≤ area.blockCount ∧
    (leaves.length = area.blockCount ↔
      ∀ x y, (x, y) ∈ area → ∃ id, a.leafAt? x y = .ok (some id))

theorem spans_of_sound (hs : a.tree.Sound) (area : Area) : a.Spans area where
  count := area.encard_blocks
  inverted h := if_pos h
  starts u v := by
    rw [← Area.mem_blocks_iff_mem_aligned, Area.mem_blocks_iff]
    simp only [Prod.mk.injEq]
  ordered h := by
    obtain ⟨hwe, hns⟩ := Area.edges_le h
    exact ⟨blockStart_mono hwe, blockStart_mono hns⟩
  sweep := by
    refine ⟨_, hs.sweep_ok area, by rw [List.length_map, Area.length_blocks], fun hop hmem => ?_⟩
    obtain ⟨hx, hy⟩ := hs.le_of_mem_hops (hs.sweep_ok area) hmem
    have heast := area.aligned.east.toNat_lt
    have hsouth := area.aligned.south.toNat_lt
    simp only [UInt16.size]
    omega
  leaves := ⟨_, hs.visit_ok area, a.tree.length_entries_le area, hs.length_entries_eq_iff⟩

/-- After every run of edits, the blocks of every area are counted right, and a
search of the area goes to each of them once. -/
theorem replay_spans [Creature κ] (edits : List (Edit τ κ)) :
    ∃ h, ({} : History τ κ).replay edits = .ok h ∧ ∀ area, h.atlas.Spans area := by
  obtain ⟨h, hreplay, hs⟩ := History.replay_sound edits
  exact ⟨h, hreplay, spans_of_sound hs⟩

end Atlas

end TileAtlas
