import TileAtlas.Proofs.Atlas.Lifecycle
import TileAtlas.Proofs.Quadtree.Stems

/-!
How many branches and leaves an atlas can have.

Leaves that lie in the same square of the map share the branch of that square,
and only squares with a leaf in them have a branch. There are not many squares
of one size, and there are twelve sizes between the whole map and a block, so
the number of branches is bounded by the map as well as by the leaves. Either
bound is far below the number of names. So no name is given out twice, which
must hold while a path grows as much as when it has grown.
-/

namespace TileAtlas

theorem sum_card_squares_le (blocks : List (UInt16 × UInt16)) :
    ∑ n ∈ Finset.Icc 1 12, (squares n blocks).card ≤ (4 ^ 13 - 4) / 3 := by
  calc ∑ n ∈ Finset.Icc 1 12, (squares n blocks).card
    _ ≤ ∑ n ∈ Finset.Icc 1 12, 4 ^ n := by
        refine Finset.sum_le_sum fun n hn => card_squares_le_four_pow ?_ blocks
        exact Nat.le_trans (Finset.mem_Icc.mp hn).2 (by decide)
    _ = (4 ^ 13 - 4) / 3 := by decide

theorem sum_card_squares_le_length (blocks : List (UInt16 × UInt16)) :
    ∑ n ∈ Finset.Icc 1 12, (squares n blocks).card ≤ 12 * blocks.length := by
  calc ∑ n ∈ Finset.Icc 1 12, (squares n blocks).card
    _ ≤ ∑ n ∈ Finset.Icc 1 12, blocks.length :=
        Finset.sum_le_sum fun n _ => card_squares_le_length n blocks
    _ = 12 * blocks.length := by rw [Finset.sum_const, Nat.card_Icc, smul_eq_mul]

namespace Atlas

variable {τ κ : Type} {a : Atlas τ κ}

open Quadtree

def corners (a : Atlas τ κ) : List (UInt16 × UInt16) := a.leaves.map fun e => (e.2.x, e.2.y)

theorem corners_eq : a.corners = a.tree.corners := map_corner_leaves

/-- An atlas has no more branches than its leaves need, and enough names for
all of them. -/
structure Economical (a : Atlas τ κ) : Prop where
  /-- The branches are the proper beginnings of the paths to the leaves. -/
  stems : ∃ address, Charts a.tree address ∧
    Set.BijOn (fun i => address (.branch (.ofIndex i))) (Set.Iio a.counts.branches)
      (stems a.corners)
  /-- There is a branch for each square with a leaf in it, over all sizes of squares. -/
  branches : a.counts.branches = ∑ n ∈ Finset.Icc 1 12, (squares n a.corners).card
  /-- The largest squares have their branches in the root table. -/
  roots : a.tree.root.countP (· ≠ .vacant) = (squares 1 a.corners).card
  branches_le_leaves : a.counts.branches ≤ 12 * a.counts.leaves
  branches_le : a.counts.branches ≤ (4 ^ 13 - 4) / 3
  leaves_le : a.counts.leaves ≤ 2 ^ 26
  /-- The leaves are listed under the names of their places. -/
  listed (i : Nat) : i < a.counts.leaves → (LeafId.ofIndex i).index = i
  /-- Wherever growth passes, a branch or leaf made next gets the name of its place. -/
  named (x y : UInt16) (t : Quadtree τ κ) (table : Table) (rest : List Quadrant) :
    Passes a.tree .root (Path.ofPoint x y).toList t table rest →
      (∀ fresh, a.tree.grow fresh .root (Path.ofPoint x y).toList = t.grow fresh table rest) ∧
        (BranchId.ofIndex t.branches.size).index = t.branches.size ∧
        (LeafId.ofIndex t.leaves.size).index = t.leaves.size

theorem economical_of_sound (hs : a.tree.Sound) : a.Economical := by
  have hbranches : a.counts.branches = ∑ n ∈ Finset.Icc 1 12, (squares n a.corners).card := by
    rw [corners_eq]
    exact hs.size_branches
  have hleaves : a.corners.length = a.counts.leaves := by
    rw [corners_eq]
    exact length_corners
  constructor
  case stems =>
    rw [corners_eq]
    exact hs.exists_bijOn_stems
  case branches => exact hbranches
  case roots =>
    rw [corners_eq]
    exact hs.countP_root
  case branches_le_leaves =>
    rw [hbranches, ← hleaves]
    exact sum_card_squares_le_length _
  case branches_le =>
    rw [hbranches]
    exact sum_card_squares_le _
  case leaves_le => exact hs.leaves_size_le
  case listed =>
    intro i hi
    exact hs.index_ofIndex hi
  case named =>
    intro x y t table rest hpasses
    obtain ⟨address, hc, -⟩ := hs.charted
    have hlen : (address .root).length + (Path.ofPoint x y).toList.length = treeDepth := by
      rw [hc.root, List.length_nil, Nat.zero_add, Path.length_toList]
      rfl
    obtain ⟨-, hgrow, address', hc', -⟩ := hc.of_passes hasTable_root hlen hpasses
    exact ⟨hgrow, BranchId.index_ofIndex hc'.branches_size_lt,
      LeafId.index_ofIndex hc'.leaves_size_lt⟩

/-- After every run of edits the branches are those that the leaves share, and
there are names for more. -/
theorem replay_economical [Creature κ] (edits : List (Edit τ κ)) :
    ∃ h, ({} : History τ κ).replay edits = .ok h ∧ h.atlas.Economical := by
  obtain ⟨h, hreplay, hs⟩ := History.replay_sound edits
  exact ⟨h, hreplay, economical_of_sound hs⟩

end Atlas

end TileAtlas
