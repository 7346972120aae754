import TileAtlas.Atlas.View
import TileAtlas.Proofs.Atlas.Topology
import TileAtlas.Proofs.Quadtree.Sweep

/-!
What a view takes in.

A view follows links where it can. That it takes in the leaves which looking
up block after block would find, in the same order, is a matter of the links
being right; so it holds of the atlases that edits lead to.
-/

namespace TileAtlas

namespace Atlas

variable {τ κ : Type} [Creature κ]

/-- After every run of edits, a view of any area takes in what a survey from
the root takes in: the leaves whose blocks hold a point of the area, row by
row from the north and each row from the west. -/
theorem replay_view_leaves (edits : List (Edit τ κ)) :
    ∃ h, ({} : History τ κ).replay edits = .ok h ∧
      ∀ (area : Area) (kinds : KindSet), ∃ leaves,
        View.leaves { atlas := h.atlas, area, kinds } = .ok leaves ∧
        h.atlas.tree.survey area = .ok leaves ∧
        leaves.Pairwise (fun e f => e.2.y < f.2.y ∨ e.2.y = f.2.y ∧ e.2.x < f.2.x) ∧
        ∀ id l, (id, l) ∈ leaves ↔ h.atlas.leaf? id = some l ∧
          ∃ x y, (x, y) ∈ area ∧ blockStart x = l.x ∧ blockStart y = l.y := by
  obtain ⟨h, hreplay, hs⟩ := History.replay_sound edits
  refine ⟨h, hreplay, fun area kinds => ?_⟩
  refine ⟨_, hs.visit_ok area, hs.survey_ok area, hs.pairwise_entries area, fun id l => ?_⟩
  rw [hs.mem_entries_iff, leaf?_eq_some_iff]

end Atlas

end TileAtlas
