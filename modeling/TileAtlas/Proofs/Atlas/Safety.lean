import TileAtlas.Proofs.Atlas.Alarm
import TileAtlas.Proofs.Atlas.Counting
import TileAtlas.Proofs.Quadtree.Shape

/-!
Nothing goes wrong.

An operation ends in a fault where a slot names something that does not exist,
where a leaf sits in a slot above the last depth, or where a path is used up
too early. None of this happens in an atlas that was built by edits, because
its tree has the right shape. What is looked up or made is then the leaf of the
block in question.

Assertions are another matter: whether one fails depends on what callers say
about who is where. But checking them meets no fault either.
-/

namespace TileAtlas

namespace Atlas

variable {τ κ : Type} [Creature κ] {a : Atlas τ κ}

/-- Whatever is done with an atlas, it ends without a fault. -/
structure Safe (a : Atlas τ κ) : Prop where
  proper : a.tree.Proper
  /-- Looking up a block ends with its leaf, or with nothing. -/
  locate (x y : UInt16) : ∃ found, a.leafAt? x y = .ok found ∧
    ∀ id ∈ found, ∃ l, a.leaf? id = some l ∧ l.x = blockStart x ∧ l.y = blockStart y
  /-- Making a leaf for a block ends with the leaf of that block, in a tree of the right shape. -/
  plant (x y : UInt16) : ∃ p, a.tree.plant x y = .ok p ∧ p.tree.Proper ∧
    ∃ l, p.tree.leaf p.leaf = .ok l ∧ l.x = blockStart x ∧ l.y = blockStart y
  tile (p : Location) : ∃ tile, a.tile? p = .ok tile
  leaves (area : Area) (kinds : KindSet) :
    ∃ visited, View.leaves { atlas := a, area, kinds } = .ok visited
  search (area : Area) (kinds : KindSet) {m : Type → Type} [Monad m] (test : κ → m Bool) :
    ∃ found, View.collect { atlas := a, area, kinds } test = .ok found
  apply (e : Edit τ κ) : ∃ step, a.apply e = .ok step
  alarm (e : Edit τ κ) : ∃ alarm, a.alarm? e = .ok alarm
  /-- The number of creatures is not zero when one is taken off. -/
  members [Std.TransOrd κ] (tree : Quadtree τ κ) (id : LeafId) (c : κ) (b : Atlas τ κ) :
    (tree = a.tree ∨ ∃ x y r, a.tree.plant x y = .ok r ∧ r.tree = tree) →
      { a with tree }.removeMember id c = .ok (b, true) → b.members + 1 = a.members

/-- After every run of edits the tree has the right shape, and whatever is
done next goes through. -/
theorem replay_safe (edits : List (Edit τ κ)) :
    ∃ h, ({} : History τ κ).replay edits = .ok h ∧ h.atlas.Safe := by
  obtain ⟨h, hreplay, hs⟩ := History.replay_sound edits
  refine ⟨h, hreplay, ?_⟩
  constructor
  case proper => exact hs.proper
  case locate =>
    intro x y
    obtain ⟨found, hfound⟩ := hs.locate_ok x y
    refine ⟨found, hfound, fun id hid => ?_⟩
    exact (reaches_iff_of_sound hs).mp (hid ▸ hfound)
  case plant =>
    intro x y
    obtain ⟨p, hplant, hp⟩ := hs.plant_rooted x y
    exact ⟨p, hplant, hp.sound.proper, hp.sound.locate_eq_some_iff.mp hp.locate⟩
  case tile =>
    intro p
    exact ⟨_, tile?_eq hs p⟩
  case leaves =>
    intro area kinds
    exact ⟨_, hs.visit_ok area⟩
  case search =>
    intro area kinds m _ test
    let v : View τ κ := { atlas := h.atlas, area, kinds }
    exact ⟨_, by rw [View.collect, View.offered_ok (v := v) hs]; rfl⟩
  case apply =>
    intro e
    obtain ⟨step, hstep, -⟩ := apply_ok hs e
    exact ⟨step, hstep⟩
  case alarm => exact alarm?_ok hs
  case members =>
    intro _ tree id c b htree hremove
    obtain ⟨h', hreplay', htallied⟩ := replay_tallied edits
    obtain rfl := Except.ok.inj (hreplay.symm.trans hreplay')
    exact htallied.members_of_ended htree hremove

end Atlas

end TileAtlas
