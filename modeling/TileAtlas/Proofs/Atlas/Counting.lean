import TileAtlas.Proofs.Atlas.Finding
import TileAtlas.Proofs.Atlas.Tiling
import TileAtlas.Proofs.Members
import TileAtlas.Proofs.Quadtree.Leaves
import TileAtlas.Proofs.TileCount

/-!
The counts of an atlas.

The number of creatures is kept alongside the tree and adjusted by one at a
time, in several places and only where a set has really changed; the tiles are
counted anew each time. Both are right after every run of edits, and need
neither callers who know who is where nor an order that tells all handles
apart. For creatures the invariant is `Tallied`: the number is the sum of the
sizes of the sets. It is enough to follow one creature in and out of one
block, since every edit is made of that.
-/

namespace TileAtlas

def Area.whole : Area := ⟨0, 0, 65535, 65535⟩

theorem Area.mem_whole (x y : UInt16) : (x, y) ∈ Area.whole :=
  ⟨⟨UInt16.zero_le, Nat.le_of_lt_succ x.toNat_lt⟩, UInt16.zero_le, Nat.le_of_lt_succ y.toNat_lt⟩

namespace Quadtree

variable {τ κ : Type} {t : Quadtree τ κ}

def headcount (t : Quadtree τ κ) : Nat := t.total fun l => l.roster.creatures.size

theorem tileCount_eq_total (t : Quadtree τ κ) : t.tileCount = t.total fun l => l.tiles.count := by
  rw [tileCount, total, ← Array.foldl_toList, ← List.foldl_map (g := fun m k => m + k),
    ← List.sum_eq_foldl]

theorem Sound.perm_entries_whole (hs : t.Sound) : (t.entries .whole).Perm t.namedLeaves := by
  rw [List.perm_ext_iff_of_nodup (hs.nodup_entries .whole) hs.nodup_namedLeaves]
  rintro ⟨id, l⟩
  rw [hs.mem_entries_iff, hs.mem_namedLeaves_iff]
  constructor
  · rintro ⟨hl, -⟩
    exact hl
  · intro hl
    obtain ⟨hx, hy⟩ := hs.aligned hl
    exact ⟨hl, l.x, l.y, Area.mem_whole _ _, hx, hy⟩

end Quadtree

namespace Atlas

variable {τ κ : Type} {a b : Atlas τ κ}

/-! ### Creatures -/

section Creatures

variable [Creature κ]

/-- The sets of all blocks are in order, and the number kept alongside the
tree is that of the memberships in it. -/
structure Tallied (a : Atlas τ κ) : Prop where
  sound : a.tree.Sound
  sorted (u v : UInt16) : (a.tree.body u v).roster.Sorted
  members : a.members = a.tree.headcount

theorem tallied_empty : (∅ : Atlas τ κ).Tallied where
  sound := Quadtree.sound_empty
  sorted u v := by
    show ((∅ : Quadtree τ κ).body u v).roster.Sorted
    rw [Quadtree.body_empty]
    exact Roster.sorted_empty
  members := rfl

namespace Tallied

open Quadtree

variable {p q : Location} {c : κ} {e : Edit τ κ}

theorem plant (h : a.Tallied) {x y : UInt16} {r : Planting τ κ}
    (hplant : a.tree.plant x y = .ok r) : { a with tree := r.tree }.Tallied := by
  obtain ⟨r', hr', hrooted⟩ := h.sound.plant_rooted x y
  obtain rfl := Except.ok.inj (hr'.symm.trans hplant)
  refine ⟨hrooted.sound, fun u v => ?_, h.members.trans ?_⟩
  · rw [hrooted.body]
    exact h.sorted u v
  · exact (h.sound.total_plant hplant (fun _ => rfl) fun _ _ => rfl).symm

theorem amend (h : a.Tallied) {tree : Quadtree τ κ} {f : Leaf τ κ → Leaf τ κ}
    (hamends : Amends a.tree tree p f) (hf : ∀ l, (f l).roster = l.roster) :
    { a with tree }.Tallied := by
  have hroster : ∀ u v, (tree.body u v).roster = (a.tree.body u v).roster := by
    intro u v
    rw [hamends.body]
    split
    · exact hf _
    · rfl
  refine ⟨hamends.sound, fun u v => ?_, h.members.trans ?_⟩
  · rw [hroster]
    exact h.sorted u v
  · have htotal := hamends.total_add h.sound (f := fun l => l.roster.creatures.size) fun _ => rfl
    simp only [hroster] at htotal
    exact (Nat.add_right_cancel htotal).symm

variable [Std.TransOrd κ]

theorem welcome (h : a.Tallied) (hamends : Amends a.tree b.tree p (·.welcome c)) {added : Bool}
    (hadded : added = true ↔ c ∉ (a.tree.body p.x p.y).roster.creatures)
    (hmembers : b.members = a.members + added.toNat) : b.Tallied := by
  refine ⟨hamends.sound, fun u v => ?_, ?_⟩
  · rw [hamends.body]
    split
    · exact (h.sorted u v).welcome c
    · exact h.sorted u v
  · have htotal := hamends.total_add h.sound (f := fun l => l.roster.creatures.size) fun _ => rfl
    have hsize := Roster.size_welcome hadded
    rw [hamends.body, if_pos ⟨rfl, rfl⟩] at htotal
    rw [hmembers, h.members, headcount, headcount]
    simp only [Leaf.welcome, Leaf.setRoster] at htotal
    omega

theorem dismiss (h : a.Tallied) (hamends : Amends a.tree b.tree p (·.dismiss c)) {removed : Bool}
    (hremoved : removed = true ↔ c ∈ (a.tree.body p.x p.y).roster.creatures)
    (hmembers : b.members = a.members - removed.toNat) :
    b.Tallied ∧ b.members + removed.toNat = a.members := by
  have htotal := hamends.total_add h.sound (f := fun l => l.roster.creatures.size) fun _ => rfl
  have hsize := (h.sorted p.x p.y).size_dismiss hremoved
  rw [hamends.body, if_pos ⟨rfl, rfl⟩] at htotal
  simp only [Leaf.dismiss, Leaf.setRoster] at htotal
  have hcount := h.members
  rw [headcount] at hcount
  refine ⟨⟨hamends.sound, fun u v => ?_, ?_⟩, by omega⟩
  · rw [hamends.body]
    split
    · exact (h.sorted u v).dismiss c
    · exact h.sorted u v
  · rw [hmembers, headcount]
    omega

/-- No membership ends at a count of zero. -/
theorem members_of_removeMember (h : a.Tallied) {id : LeafId}
    (hremove : a.removeMember id c = .ok (b, true)) : b.members + 1 = a.members := by
  cases hleaf : a.tree.leaf id with
  | error fault =>
      rw [removeMember, hleaf] at hremove
      cases hremove
  | ok l =>
      obtain ⟨a₁, removed, hok, hremoved, hmembers, hamends⟩ :=
        removeMember_ok h.sound (p := ⟨l.x, l.y, 0⟩) (h.sound.locate_corner hleaf) c
      obtain ⟨rfl, rfl⟩ := Prod.mk.inj (Except.ok.inj (hok.symm.trans hremove))
      exact (h.dismiss hamends hremoved hmembers).2

theorem members_of_ended (h : a.Tallied) {tree : Quadtree τ κ}
    (htree : tree = a.tree ∨ ∃ x y r, a.tree.plant x y = .ok r ∧ r.tree = tree) {id : LeafId}
    (hremove : { a with tree }.removeMember id c = .ok (b, true)) : b.members + 1 = a.members := by
  rcases htree with rfl | ⟨x, y, r, hplant, rfl⟩
  · exact h.members_of_removeMember hremove
  · exact (h.plant hplant).members_of_removeMember hremove

theorem apply (h : a.Tallied) (e : Edit τ κ) :
    ∃ step, a.apply e = .ok step ∧ step.atlas.Tallied := by
  have hs := h.sound
  cases e with
  | putTile p tile =>
      by_cases hfloor : p.floor.toNat < floorCount
      · obtain ⟨q, tree, hplant, -, hput, hamends⟩ := putTile_ok hs p tile hfloor
        exact ⟨_, Step.map_ok hput Outcome.placed, (h.plant hplant).amend hamends fun _ => rfl⟩
      · exact ⟨_, Step.map_ok (putTile_refused p tile hfloor) Outcome.placed, h⟩
  | clearTile p =>
      obtain ⟨tree, hclear, hamends⟩ := clearTile_ok hs p
      exact ⟨_, Step.map_ok hclear Outcome.cleared, h.amend hamends fun _ => rfl⟩
  | enter p c =>
      obtain ⟨q, b, added, hplant, hq, henter, hadded, hmembers, hamends⟩ := enter_ok hs p c
      rw [← hq.body] at hadded
      exact ⟨_, Step.map_ok henter Outcome.entered,
        (h.plant hplant).welcome hamends hadded hmembers⟩
  | leave p c =>
      obtain ⟨b, removed, hleave, hremoved, hmembers, hamends⟩ := leave_ok hs p c
      exact ⟨_, Step.map_ok hleave Outcome.left, (h.dismiss hamends hremoved hmembers).1⟩
  | move p q c =>
      by_cases hsettled : a.tree.covers p.x p.y = true ∧ p.SameBlock q
      · exact ⟨_, Step.map_ok (move_settled hs hsettled.1 hsettled.2 c) fun _ => Outcome.moved, h⟩
      · obtain ⟨r, a₁, a₂, removed, added, hplant, hr, hmove, hremoved, hadded, hmembers,
          hamends₁, hamends₂⟩ := move_ok hs hsettled c
        rw [← hr.body] at hremoved
        -- Halfway the creature is let go and not yet let in.
        let b : Atlas τ κ := { tree := a₁.tree, members := a.members - removed.toNat }
        have hhalf : b.Tallied := ((h.plant hplant).dismiss (b := b) hamends₁ hremoved rfl).1
        exact ⟨_, Step.map_ok hmove fun _ => Outcome.moved,
          hhalf.welcome hamends₂ hadded hmembers⟩

end Tallied

theorem replay_tallied [Std.TransOrd κ] (edits : List (Edit τ κ)) :
    ∃ h, ({} : History τ κ).replay edits = .ok h ∧ h.atlas.Tallied := by
  refine History.replay_induction (P := fun _ h => h.atlas.Tallied) tallied_empty ?_
  intro past e h _ htallied
  obtain ⟨step, hstep, htallied'⟩ := htallied.apply e
  exact ⟨_, History.extend_of_apply hstep, htallied'⟩

end Creatures

/-! ### Tiles -/

theorem encard_setOf_mem_blocks {P : Location → Prop} {n : UInt16 × UInt16 → Nat}
    {blocks : List (UInt16 × UInt16)} (hnodup : blocks.Nodup)
    (hn : ∀ c ∈ blocks, {p : Location | (blockStart p.x, blockStart p.y) = c ∧ P p}.encard = n c) :
    {p : Location | (blockStart p.x, blockStart p.y) ∈ blocks ∧ P p}.encard =
      ((blocks.map n).sum : Nat) := by
  induction blocks with
  | nil => simp
  | cons c blocks ih =>
      obtain ⟨hc, hblocks⟩ := List.nodup_cons.mp hnodup
      have hsplit : {p : Location | (blockStart p.x, blockStart p.y) ∈ c :: blocks ∧ P p} =
          {p : Location | (blockStart p.x, blockStart p.y) = c ∧ P p} ∪
            {p : Location | (blockStart p.x, blockStart p.y) ∈ blocks ∧ P p} := by
        ext p
        simp only [List.mem_cons, Set.mem_ofPred_eq, Set.mem_union, or_and_right]
      rw [hsplit, Set.encard_union_eq, hn c List.mem_cons_self,
        ih hblocks fun d hd => hn d (List.mem_cons_of_mem c hd), List.map_cons, List.sum_cons,
        Nat.cast_add]
      rw [Set.disjoint_left]
      rintro p ⟨rfl, -⟩ ⟨hmem, -⟩
      exact hc hmem

theorem encard_tiles (hs : a.tree.Sound) :
    {p | ∃ tile, a.tile? p = .ok (some tile)}.encard = a.tree.tileCount := by
  have htiles : {p | ∃ tile, a.tile? p = .ok (some tile)} =
      {p : Location | (blockStart p.x, blockStart p.y) ∈ a.tree.corners ∧
        ((a.tree.body p.x p.y).tiles.get? p.x p.y p.floor).isSome} := by
    ext p
    simp only [tile?_eq hs, Except.ok.injEq, Set.mem_ofPred_eq, ← Option.isSome_iff_exists]
    refine (and_iff_right_of_imp fun hsome => ?_).symm
    -- Without a leaf there is no tile.
    by_contra hmem
    rw [Quadtree.body_of_none (hs.locate_of_not_mem_corners hmem)] at hsome
    rw [show (Leaf.ofPoint p.x p.y : Leaf τ κ).tiles = ∅ from rfl, TileStore.get?_empty] at hsome
    cases hsome
  rw [htiles, Quadtree.tileCount_eq_total, hs.total_eq fun _ => rfl]
  refine encard_setOf_mem_blocks hs.nodup_corners fun c hc => ?_
  have hcorner := hs.blockStart_of_mem_corners hc
  rw [← TileStore.encard_isSome_get? _ hcorner]
  congr 1
  ext p
  refine and_congr_right fun hp => ?_
  obtain ⟨hx, hy⟩ := Prod.ext_iff.mp (hp.trans hcorner.symm)
  rw [Quadtree.body_congr hx hy]

/-! ### Runs -/

section Runs

variable [Creature κ]

structure Counted (a : Atlas τ κ) : Prop where
  /-- The number of creatures is the sum of the sizes of the sets of all creatures. -/
  creatures : a.counts.creatures = (a.leaves.map fun e => e.2.roster.creatures.size).sum
  /-- A search of the whole map for everybody finds as many. -/
  found : ∃ found : List κ, a.find (m := Id) .whole (fun _ => pure true) = .ok (pure found) ∧
    found.length = a.counts.creatures
  /-- There is one to be taken off the number whenever a membership ends, be it at once or, as in a
  move, after a leaf was planted. -/
  ended (tree : Quadtree τ κ) (id : LeafId) (c : κ) (b : Atlas τ κ) :
    (tree = a.tree ∨ ∃ x y r, a.tree.plant x y = .ok r ∧ r.tree = tree) →
      { a with tree }.removeMember id c = .ok (b, true) →
        b.counts.creatures + 1 = a.counts.creatures
  /-- The number of tiles is that of the locations with a tile. -/
  tiles : {p | ∃ tile, a.tile? p = .ok (some tile)}.encard = a.counts.tiles

theorem Tallied.headcount_eq (h : a.Tallied) :
    a.members = (a.leaves.map fun e => e.2.roster.creatures.size).sum := by
  rw [h.members, Quadtree.headcount, Quadtree.total, ← Quadtree.map_snd_namedLeaves, List.map_map]
  rfl

variable [Std.TransOrd κ]

theorem counted_of_tallied (h : a.Tallied) : a.Counted where
  creatures := h.headcount_eq
  found := by
    let v : View τ κ := { atlas := a, area := .whole }
    refine ⟨_, View.collect_pure (View.offered_ok (v := v) h.sound) fun _ => true, ?_⟩
    rw [List.filter_true, List.length_flatMap]
    simp only [v, Roster.members_all]
    exact (h.sound.perm_entries_whole.map _).sum_eq.trans h.headcount_eq.symm
  ended _ _ _ _ htree hremove := h.members_of_ended htree hremove
  tiles := encard_tiles h.sound

/-- After every run of edits the counts are right, whether or not the callers
were right about who is where, and whatever handles count as the same. -/
theorem replay_counted (edits : List (Edit τ κ)) :
    ∃ h, ({} : History τ κ).replay edits = .ok h ∧ h.atlas.Counted := by
  obtain ⟨h, hreplay, htallied⟩ := replay_tallied edits
  exact ⟨h, hreplay, counted_of_tallied htallied⟩

/-- Handles that differ in kind only count as the same creature: the monster is
let go as a player and comes back as an npc. Someone enters twice, and the move
is from a place where nobody was. -/
def mixups : List (Edit Nat (Handle .idOnly)) :=
  [.enter ⟨6, 6, 0⟩ ⟨.monster, 1⟩, .enter ⟨7, 7, 1⟩ ⟨.npc, 1⟩, .leave ⟨6, 6, 0⟩ ⟨.player, 1⟩,
    .enter ⟨6, 6, 0⟩ ⟨.npc, 1⟩, .putTile ⟨9, 6, 15⟩ 4, .putTile ⟨9, 6, 16⟩ 5,
    .move ⟨30, 6, 0⟩ ⟨8, 6, 0⟩ ⟨.player, 1⟩]

theorem counted_after_mixups :
    Std.TransOrd (Handle .idOnly) ∧
      ∃ h, ({} : History Nat (Handle .idOnly)).replay mixups = .ok h ∧ h.atlas.Counted :=
  ⟨inferInstance, replay_counted mixups⟩

end Runs

end Atlas

end TileAtlas
