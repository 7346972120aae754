import TileAtlas.Proofs.Atlas.Topology

/-!
The tiles of an atlas, as a caller sees them.

To a caller there are no leaves, storeys or grids: a location has a tile or
it has none, and which of the two follows from the edits alone. `Edit.retile`
says what one edit makes of the tile at one location, and over a run of edits
only the last one about the tile there counts. Everything else that the edits
do to the tree, planting leaves on behalf of creatures included, does not show.
-/

namespace TileAtlas

/-! ### Edits of one tile -/

section Edits

variable {τ κ : Type} {p : Location} {tile : τ} {e : Edit τ κ} {past : List (Edit τ κ)}

def Edit.TilesAt (p : Location) : Edit τ κ → Prop
  | .putTile q _ => q = p
  | .clearTile q => q = p
  | .enter _ _ => False
  | .leave _ _ => False
  | .move _ _ _ => False

/-- What an edit makes of the tile at a location. A storey that holds no tiles
refuses them. -/
def Edit.retile (p : Location) (old : Option τ) : Edit τ κ → Option τ
  | .putTile q tile => if q = p ∧ q.floor.toNat < floorCount then some tile else old
  | .clearTile q => if q = p then none else old
  | .enter _ _ => old
  | .leave _ _ => old
  | .move _ _ _ => old

theorem Edit.retile_of_not_tilesAt (h : ¬ e.TilesAt p) (old : Option τ) :
    e.retile p old = old := by
  cases e with
  | putTile q tile => exact if_neg fun hq => h hq.1
  | clearTile q => exact if_neg h
  | enter q c => rfl
  | leave q c => rfl
  | move q r c => rfl

/-- Of the edits of a run that are about the tile at a location, the last one
puts down a certain tile. -/
def LastPut (p : Location) (tile : τ) (edits : List (Edit τ κ)) : Prop :=
  ∃ past rest, edits = past ++ .putTile p tile :: rest ∧ ∀ e ∈ rest, ¬ e.TilesAt p

theorem not_lastPut_nil : ¬ LastPut p tile ([] : List (Edit τ κ)) := by
  rintro ⟨past, rest, heq, -⟩
  simp at heq

theorem lastPut_concat_iff :
    LastPut p tile (past ++ [e]) ↔ e = .putTile p tile ∨ ¬ e.TilesAt p ∧ LastPut p tile past := by
  constructor
  · rintro ⟨before, rest, heq, hrest⟩
    -- The run ends with the edit in question or with one that came after it.
    rcases List.eq_nil_or_concat rest with rfl | ⟨rest, d, rfl⟩
    · exact .inl (List.singleton_inj.mp (List.append_inj' heq rfl).2)
    · rw [List.concat_eq_append] at heq hrest
      rw [← List.cons_append, ← List.append_assoc] at heq
      obtain ⟨hpast, hlast⟩ := List.append_inj' heq rfl
      obtain rfl := List.singleton_inj.mp hlast
      refine .inr ⟨hrest e (by simp), before, rest, hpast, fun d hd => hrest d ?_⟩
      exact List.mem_append_left _ hd
  · rintro (rfl | ⟨he, before, rest, rfl, hrest⟩)
    · exact ⟨past, [], rfl, nofun⟩
    · refine ⟨before, rest ++ [e], by simp, fun d hd => ?_⟩
      rcases List.mem_append.mp hd with hd | hd
      · exact hrest d hd
      · rw [List.mem_singleton.mp hd]
        exact he

/-- An edit changes the tile at a location in the way it changes which edit of
the tile there was the last. -/
theorem Edit.retile_eq_some_iff {old : Option τ}
    (h : ∀ tile, old = some tile ↔ p.floor.toNat < floorCount ∧ LastPut p tile past) :
    e.retile p old = some tile ↔
      p.floor.toNat < floorCount ∧ LastPut p tile (past ++ [e]) := by
  rw [lastPut_concat_iff]
  by_cases he : e.TilesAt p
  · cases e with
    | putTile q tile' =>
        obtain rfl : q = p := he
        by_cases hfloor : q.floor.toNat < floorCount
        · simp [retile, TilesAt, hfloor]
        · -- On such a storey there was no tile before.
          have hnone : old = none := by
            refine Option.eq_none_iff_forall_ne_some.mpr fun tile hold => ?_
            exact hfloor ((h tile).mp hold).1
          simp [retile, hfloor, hnone]
    | clearTile q =>
        obtain rfl : q = p := he
        simp [retile, TilesAt]
    | enter q c => exact absurd he id
    | leave q c => exact absurd he id
    | move q r c => exact absurd he id
  · have hput : e ≠ .putTile p tile := by
      rintro rfl
      exact he rfl
    simp [retile_of_not_tilesAt he, h, he, hput]

end Edits

/-! ### Tiles in bodies -/

section Bodies

variable {τ κ : Type} [Creature κ]

theorem Location.eq_iff_inBlock {p q : Location} :
    q = p ↔ q.InBlock p.x p.y ∧
      p.floor = q.floor ∧ offset p.x = offset q.x ∧ offset p.y = offset q.y := by
  constructor
  · rintro rfl
    exact ⟨⟨rfl, rfl⟩, rfl, rfl, rfl⟩
  · rintro ⟨hblock, hfloor, hx, hy⟩
    cases p
    cases q
    rw [mk.injEq]
    exact ⟨eq_of_blockStart_eq_of_offset_eq hblock.1 hx.symm,
      eq_of_blockStart_eq_of_offset_eq hblock.2 hy.symm, hfloor.symm⟩

theorem Edit.get?_amend (covers : UInt16 → UInt16 → Bool) (p : Location) (l : Leaf τ κ)
    (e : Edit τ κ) :
    (e.amend covers p.x p.y l).tiles.get? p.x p.y p.floor =
      e.retile p (l.tiles.get? p.x p.y p.floor) := by
  cases e with
  | putTile q tile =>
      simp only [amend, retile, Location.eq_iff_inBlock]
      by_cases hput : q.floor.toNat < floorCount ∧ q.InBlock p.x p.y
      · rw [dif_pos hput]
        refine (l.tiles.get?_set ..).trans (if_congr ?_ rfl rfl)
        rw [UInt8.toNat_inj, and_iff_right hput.2, and_iff_left hput.1]
      · rw [dif_neg hput, if_neg fun h => hput ⟨h.2, h.1.1⟩]
  | clearTile q =>
      simp only [amend, retile, Location.eq_iff_inBlock]
      by_cases hblock : q.InBlock p.x p.y
      · rw [if_pos hblock]
        refine (l.tiles.get?_clear ..).trans (if_congr ?_ rfl rfl)
        rw [and_iff_right hblock]
      · rw [if_neg hblock, if_neg fun h => hblock h.1]
  | enter q c =>
      rw [amend]
      split_ifs <;> rfl
  | leave q c =>
      rw [amend]
      split_ifs <;> rfl
  | move q r c =>
      rw [amend]
      split_ifs <;> rfl

end Bodies

namespace Atlas

variable {τ κ : Type} {a : Atlas τ κ}

theorem tile?_eq (hs : a.tree.Sound) (p : Location) :
    a.tile? p = .ok ((a.tree.body p.x p.y).tiles.get? p.x p.y p.floor) := by
  obtain ⟨found, hfound⟩ := hs.locate_ok p.x p.y
  cases found with
  | none =>
      rw [tile?, hfound, Quadtree.body_of_none hfound]
      exact congrArg Except.ok (TileStore.get?_empty ..).symm
  | some id =>
      obtain ⟨l, hl, -⟩ := hs.locate_eq_some_iff.mp hfound
      rw [tile?, hfound, Quadtree.body_of_some hfound hl]
      simp only [hl, bind, Except.bind]
      rfl

theorem tile?_empty (p : Location) : (∅ : Atlas τ κ).tile? p = .ok none := by
  rw [tile?_eq Quadtree.sound_empty]
  show Except.ok (((∅ : Quadtree τ κ).body p.x p.y).tiles.get? p.x p.y p.floor) = _
  rw [Quadtree.body_empty]
  exact congrArg Except.ok (TileStore.get?_empty ..)

/-- A leaf that is asked about any point answers for the point of its own
block that has the same position. -/
theorem exists_tile?_eq_of_leaf (hs : a.tree.Sound) {id : LeafId} {l : Leaf τ κ}
    (hl : a.leaf? id = some l) (x y : UInt16) (floor : UInt8) :
    ∃ p : Location, (blockStart p.x = l.x ∧ offset p.x = offset x) ∧
      (blockStart p.y = l.y ∧ offset p.y = offset y) ∧ p.floor = floor ∧
      a.tile? p = .ok (l.tiles.get? x y floor) := by
  obtain ⟨hx, hy⟩ := blockStart_corner hs hl
  obtain ⟨u, hu⟩ := exists_of_blockStart_of_offset hx x
  obtain ⟨v, hv⟩ := exists_of_blockStart_of_offset hy y
  have hid := (reaches_iff_of_sound hs).mpr ⟨l, hl, hu.1.symm, hv.1.symm⟩
  refine ⟨⟨u, v, floor⟩, hu, hv, rfl, ?_⟩
  rw [tile?_eq hs, Quadtree.body_of_some hid (leaf?_eq_some_iff.mp hl)]
  exact congrArg Except.ok (TileStore.get?_congr _ hu.2 hv.2 floor)

variable [Creature κ]

theorem tile?_apply (hs : a.tree.Sound) (e : Edit τ κ) :
    ∃ step, a.apply e = .ok step ∧ step.atlas.tree.Sound ∧
      ∀ p tile, a.tile? p = .ok tile → step.atlas.tile? p = .ok (e.retile p tile) := by
  obtain ⟨step, hstep, hs', hbody⟩ := apply_ok hs e
  refine ⟨step, hstep, hs', fun p tile htile => ?_⟩
  rw [tile?_eq hs, Except.ok.injEq] at htile
  rw [tile?_eq hs', hbody, Edit.get?_amend, htile]

/-! ### Runs -/

theorem replay_tile (edits : List (Edit τ κ)) :
    ∃ h, ({} : History τ κ).replay edits = .ok h ∧ h.atlas.tree.Sound ∧
      ∀ p, ∃ found, h.atlas.tile? p = .ok found ∧
        ∀ tile, found = some tile ↔ p.floor.toNat < floorCount ∧ LastPut p tile edits := by
  refine History.replay_induction (P := fun past h => h.atlas.tree.Sound ∧
    ∀ p, ∃ found, h.atlas.tile? p = .ok found ∧
      ∀ tile, found = some tile ↔ p.floor.toNat < floorCount ∧ LastPut p tile past) ?_ ?_
  · refine ⟨Quadtree.sound_empty, fun p => ⟨none, tile?_empty p, fun tile => ?_⟩⟩
    simp [not_lastPut_nil]
  · rintro past e h - ⟨hs, htile⟩
    obtain ⟨step, hstep, hs', hretile⟩ := tile?_apply hs e
    refine ⟨_, History.extend_of_apply hstep, hs', fun p => ?_⟩
    obtain ⟨found, hfound, hlast⟩ := htile p
    exact ⟨_, hretile p found hfound, fun tile => Edit.retile_eq_some_iff hlast⟩

/-- The tiles of an atlas are those that a run of edits has put down, and
edits of tiles and single leaves tell the same about them. -/
structure Tiled (a : Atlas τ κ) (edits : List (Edit τ κ)) : Prop where
  tile (p : Location) : ∃ found, a.tile? p = .ok found ∧
    ∀ tile, found = some tile ↔ p.floor.toNat < floorCount ∧ LastPut p tile edits
  /-- Clearing a location replies with the tile that is found there. -/
  cleared (p : Location) : ∃ step, a.clearTile p = .ok step ∧ a.tile? p = .ok step.reply
  /-- A tile is refused on a storey that holds no tiles, and only there; nothing happens then. -/
  put (p : Location) (tile : τ) : ∃ step, a.putTile p tile = .ok step ∧
    if p.floor.toNat < floorCount then ∃ id, step.reply = .ok id
    else step = { atlas := a, reply := .error (.floorOutOfRange p.floor), events := [] }
  /-- The tile at a location stays through every edit that is not about it. -/
  kept (e : Edit τ κ) (p : Location) : ¬ e.TilesAt p →
    ∃ step, a.apply e = .ok step ∧ step.atlas.tile? p = a.tile? p
  /-- A leaf that is asked about any point answers for the point of its own block that has the
  same position. -/
  leaf (id : LeafId) (l : Leaf τ κ) (x y : UInt16) (floor : UInt8) : a.leaf? id = some l →
    ∃ p : Location, (blockStart p.x = l.x ∧ offset p.x = offset x) ∧
      (blockStart p.y = l.y ∧ offset p.y = offset y) ∧ p.floor = floor ∧
      a.tile? p = .ok (l.tiles.get? x y floor)

/-- After every run of edits the tiles of an atlas are a map from locations,
in which the last edit of each tile counts. -/
theorem replay_tiled (edits : List (Edit τ κ)) :
    ∃ h, ({} : History τ κ).replay edits = .ok h ∧ h.atlas.Tiled edits := by
  obtain ⟨h, hreplay, hs, htile⟩ := replay_tile edits
  refine ⟨h, hreplay, { tile := htile, cleared := ?_, put := ?_, kept := ?_, leaf := ?_ }⟩
  · intro p
    obtain ⟨tree, hclear, -⟩ := clearTile_ok hs p
    exact ⟨_, hclear, tile?_eq hs p⟩
  · intro p tile
    split
    · rename_i hfloor
      obtain ⟨q, tree, -, -, hput, -⟩ := putTile_ok hs p tile hfloor
      exact ⟨_, hput, q.leaf, rfl⟩
    · rename_i hfloor
      exact ⟨_, putTile_refused p tile hfloor, rfl⟩
  · intro e p he
    obtain ⟨step, hstep, -, hretile⟩ := tile?_apply hs e
    obtain ⟨found, hfound, -⟩ := htile p
    refine ⟨step, hstep, ?_⟩
    rw [hretile p found hfound, hfound, Edit.retile_of_not_tilesAt he]
  · intro id l x y floor hl
    exact exists_tile?_eq_of_leaf hs hl x y floor

end Atlas

end TileAtlas
