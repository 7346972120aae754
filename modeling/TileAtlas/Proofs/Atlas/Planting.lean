import TileAtlas.Proofs.Atlas.Effect

/-!
What a new leaf changes.

Planting goes down the tree, makes tables on its way and then starts again from
the root, four times, to look for neighbours. From outside little of this can
be seen: the block has a leaf afterwards, every other block is led to where it
was led before, and of the leaves that were there only the neighbours to the
north and to the west are touched, and of these only the link that leads to the
block. Nothing need be known of how the links are wired. They are right before
and after, and a right link can only change where the block that it leads to
does.
-/

namespace TileAtlas

namespace Quadtree

variable {τ κ : Type} {t t' : Quadtree τ κ} {x y : UInt16}

/-- What planting a leaf for the block of a point comes to. -/
structure Establishes (t : Quadtree τ κ) (x y : UInt16) (p : Planting τ κ) : Prop where
  /-- The leaf is found from everywhere in the block, and from nowhere else. -/
  locate (u v : UInt16) : p.tree.locate u v =
    if blockStart u = blockStart x ∧ blockStart v = blockStart y then .ok (some p.leaf)
    else t.locate u v
  /-- A leaf that was there keeps what it has. Of its links the one to the south leads to the block
  if that is the next one there, the one to the east likewise, and else they do not change. -/
  old (id : LeafId) (l : Leaf τ κ) : t.leaf id = .ok l → ∃ m, p.tree.leaf id = .ok m ∧
    (m.x = l.x ∧ m.y = l.y) ∧ m.tiles = l.tiles ∧ m.roster = l.roster ∧
    m.south = (if l.x = blockStart x ∧ (blockStart y).toNat = l.y.toNat + 8 then some p.leaf
      else l.south) ∧
    m.east = (if (blockStart x).toNat = l.x.toNat + 8 ∧ l.y = blockStart y then some p.leaf
      else l.east)
  /-- A block without a leaf gets one, under the next name, and no other leaf is made. -/
  made : t.locate x y = .ok none →
    p.leaf = .ofIndex t.leaves.size ∧ p.tree.leaves.size = t.leaves.size + 1
  /-- A block that has a leaf keeps it, and the tree stays as it is. -/
  kept (id : LeafId) : t.locate x y = .ok (some id) → p = { tree := t, leaf := id, events := [] }
  /-- So nothing is changed by planting a leaf again, from wherever in the block. -/
  again (u v : UInt16) : blockStart u = blockStart x ∧ blockStart v = blockStart y →
    p.tree.plant u v = .ok { p with events := [] }

theorem locate?_of_locate {id : LeafId}
    (h : ∀ u v, t'.locate u v =
      if blockStart u = blockStart x ∧ blockStart v = blockStart y then .ok (some id)
      else t.locate u v)
    {u v : Option UInt16} (hu : AtStart u) (hv : AtStart v) :
    t'.locate? u v =
      if u = some (blockStart x) ∧ v = some (blockStart y) then .ok (some id)
      else t.locate? u v := by
  cases u with
  | none => simp [locate?]
  | some u =>
      cases v with
      | none => simp [locate?]
      | some v => simp only [locate?, h, hu u rfl, hv v rfl, Option.some.injEq]

/-- A link changes if the block that it leads to does. -/
theorem Sound.links_of_locate (hs : t.Sound) (hs' : t'.Sound) {id : LeafId}
    (h : ∀ u v, t'.locate u v =
      if blockStart u = blockStart x ∧ blockStart v = blockStart y then .ok (some id)
      else t.locate u v)
    {j : LeafId} {l m : Leaf τ κ} (hl : t.leaf j = .ok l) (hm : t'.leaf j = .ok m)
    (hplace : m.x = l.x ∧ m.y = l.y) :
    m.south = (if l.x = blockStart x ∧ (blockStart y).toNat = l.y.toNat + 8 then some id
        else l.south) ∧
      m.east = (if (blockStart x).toNat = l.x.toNat + 8 ∧ l.y = blockStart y then some id
        else l.east) := by
  obtain ⟨hx, hy⟩ := hs.aligned hl
  obtain ⟨heast, hsouth⟩ := hs.linked hl
  obtain ⟨heast', hsouth'⟩ := hs'.linked hm
  rw [hplace.1, hplace.2] at heast' hsouth'
  rw [locate?_of_locate h (atStart_some hx) (atStart_nextBlock? hy), hsouth] at hsouth'
  rw [locate?_of_locate h (atStart_nextBlock? hx) (atStart_some hy), heast] at heast'
  simp only [nextBlock?_eq_some_iff, Option.some.injEq] at hsouth' heast'
  constructor
  · split_ifs at hsouth' ⊢ <;> exact (Except.ok.inj hsouth').symm
  · split_ifs at heast' ⊢ <;> exact (Except.ok.inj heast').symm

theorem Sound.plant_establishes (hs : t.Sound) (x y : UInt16) :
    ∃ p, t.plant x y = .ok p ∧ Establishes t x y p := by
  obtain ⟨p, hplant, hs', hfound, hcases⟩ := hs.plant_ok x y
  have hlocate : ∀ u v, p.tree.locate u v =
      if blockStart u = blockStart x ∧ blockStart v = blockStart y then .ok (some p.leaf)
      else t.locate u v := by
    intro u v
    split
    · rename_i hblock
      exact (locate_congr hblock.1 hblock.2).trans hfound
    · rename_i hblock
      rcases hcases with hsame | ⟨-, hp⟩
      · rw [hsame]
      · rw [hp.locate, if_neg hblock]
  have hold : ∀ {id l}, t.leaf id = .ok l →
      ∃ m, p.tree.leaf id = .ok m ∧ m.unlinked = l.unlinked := by
    intro id l hl
    rcases hcases with hsame | ⟨-, hp⟩
    · exact ⟨l, hsame ▸ hl, rfl⟩
    · exact hp.old hl
  refine ⟨p, hplant, ?_⟩
  constructor
  case locate => exact hlocate
  case old =>
    intro id l hl
    obtain ⟨m, hm, hsame⟩ := hold hl
    have hplace : m.x = l.x ∧ m.y = l.y := ⟨(congrArg Leaf.x hsame :), (congrArg Leaf.y hsame :)⟩
    have htiles : m.tiles = l.tiles := (congrArg Leaf.tiles hsame :)
    have hroster : m.roster = l.roster := (congrArg Leaf.roster hsame :)
    exact ⟨m, hm, hplace, htiles, hroster, hs.links_of_locate hs' hlocate hl hm hplace⟩
  case made =>
    intro hnone
    rcases hcases with hsame | ⟨-, hp⟩
    · rw [hsame, hnone] at hfound
      cases hfound
    · rw [hp.locate, if_pos ⟨rfl, rfl⟩] at hfound
      exact ⟨(Option.some.inj (Except.ok.inj hfound)).symm, hp.size⟩
  case kept =>
    intro id hid
    exact (Except.ok.inj ((plant_of_some hid).symm.trans hplant)).symm
  case again =>
    intro u v hblock
    exact plant_of_some ((locate_congr hblock.1 hblock.2).trans hfound)

end Quadtree

namespace Atlas

/-- After every run of edits a leaf can be planted for every block, and that
does no more than it should. -/
theorem replay_establishes {τ κ : Type} [Creature κ] (edits : List (Edit τ κ)) :
    ∃ h, ({} : History τ κ).replay edits = .ok h ∧
      ∀ x y, ∃ p, h.atlas.tree.plant x y = .ok p ∧ h.atlas.tree.Establishes x y p := by
  obtain ⟨h, hreplay, hs⟩ := History.replay_sound edits
  exact ⟨h, hreplay, hs.plant_establishes⟩

end Atlas

end TileAtlas
