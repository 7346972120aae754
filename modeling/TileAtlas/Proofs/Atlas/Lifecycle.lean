import TileAtlas.Proofs.Atlas.Topology
import TileAtlas.Proofs.Log

/-!
When leaves are made, and what stays of them.

Only some edits make a leaf, and only one for the block that they are about.
Whether they do depends on nothing but the edit itself, so the list of blocks
with a leaf can be read off a run: it names each block where the run first
touches it. The names of the leaves count along. A leaf that is made is
reported before anything else that the edit does. Of what an edit finds it
takes nothing away: leaves keep their names and places, storeys their room, and
links lead where they led. A link that leads nowhere may come to lead to the
leaf that is made.
-/

namespace TileAtlas

def Location.block (p : Location) : UInt16 × UInt16 := (blockStart p.x, blockStart p.y)

namespace Edit

variable {τ κ : Type}

/-- The block that has a leaf after an edit, whether or not it had one before.
A tile that is refused needs none, and neither does a creature that is leaving. -/
def block? : Edit τ κ → Option (UInt16 × UInt16)
  | .putTile p _ => if p.floor.toNat < floorCount then some p.block else none
  | .clearTile _ => none
  | .enter p _ => some p.block
  | .leave _ _ => none
  | .move _ q _ => some q.block

def Touches (x y : UInt16) (e : Edit τ κ) : Prop := e.block? = some (blockStart x, blockStart y)

theorem isSome_grid?_amend [Creature κ] (covers : UInt16 → UInt16 → Bool) (u v : UInt16)
    (l : Leaf τ κ) (e : Edit τ κ) (floor : UInt8) (h : (l.tiles.grid? floor).isSome) :
    ((e.amend covers u v l).tiles.grid? floor).isSome := by
  cases e with
  | putTile p tile =>
      rw [amend]
      split
      · rw [Leaf.putTile, TileStore.grid?_set]
        split
        · rfl
        · exact h
      · exact h
  | clearTile p =>
      rw [amend]
      split
      · rw [Leaf.clearTile, TileStore.grid?_clear]
        split
        · rwa [Option.isSome_map]
        · exact h
      · exact h
  | enter p c =>
      rw [amend]
      split_ifs <;> exact h
  | leave p c =>
      rw [amend]
      split_ifs <;> exact h
  | move p q c =>
      rw [amend]
      split_ifs <;> exact h

end Edit

namespace Atlas

variable {τ κ : Type} {a b c : Atlas τ κ}

open Quadtree

theorem map_corner_leaves : a.leaves.map (fun e => (e.2.x, e.2.y)) = a.tree.corners := by
  rw [leaves, Quadtree.corners, ← map_snd_namedLeaves, List.map_map]
  rfl

/-! ### What stays -/

/-- Of the leaves of `a` nothing is taken away in `b`. -/
structure Endures (a b : Atlas τ κ) : Prop where
  /-- A block that has a leaf keeps it, under its name. -/
  name {x y : UInt16} {id : LeafId} :
    a.leafAt? x y = .ok (some id) → b.leafAt? x y = .ok (some id)
  /-- The leaf of this name stays where it is. -/
  place {id : LeafId} {l : Leaf τ κ} : a.leaf? id = some l →
    ∃ m, b.leaf? id = some m ∧ m.x = l.x ∧ m.y = l.y
  /-- A storey that has room keeps it. -/
  grid {id : LeafId} {l m : Leaf τ κ} {floor : UInt8} : a.leaf? id = some l → b.leaf? id = some m →
    (l.tiles.grid? floor).isSome → (m.tiles.grid? floor).isSome
  /-- A link that leads somewhere goes on leading there. So it changes at most once, when the leaf
  that it leads to is made. -/
  link {id j : LeafId} {l m : Leaf τ κ} (w : Heading) : a.leaf? id = some l →
    b.leaf? id = some m → w.link l = some j → w.link m = some j

theorem Endures.refl (a : Atlas τ κ) : a.Endures a where
  name h := h
  place h := ⟨_, h, rfl, rfl⟩
  grid hl hm h := Option.some.inj (hl.symm.trans hm) ▸ h
  link _ hl hm h := Option.some.inj (hl.symm.trans hm) ▸ h

theorem Endures.trans (hab : a.Endures b) (hbc : b.Endures c) : a.Endures c where
  name h := hbc.name (hab.name h)
  place hl := by
    obtain ⟨m, hm, hmx, hmy⟩ := hab.place hl
    obtain ⟨n, hn, hnx, hny⟩ := hbc.place hm
    exact ⟨n, hn, hnx.trans hmx, hny.trans hmy⟩
  grid hl hn h := by
    obtain ⟨m, hm, -⟩ := hab.place hl
    exact hbc.grid hm hn (hab.grid hl hm h)
  link w hl hn h := by
    obtain ⟨m, hm, -⟩ := hab.place hl
    exact hbc.link w hm hn (hab.link w hl hm h)

/-- The names are the places in the list of blocks, and the links follow from
the names, so it is enough that the list is only added to. -/
theorem endures_of_longer (hs : a.tree.Sound) (hs' : b.tree.Sound)
    (hlonger : a.tree.corners <+: b.tree.corners)
    (hgrid : ∀ u v floor, ((a.tree.body u v).tiles.grid? floor).isSome →
      ((b.tree.body u v).tiles.grid? floor).isSome) : a.Endures b where
  name h := hs.locate_of_longer hs' hlonger h
  place hl := by
    simp only [leaf?_eq_some_iff] at hl ⊢
    exact hs.leaf_of_longer hs' hlonger hl
  grid {id l m floor} hl hm h := by
    rw [leaf?_eq_some_iff] at hl hm
    have hfound := hs.locate_corner hl
    have hkept := hgrid l.x l.y floor
    rw [body_of_some hfound hl, body_of_some (hs.locate_of_longer hs' hlonger hfound) hm] at hkept
    exact hkept h
  link {id j l m} w hl hm h := by
    obtain ⟨m', hm', hx, hy⟩ := hs.leaf_of_longer hs' hlonger (leaf?_eq_some_iff.mp hl)
    rw [leaf?_eq_some_iff.mpr hm', Option.some.injEq] at hm
    subst hm
    have hnext := locate?_next? hs hl w
    have hnext' := locate?_next? hs' (leaf?_eq_some_iff.mpr hm') w
    rw [h] at hnext
    rw [hx, hy, hs.locate?_of_longer hs' hlonger hnext] at hnext'
    exact (Except.ok.inj hnext').symm

/-! ### One edit -/

variable [Creature κ] {e : Edit τ κ} {step : Step τ κ (Outcome τ)}

/-- An edit plants a leaf for its block, if it has one, and reports what there
is to be reported of that first. Nothing else that it does makes or reports a
leaf. -/
theorem planting_of_apply (hs : a.tree.Sound) (hstep : a.apply e = .ok step) :
    (e.block? = none ∧ step.atlas.tree.corners = a.tree.corners ∧
        ∀ event ∈ step.events, event.notice? = none) ∨
      ∃ (p : Location) (q : Planting τ κ) (rest : List Event), e.block? = some p.block ∧
        a.tree.plant p.x p.y = .ok q ∧ step.atlas.tree.corners = q.tree.corners ∧
        step.events = q.events ++ rest ∧ ∀ event ∈ rest, event.notice? = none := by
  cases e with
  | putTile p tile =>
      by_cases hfloor : p.floor.toNat < floorCount
      · obtain ⟨q, tree, hplant, hq, hput, hamends⟩ := putTile_ok hs p tile hfloor
        obtain rfl := Step.eq_of_map_ok hput Outcome.placed hstep
        exact .inr ⟨p, q, [], if_pos hfloor, hplant, hamends.corners_eq hq.sound,
          (List.append_nil _).symm, nofun⟩
      · have hput := putTile_refused (a := a) p tile hfloor
        obtain rfl := Step.eq_of_map_ok hput Outcome.placed hstep
        exact .inl ⟨if_neg hfloor, rfl, nofun⟩
  | clearTile p =>
      obtain ⟨tree, hclear, hamends⟩ := clearTile_ok hs p
      obtain rfl := Step.eq_of_map_ok hclear Outcome.cleared hstep
      exact .inl ⟨rfl, hamends.corners_eq hs, nofun⟩
  | enter p c =>
      obtain ⟨q, a', added, hplant, hq, henter, -, -, hamends⟩ := enter_ok hs p c
      obtain rfl := Step.eq_of_map_ok henter Outcome.entered hstep
      refine .inr ⟨p, q, _, rfl, hplant, hamends.corners_eq hq.sound, rfl, ?_⟩
      cases added <;> simp [Event.notice?]
  | leave p c =>
      obtain ⟨a', removed, hleave, -, -, hamends⟩ := leave_ok hs p c
      obtain rfl := Step.eq_of_map_ok hleave Outcome.left hstep
      refine .inl ⟨rfl, hamends.corners_eq hs, ?_⟩
      simp only [Step.map]
      split <;> simp [Event.notice?]
  | move p q c =>
      by_cases hsettled : a.tree.covers p.x p.y = true ∧ p.SameBlock q
      · -- The leaf at both ends is there already.
        obtain ⟨id, -, hplant⟩ := ends_of_settled hs hsettled.1 hsettled.2
        have hmove := move_settled hs hsettled.1 hsettled.2 c
        obtain rfl := Step.eq_of_map_ok hmove (fun _ => Outcome.moved) hstep
        exact .inr ⟨q, _, [], rfl, hplant, rfl, rfl, nofun⟩
      · obtain ⟨r, a₁, a₂, removed, added, hplant, hr, hmove, -, -, -, hamends₁, hamends₂⟩ :=
          move_ok hs hsettled c
        obtain rfl := Step.eq_of_map_ok hmove (fun _ => Outcome.moved) hstep
        refine .inr ⟨q, r, _, rfl, hplant,
          (hamends₂.corners_eq hamends₁.sound).trans (hamends₁.corners_eq hr.sound),
          List.append_assoc .., ?_⟩
        cases removed <;> simp [Event.notice?]

theorem corners_apply (hs : a.tree.Sound) (hstep : a.apply e = .ok step) :
    step.atlas.tree.corners = e.block?.elim a.tree.corners (settle a.tree.corners) := by
  rcases planting_of_apply hs hstep with
    ⟨hblock, hcorners, -⟩ | ⟨p, q, -, hblock, hplant, hcorners, -⟩
  · rw [hblock, hcorners]
    rfl
  · rw [hblock, hcorners]
    exact hs.corners_plant hplant

theorem mem_corners_apply (hs : a.tree.Sound) (hstep : a.apply e = .ok step)
    {corner : UInt16 × UInt16} (hmem : corner ∈ step.atlas.tree.corners) :
    corner ∈ a.tree.corners ∨ e.block? = some corner := by
  rw [corners_apply hs hstep] at hmem
  cases hblock : e.block? with
  | none =>
      rw [hblock] at hmem
      exact .inl hmem
  | some block =>
      rw [hblock] at hmem
      rcases mem_settle_iff.mp hmem with hold | rfl
      · exact .inl hold
      · exact .inr rfl

theorem endures_of_apply (hs : a.tree.Sound) (hstep : a.apply e = .ok step) :
    a.Endures step.atlas := by
  refine endures_of_longer hs (sound_of_apply hs hstep) ?_ fun u v floor h => ?_
  · rw [corners_apply hs hstep]
    cases e.block? with
    | none => exact List.prefix_rfl
    | some block => exact prefix_settle
  · rw [body_of_apply hs hstep]
    exact e.isSome_grid?_amend _ _ _ _ _ h

theorem link_apply (hs : a.tree.Sound) (hstep : a.apply e = .ok step) {id : LeafId}
    {l m : Leaf τ κ} (hl : a.leaf? id = some l) (hm : step.atlas.leaf? id = some m) (w : Heading) :
    w.link m = w.link l ∨ w.link l = none ∧ ∃ j n, w.link m = some j ∧
      step.atlas.leaf? j = some n ∧ w.side.Ahead 1 (l.x, l.y) (n.x, n.y) ∧
      e.block? = some (n.x, n.y) ∧ (n.x, n.y) ∉ a.tree.corners := by
  have hs' := sound_of_apply hs hstep
  have hendures := endures_of_apply hs hstep
  cases hlink : w.link l with
  | some j => exact .inl (hendures.link w hl hm hlink)
  | none =>
      cases hlink' : w.link m with
      | none => exact .inl rfl
      | some j =>
          obtain ⟨m', hm', hx, hy⟩ := hendures.place hl
          obtain rfl := Option.some.inj (hm'.symm.trans hm)
          obtain ⟨n, hn, hahead⟩ := (link_eq_some_iff hs' hm).mp hlink'
          have hnext : w.side.Ahead 1 (l.x, l.y) (n.x, n.y) := by
            rw [hx, hy] at hahead
            exact hahead
          have hnew : (n.x, n.y) ∉ a.tree.corners := by
            -- The link would have led to an old leaf before.
            intro hmem
            obtain ⟨k, hk, hplace⟩ := List.mem_map.mp hmem
            obtain ⟨i, hi⟩ := hs.exists_leaf_of_mem_leaves hk
            have hold : w.link l = some i := (link_eq_some_iff hs hl).mpr
              ⟨k, leaf?_eq_some_iff.mpr hi, hplace ▸ hnext⟩
            rw [hlink] at hold
            cases hold
          have hmem := List.mem_of_getElem? (corner_of_leaf (leaf?_eq_some_iff.mp hn))
          have hmade := (mem_corners_apply hs hstep hmem).resolve_left hnew
          exact .inr ⟨rfl, j, n, rfl, hn, hnext, hmade, hnew⟩

theorem leaf_apply (hs : a.tree.Sound) (hstep : a.apply e = .ok step) {id : LeafId} {l : Leaf τ κ}
    (hl : step.atlas.leaf? id = some l) :
    e.block? = some (l.x, l.y) ∨ ∃ m, a.leaf? id = some m := by
  have hs' := sound_of_apply hs hstep
  have hendures := endures_of_apply hs hstep
  have hmem := List.mem_of_getElem? (corner_of_leaf (leaf?_eq_some_iff.mp hl))
  rcases mem_corners_apply hs hstep hmem with hold | hmade
  · -- The leaf that was in the same block has kept its name.
    obtain ⟨k, hk, hplace⟩ := List.mem_map.mp hold
    obtain ⟨hkx, hky⟩ := Prod.mk.inj hplace
    obtain ⟨i, hi⟩ := hs.exists_leaf_of_mem_leaves hk
    obtain ⟨m, hm, hx, hy⟩ := hendures.place (leaf?_eq_some_iff.mpr hi)
    obtain rfl := eq_of_corner_eq hs' hl hm (hkx.symm.trans hx.symm) (hky.symm.trans hy.symm)
    exact .inr ⟨k, leaf?_eq_some_iff.mpr hi⟩
  · exact .inl hmade

/-! ### Runs -/

theorem endures_replay {h : History τ κ} (hs : h.atlas.tree.Sound) (rest : List (Edit τ κ)) :
    ∃ k, h.replay rest = .ok k ∧ h.atlas.Endures k.atlas := by
  induction rest generalizing h with
  | nil => exact ⟨h, h.replay_nil, .refl _⟩
  | cons e rest ih =>
      obtain ⟨step, hstep, hs', -⟩ := apply_ok hs e
      obtain ⟨k, hk, hendures⟩ :=
        ih (h := ⟨step.atlas, h.outcomes.push step.reply, h.events ++ step.events⟩) hs'
      exact ⟨k, History.replay_of_apply hstep hk, (endures_of_apply hs hstep).trans hendures⟩

/-- After a run the blocks with a leaf are those that the run has touched, in
the order in which it came to them. -/
theorem replay_corners (edits : List (Edit τ κ)) :
    ∃ h, ({} : History τ κ).replay edits = .ok h ∧ h.atlas.tree.Sound ∧
      h.atlas.tree.corners = (edits.filterMap Edit.block?).eraseDups := by
  refine History.replay_induction (P := fun past h => h.atlas.tree.Sound ∧
    h.atlas.tree.corners = (past.filterMap Edit.block?).eraseDups) ⟨sound_empty, rfl⟩ ?_
  rintro past e h - ⟨hs, hcorners⟩
  obtain ⟨step, hstep, hs', -⟩ := apply_ok hs e
  refine ⟨_, History.extend_of_apply hstep, hs', ?_⟩
  rw [corners_apply hs hstep, hcorners, List.filterMap_append]
  cases hblock : e.block? with
  | none => simp [hblock]
  | some block =>
      rw [List.filterMap_cons_some hblock, List.filterMap_nil, eraseDups_concat]
      rfl

/-- The leaves of an atlas are those that a run of edits calls for. -/
structure Founded (a : Atlas τ κ) (edits : List (Edit τ κ)) : Prop where
  /-- A block has a leaf if it was touched, and not otherwise. -/
  covered (x y : UInt16) : ∃ found, a.leafAt? x y = .ok found ∧
    (found.isSome ↔ ∃ e ∈ edits, e.Touches x y)
  /-- The name of a leaf is the number of the blocks touched before. -/
  index {past rest : List (Edit τ κ)} {e : Edit τ κ} {x y : UInt16} :
    edits = past ++ e :: rest → e.Touches x y → (∀ d ∈ past, ¬ d.Touches x y) →
      ∃ id, a.leafAt? x y = .ok (some id) ∧
        id.index = (past.filterMap Edit.block?).toFinset.card
  count : a.counts.leaves = (edits.filterMap Edit.block?).toFinset.card
  leaf (id : LeafId) : (a.leaf? id).isSome ↔ id.index < a.counts.leaves
  /-- The leaves are listed by name, in the order in which their blocks were first touched. -/
  names : a.leaves.map (fun e => e.1.index) = List.range a.counts.leaves
  corners : a.leaves.map (fun e => (e.2.x, e.2.y)) = (edits.filterMap Edit.block?).eraseDups

omit [Creature κ] in
theorem founded_of_corners (hs : a.tree.Sound) {edits : List (Edit τ κ)}
    (hcorners : a.tree.corners = (edits.filterMap Edit.block?).eraseDups) : a.Founded edits := by
  have hmem : ∀ {x y}, (blockStart x, blockStart y) ∈ a.tree.corners ↔
      ∃ e ∈ edits, e.Touches x y := by
    intro x y
    rw [hcorners, List.mem_eraseDups, List.mem_filterMap]
    rfl
  have hcount : a.tree.leaves.size = (edits.filterMap Edit.block?).toFinset.card := by
    rw [← length_corners, hcorners, length_eraseDups]
  constructor
  case covered =>
    intro x y
    obtain ⟨found, hfound⟩ := hs.locate_ok x y
    refine ⟨found, hfound, ?_⟩
    rw [← hmem, hs.mem_corners_iff, hfound, Option.isSome_iff_exists]
    simp only [Except.ok.injEq]
  case index =>
    rintro past rest e x y rfl he hpast
    have hbefore : (blockStart x, blockStart y) ∉ past.filterMap Edit.block? := by
      rw [List.mem_filterMap]
      rintro ⟨d, hd, htouches⟩
      exact hpast d hd htouches
    have hget := getElem?_eraseDups hbefore (rest.filterMap Edit.block?)
    rw [← List.filterMap_cons_some he, ← List.filterMap_append, ← hcorners] at hget
    have hlt := (List.getElem?_eq_some_iff.mp hget).choose
    rw [length_corners] at hlt
    rw [← hs.index_ofIndex hlt, ← hs.locate_eq_some_iff_corners] at hget
    exact ⟨_, hget, hs.index_ofIndex hlt⟩
  case count => exact hcount
  case leaf =>
    intro id
    show a.tree.leaves[id.index]?.isSome ↔ id.index < a.tree.leaves.size
    simp
  case names => exact hs.map_index_namedLeaves
  case corners => rw [map_corner_leaves, hcorners]

/-- A block gets its leaf when a run first touches it, and nothing that comes
later takes away from the leaf. -/
theorem replay_founded (edits : List (Edit τ κ)) :
    ∃ h, ({} : History τ κ).replay edits = .ok h ∧ h.atlas.Founded edits ∧
      ∀ rest, ∃ k, h.replay rest = .ok k ∧ h.atlas.Endures k.atlas := by
  obtain ⟨h, hreplay, hs, hcorners⟩ := replay_corners edits
  exact ⟨h, hreplay, founded_of_corners hs hcorners, endures_replay hs⟩

end Atlas

end TileAtlas
