import TileAtlas.Proofs.Atlas.Counting
import TileAtlas.Proofs.Atlas.Lifecycle
import TileAtlas.Proofs.Atlas.Selection
import TileAtlas.Proofs.Quadtree.Stems

/-!
Atlases with the same contents.

The same map can be filled in many ways. Names of leaves and branches and the
links between leaves are handed out as leaves come to be, so they tell one way
from another; nothing else does. Two atlases are `Alike` if the same blocks
have leaves, with the same tiles and creatures. Then every question has the
same answer, and every further edit leads to atlases that are alike again.

The comparison that edits preserve is `Matched`. It adds to `Alike` what holds of each
of the two atlases by itself, and speaks of bodies of blocks instead of leaves,
so that the effect of an edit can be read off `apply_ok` twice.
-/

namespace TileAtlas

/-- Replies that are the same, except that they may name a leaf by different
names. -/
inductive Outcome.Like {τ : Type} (same : LeafId → LeafId → Prop) :
    Outcome τ → Outcome τ → Prop where
  | placed {i j : LeafId} : same i j → Like same (.placed (.ok i)) (.placed (.ok j))
  | refused (refusal : Refusal) : Like same (.placed (.error refusal)) (.placed (.error refusal))
  | cleared (tile : Option τ) : Like same (.cleared tile) (.cleared tile)
  | entered (isNew : Bool) : Like same (.entered isNew) (.entered isNew)
  | left (wasPresent : Bool) : Like same (.left wasPresent) (.left wasPresent)
  | moved : Like same .moved .moved

/-- What an entry of a sweep says apart from names and tiles. -/
def Leaf.summary {τ κ : Type} (e : LeafId × Leaf τ κ) : (UInt16 × UInt16) × Roster κ :=
  ((e.2.x, e.2.y), e.2.roster)

namespace Atlas

variable {τ κ : Type} [Creature κ] {a b : Atlas τ κ}

open Quadtree

/-! ### What is compared -/

/-- Names that two atlases have for the leaf of the same block. -/
def Partners (a b : Atlas τ κ) (i j : LeafId) : Prop :=
  ∃ x y, a.leafAt? x y = .ok (some i) ∧ b.leafAt? x y = .ok (some j)

structure Alike (a b : Atlas τ κ) : Prop where
  covered (x y : UInt16) :
    (∃ id, a.leafAt? x y = .ok (some id)) ↔ ∃ id, b.leafAt? x y = .ok (some id)
  tile (p : Location) : a.tile? p = b.tile? p
  creatures {i j : LeafId} {l m : Leaf τ κ} :
    a.Partners b i j → a.leaf? i = some l → b.leaf? j = some m →
      ∀ c, c ∈ l.roster.creatures.toList ↔ c ∈ m.roster.creatures.toList
  ofKind {i j : LeafId} {l m : Leaf τ κ} (k : Kind) :
    a.Partners b i j → a.leaf? i = some l → b.leaf? j = some m →
      ∀ c, c ∈ (l.roster.ofKind k).toList ↔ c ∈ (m.roster.ofKind k).toList

omit [Creature κ] in
theorem rel_of_covered {x y : UInt16} {found found' : Option LeafId}
    (hcovered : (∃ id, a.leafAt? x y = .ok (some id)) ↔ ∃ id, b.leafAt? x y = .ok (some id))
    (ha : a.leafAt? x y = .ok found) (hb : b.leafAt? x y = .ok found') :
    Option.Rel (a.Partners b) found found' := by
  cases found with
  | none =>
      cases found' with
      | none => exact .none
      | some j =>
          obtain ⟨i, hi⟩ := hcovered.mpr ⟨j, hb⟩
          cases hi.symm.trans ha
  | some i =>
      cases found' with
      | none =>
          obtain ⟨j, hj⟩ := hcovered.mp ⟨i, ha⟩
          cases hj.symm.trans hb
      | some j => exact .some ⟨x, y, ha, hb⟩

/-- Apart from the names of leaves nothing tells two atlases from each other. -/
structure Interchangeable (a b : Atlas τ κ) : Prop where
  alike : a.Alike b
  /-- A search comes to leaves of the same blocks, in the same order. -/
  leaves (area : Area) (kinds : KindSet) : ∃ visited visited',
    View.leaves { atlas := a, area, kinds } = .ok visited ∧
      View.leaves { atlas := b, area, kinds } = .ok visited' ∧
      visited.map (fun e => (e.2.x, e.2.y)) = visited'.map fun e => (e.2.x, e.2.y)
  /-- It offers the same creatures in the same order. -/
  offered (area : Area) (kinds : KindSet) :
    View.offered { atlas := a, area, kinds } = View.offered { atlas := b, area, kinds }
  /-- It finds the same, whatever the test does. -/
  collect (area : Area) (kinds : KindSet) {m : Type → Type} [Monad m] (test : κ → m Bool) :
    View.collect { atlas := a, area, kinds } test = View.collect { atlas := b, area, kinds } test
  /-- The test is asked the same questions, and gives the same answers. -/
  asked (area : Area) (kinds : KindSet) {σ : Type} (test : κ → StateM σ Bool) (s : σ) :
    ∃ search search' calls s', View.collect { atlas := a, area, kinds } test = .ok search ∧
      View.collect { atlas := b, area, kinds } test = .ok search' ∧
      Asked test s calls s' ∧
      View.offered { atlas := a, area, kinds } = .ok (calls.map Prod.fst) ∧
      search.run s = ((calls.filter Prod.snd).map Prod.fst, s') ∧
      search'.run s = ((calls.filter Prod.snd).map Prod.fst, s')
  counts : a.counts = b.counts
  /-- The links of a block lead to leaves of the same blocks. -/
  links {i j : LeafId} {l m : Leaf τ κ} (w : Heading) :
    a.Partners b i j → a.leaf? i = some l → b.leaf? j = some m →
      Option.Rel (a.Partners b) (w.link l) (w.link m)
  /-- Every edit has the same reply, and changes both in the same way. -/
  apply (e : Edit τ κ) : ∃ s s', a.apply e = .ok s ∧ b.apply e = .ok s' ∧
    s.reply.Like (s.atlas.Partners s'.atlas) s'.reply ∧ s.atlas.Alike s'.atlas

/-- Atlases that are alike, block by block. -/
structure Matched (a b : Atlas τ κ) : Prop where
  left : a.Tallied
  right : b.Tallied
  corners (c : UInt16 × UInt16) : c ∈ a.tree.corners ↔ c ∈ b.tree.corners
  roster (u v : UInt16) : (a.tree.body u v).roster = (b.tree.body u v).roster
  tile (p : Location) : a.tile? p = b.tile? p

namespace Matched

/-! ### Blocks -/

theorem covered (h : a.Matched b) (x y : UInt16) :
    (∃ id, a.leafAt? x y = .ok (some id)) ↔ ∃ id, b.leafAt? x y = .ok (some id) :=
  h.left.sound.mem_corners_iff.symm.trans ((h.corners _).trans h.right.sound.mem_corners_iff)

theorem rel_locate (h : a.Matched b) {x y : UInt16} {found found' : Option LeafId}
    (ha : a.tree.locate x y = .ok found) (hb : b.tree.locate x y = .ok found') :
    Option.Rel (a.Partners b) found found' :=
  rel_of_covered (h.covered x y) ha hb

theorem rel_locate? (h : a.Matched b) {x y : Option UInt16} {found found' : Option LeafId}
    (ha : a.tree.locate? x y = .ok found) (hb : b.tree.locate? x y = .ok found') :
    Option.Rel (a.Partners b) found found' := by
  cases x with
  | none =>
      cases ha
      cases hb
      exact .none
  | some x =>
      cases y with
      | none =>
          cases ha
          cases hb
          exact .none
      | some y => exact h.rel_locate ha hb

theorem covers_eq (h : a.Matched b) : a.tree.covers = b.tree.covers := by
  funext x y
  obtain ⟨found, ha⟩ := h.left.sound.locate_ok x y
  obtain ⟨found', hb⟩ := h.right.sound.locate_ok x y
  rw [covers_of_locate ha, covers_of_locate hb]
  cases h.rel_locate ha hb with
  | none => rfl
  | some _ => rfl

theorem leaf_eq (h : a.Matched b) {i j : LeafId} {l m : Leaf τ κ} (hij : a.Partners b i j)
    (hl : a.leaf? i = some l) (hm : b.leaf? j = some m) :
    (l.x = m.x ∧ l.y = m.y) ∧ l.roster = m.roster := by
  obtain ⟨x, y, hi, hj⟩ := hij
  obtain ⟨l', hl', hlx, hly⟩ := (reaches_iff_of_sound h.left.sound).mp hi
  obtain ⟨m', hm', hmx, hmy⟩ := (reaches_iff_of_sound h.right.sound).mp hj
  obtain rfl := Option.some.inj (hl'.symm.trans hl)
  obtain rfl := Option.some.inj (hm'.symm.trans hm)
  have hroster := h.roster x y
  rw [body_of_some hi (leaf?_eq_some_iff.mp hl), body_of_some hj (leaf?_eq_some_iff.mp hm),
    Leaf.roster_unlinked, Leaf.roster_unlinked] at hroster
  exact ⟨⟨hlx.trans hmx.symm, hly.trans hmy.symm⟩, hroster⟩

theorem map_lookup? (h : a.Matched b) (x y : UInt16) :
    (a.tree.lookup? x y).map Leaf.summary = (b.tree.lookup? x y).map Leaf.summary := by
  obtain ⟨found, ha⟩ := h.left.sound.locate_ok x y
  obtain ⟨found', hb⟩ := h.right.sound.locate_ok x y
  cases h.rel_locate ha hb with
  | none => rw [lookup?_of_none ha, lookup?_of_none hb]
  | some hij =>
      obtain ⟨l, hl, -⟩ := h.left.sound.locate_eq_some_iff.mp ha
      obtain ⟨m, hm, -⟩ := h.right.sound.locate_eq_some_iff.mp hb
      obtain ⟨⟨hx, hy⟩, hroster⟩ :=
        h.leaf_eq hij (leaf?_eq_some_iff.mpr hl) (leaf?_eq_some_iff.mpr hm)
      rw [lookup?_of_some ha hl, lookup?_of_some hb hm]
      simp only [Option.map_some, Leaf.summary, hx, hy, hroster]

/-! ### Questions -/

theorem map_entries (h : a.Matched b) (area : Area) :
    (a.tree.entries area).map Leaf.summary = (b.tree.entries area).map Leaf.summary := by
  rw [entries, entries, List.map_filterMap, List.map_filterMap]
  simp only [h.map_lookup?]

theorem map_corner_entries (h : a.Matched b) (area : Area) :
    (a.tree.entries area).map (fun e => (e.2.x, e.2.y)) =
      (b.tree.entries area).map fun e => (e.2.x, e.2.y) := by
  have hmap := congrArg (List.map Prod.fst) (h.map_entries area)
  rwa [List.map_map, List.map_map] at hmap

theorem offered_eq (h : a.Matched b) (area : Area) (kinds : KindSet) :
    View.offered { atlas := a, area, kinds } = View.offered { atlas := b, area, kinds } := by
  have hflat := congrArg (List.flatMap fun e => e.2.members kinds) (h.map_entries area)
  rw [List.flatMap_map, List.flatMap_map] at hflat
  exact ((View.offered_ok h.left.sound).trans (congrArg Except.ok hflat)).trans
    (View.offered_ok h.right.sound).symm

theorem collect_eq (h : a.Matched b) (area : Area) (kinds : KindSet) {m : Type → Type} [Monad m]
    (test : κ → m Bool) :
    View.collect { atlas := a, area, kinds } test =
      View.collect { atlas := b, area, kinds } test := by
  rw [View.collect, View.collect, h.offered_eq]

theorem perm_corners (h : a.Matched b) : a.tree.corners.Perm b.tree.corners :=
  (List.perm_ext_iff_of_nodup h.left.sound.nodup_corners h.right.sound.nodup_corners).mpr h.corners

/-- Branches are counted by stems, leaves by corners, tiles by locations, and
creatures by memberships. -/
theorem counts_eq (h : a.Matched b) : a.counts = b.counts := by
  have hbranches : a.tree.branches.size = b.tree.branches.size := by
    have hstems := h.left.sound.encard_stems
    rw [stems_congr h.corners, h.right.sound.encard_stems] at hstems
    exact ENat.natCast_inj.mp hstems.symm
  have hleaves : a.tree.leaves.size = b.tree.leaves.size := by
    have hlength := h.perm_corners.length_eq
    rwa [length_corners, length_corners] at hlength
  have htiles : a.tree.tileCount = b.tree.tileCount := by
    have hencard := encard_tiles h.left.sound
    simp only [h.tile] at hencard
    rw [encard_tiles h.right.sound] at hencard
    exact ENat.natCast_inj.mp hencard.symm
  have hmembers : a.members = b.members := by
    rw [h.left.members, h.right.members, headcount, headcount, h.left.sound.total_eq fun _ => rfl,
      h.right.sound.total_eq fun _ => rfl]
    simp only [h.roster]
    exact (h.perm_corners.map _).sum_eq
  rw [counts, counts, hbranches, hleaves, htiles, hmembers]

theorem rel_link (h : a.Matched b) (w : Heading) {i j : LeafId} {l m : Leaf τ κ}
    (hij : a.Partners b i j) (hl : a.leaf? i = some l) (hm : b.leaf? j = some m) :
    Option.Rel (a.Partners b) (w.link l) (w.link m) := by
  obtain ⟨⟨hx, hy⟩, -⟩ := h.leaf_eq hij hl hm
  have hnext := locate?_next? h.right.sound hm w
  rw [← hx, ← hy] at hnext
  exact h.rel_locate? (locate?_next? h.left.sound hl w) hnext

theorem alike (h : a.Matched b) : a.Alike b where
  covered := h.covered
  tile := h.tile
  creatures hij hl hm c := by rw [(h.leaf_eq hij hl hm).2]
  ofKind k hij hl hm c := by rw [(h.leaf_eq hij hl hm).2]

/-! ### Edits -/

theorem get?_eq (h : a.Matched b) (p : Location) :
    (a.tree.body p.x p.y).tiles.get? p.x p.y p.floor =
      (b.tree.body p.x p.y).tiles.get? p.x p.y p.floor := by
  have htile := h.tile p
  rw [tile?_eq h.left.sound, tile?_eq h.right.sound] at htile
  exact Except.ok.inj htile

theorem reply_like (h : a.Matched b) {e : Edit τ κ} {s s' : Step τ κ (Outcome τ)}
    (hs : a.apply e = .ok s) (hs' : b.apply e = .ok s') :
    s.reply.Like (s.atlas.Partners s'.atlas) s'.reply := by
  have ha := h.left.sound
  have hb := h.right.sound
  cases e with
  | putTile p tile =>
      by_cases hfloor : p.floor.toNat < floorCount
      · obtain ⟨q, tree, -, hq, hput, hamends⟩ := putTile_ok ha p tile hfloor
        obtain ⟨q', tree', -, hq', hput', hamends'⟩ := putTile_ok hb p tile hfloor
        obtain rfl := Step.eq_of_map_ok hput Outcome.placed hs
        obtain rfl := Step.eq_of_map_ok hput' Outcome.placed hs'
        exact .placed ⟨p.x, p.y, (hamends.locate p.x p.y).trans hq.locate,
          (hamends'.locate p.x p.y).trans hq'.locate⟩
      · have hput := putTile_refused (a := a) p tile hfloor
        have hput' := putTile_refused (a := b) p tile hfloor
        obtain rfl := Step.eq_of_map_ok hput Outcome.placed hs
        obtain rfl := Step.eq_of_map_ok hput' Outcome.placed hs'
        exact .refused _
  | clearTile p =>
      obtain ⟨tree, hclear, -⟩ := clearTile_ok ha p
      obtain ⟨tree', hclear', -⟩ := clearTile_ok hb p
      rw [← h.get?_eq] at hclear'
      obtain rfl := Step.eq_of_map_ok hclear Outcome.cleared hs
      obtain rfl := Step.eq_of_map_ok hclear' Outcome.cleared hs'
      exact .cleared _
  | enter p c =>
      obtain ⟨q, a', added, -, -, henter, hadded, -⟩ := enter_ok ha p c
      obtain ⟨q', b', added', -, -, henter', hadded', -⟩ := enter_ok hb p c
      rw [← h.roster, ← hadded, Bool.coe_iff_coe] at hadded'
      obtain rfl := Step.eq_of_map_ok henter Outcome.entered hs
      obtain rfl := Step.eq_of_map_ok henter' Outcome.entered hs'
      rw [hadded']
      exact .entered added
  | leave p c =>
      obtain ⟨a', removed, hleave, hremoved, -⟩ := leave_ok ha p c
      obtain ⟨b', removed', hleave', hremoved', -⟩ := leave_ok hb p c
      rw [← h.roster, ← hremoved, Bool.coe_iff_coe] at hremoved'
      obtain rfl := Step.eq_of_map_ok hleave Outcome.left hs
      obtain rfl := Step.eq_of_map_ok hleave' Outcome.left hs'
      rw [hremoved']
      exact .left removed
  | move p q c =>
      have hmoved : ∀ {d : Atlas τ κ} {r}, d.apply (.move p q c) = .ok r → r.reply = .moved := by
        intro d r hr
        cases hmove : d.move p q c with
        | error fault =>
            rw [Atlas.apply, hmove] at hr
            cases hr
        | ok r' =>
            obtain rfl := Step.eq_of_map_ok hmove (fun _ => Outcome.moved) hr
            rfl
      rw [hmoved hs, hmoved hs']
      exact .moved

theorem apply (h : a.Matched b) (e : Edit τ κ) [Std.TransOrd κ] :
    ∃ s s', a.apply e = .ok s ∧ b.apply e = .ok s' ∧
      s.reply.Like (s.atlas.Partners s'.atlas) s'.reply ∧ s.atlas.Matched s'.atlas := by
  obtain ⟨s, hs, htallied⟩ := h.left.apply e
  obtain ⟨s', hs', htallied'⟩ := h.right.apply e
  obtain ⟨r, hr, -, hbody⟩ := apply_ok h.left.sound e
  obtain ⟨r', hr', -, hbody'⟩ := apply_ok h.right.sound e
  obtain rfl := Except.ok.inj (hr.symm.trans hs)
  obtain rfl := Except.ok.inj (hr'.symm.trans hs')
  refine ⟨r, r', hs, hs', h.reply_like hs hs', htallied, htallied', fun c => ?_, fun u v => ?_,
    fun p => ?_⟩
  · rw [corners_apply h.left.sound hs, corners_apply h.right.sound hs']
    cases e.block? with
    | none => exact h.corners c
    | some block => simp only [Option.elim_some, mem_settle_iff, h.corners]
  · rw [hbody, hbody', Edit.roster_amend, Edit.roster_amend, h.covers_eq, h.roster]
  · rw [tile?_eq htallied.sound, tile?_eq htallied'.sound, hbody, hbody', Edit.get?_amend,
      Edit.get?_amend, h.get?_eq]

theorem interchangeable (h : a.Matched b) [Std.TransOrd κ] : a.Interchangeable b where
  alike := h.alike
  leaves area _ := ⟨_, _, h.left.sound.visit_ok area, h.right.sound.visit_ok area,
    h.map_corner_entries area⟩
  offered := h.offered_eq
  collect := h.collect_eq
  asked area kinds σ test s := by
    let v : View τ κ := { atlas := a, area, kinds }
    obtain ⟨search, calls, s', hsearch, hasked, hcalls, hrun⟩ :=
      View.collect_asked (View.offered_ok (v := v) h.left.sound) test s
    refine ⟨search, search, calls, s', hsearch, (h.collect_eq area kinds test).symm.trans hsearch,
      hasked, ?_, hrun, hrun⟩
    rw [hcalls]
    exact View.offered_ok (v := v) h.left.sound
  counts := h.counts_eq
  links w hij hl hm := h.rel_link w hij hl hm
  apply e := by
    obtain ⟨s, s', hs, hs', hreply, hmatched⟩ := h.apply e
    exact ⟨s, s', hs, hs', hreply, hmatched.alike⟩

end Matched

section Likeness

variable [Std.TransOrd κ]

theorem roster_eq_of_alike (ha : a.Tallied) (hb : b.Tallied) (h : a.Alike b) (u v : UInt16) :
    (a.tree.body u v).roster = (b.tree.body u v).roster := by
  obtain ⟨found, hi⟩ := ha.sound.locate_ok u v
  obtain ⟨found', hj⟩ := hb.sound.locate_ok u v
  cases rel_of_covered (h.covered u v) hi hj with
  | none => rw [body_of_none hi, body_of_none hj]
  | some hij =>
      obtain ⟨l, hl, -⟩ := ha.sound.locate_eq_some_iff.mp hi
      obtain ⟨m, hm, -⟩ := hb.sound.locate_eq_some_iff.mp hj
      have hsorted := ha.sorted u v
      have hsorted' := hb.sorted u v
      rw [body_of_some hi hl, Leaf.roster_unlinked] at hsorted ⊢
      rw [body_of_some hj hm, Leaf.roster_unlinked] at hsorted' ⊢
      rw [← leaf?_eq_some_iff] at hl hm
      exact hsorted.eq hsorted' (h.creatures hij hl hm) fun k => h.ofKind k hij hl hm

/-- For atlases that come about, likeness of the leaves is enough. -/
theorem matched_of_alike (ha : a.Tallied) (hb : b.Tallied) (h : a.Alike b) : a.Matched b := by
  refine ⟨ha, hb, fun c => ?_, roster_eq_of_alike ha hb h, h.tile⟩
  have hcovered := (ha.sound.mem_corners_iff.trans (h.covered c.1 c.2)).trans
    hb.sound.mem_corners_iff.symm
  constructor
  · intro hc
    rw [ha.sound.blockStart_of_mem_corners hc] at hcovered
    exact hcovered.mp hc
  · intro hc
    rw [hb.sound.blockStart_of_mem_corners hc] at hcovered
    exact hcovered.mpr hc

end Likeness

/-! ### Runs -/

theorem Matched.replay [Std.TransOrd κ] {h g : History τ κ} (hmatched : h.atlas.Matched g.atlas)
    (rest : List (Edit τ κ)) :
    ∃ h' g', h.replay rest = .ok h' ∧ g.replay rest = .ok g' ∧ h'.atlas.Matched g'.atlas := by
  induction rest generalizing h g with
  | nil => exact ⟨h, g, h.replay_nil, g.replay_nil, hmatched⟩
  | cons e rest ih =>
      obtain ⟨s, s', hs, hs', -, hstep⟩ := hmatched.apply e
      obtain ⟨h', g', hh, hg, hrest⟩ :=
        ih (h := ⟨s.atlas, h.outcomes.push s.reply, h.events ++ s.events⟩)
          (g := ⟨s'.atlas, g.outcomes.push s'.reply, g.events ++ s'.events⟩) hstep
      exact ⟨h', g', History.replay_of_apply hs hh, History.replay_of_apply hs' hg, hrest⟩

theorem replay_contents [Std.TransOrd κ] [Std.LawfulEqOrd κ] {edits : List (Edit τ κ)}
    (hhonest : HonestRun .nowhere edits) :
    ∃ h, ({} : History τ κ).replay edits = .ok h ∧ h.atlas.Tallied ∧
      (∀ c, c ∈ h.atlas.tree.corners ↔ c ∈ edits.filterMap Edit.block?) ∧
      h.atlas.tree.Tracks (recorded .nowhere edits) ∧
      ∀ p, ∃ found, h.atlas.tile? p = .ok found ∧
        ∀ tile, found = some tile ↔ p.floor.toNat < floorCount ∧ LastPut p tile edits := by
  obtain ⟨h, hreplay, htallied⟩ := replay_tallied edits
  obtain ⟨h₁, hreplay₁, -, hcorners⟩ := replay_corners edits
  obtain ⟨h₂, hreplay₂, -, htracks⟩ := History.replay_tracks hhonest
  obtain ⟨h₃, hreplay₃, -, htile⟩ := replay_tile edits
  obtain rfl := Except.ok.inj (hreplay₁.symm.trans hreplay)
  obtain rfl := Except.ok.inj (hreplay₂.symm.trans hreplay)
  obtain rfl := Except.ok.inj (hreplay₃.symm.trans hreplay)
  refine ⟨h₃, hreplay, htallied, fun c => ?_, htracks, htile⟩
  rw [hcorners, List.mem_eraseDups]

/-- Runs of honest edits that leave the same record of creatures, put down the
same tiles and touch the same blocks lead to atlases that are alike. -/
theorem replay_alike [Std.TransOrd κ] [Std.LawfulEqOrd κ] {past past' : List (Edit τ κ)}
    (hhonest : HonestRun .nowhere past) (hhonest' : HonestRun .nowhere past')
    (hrecord : recorded .nowhere past = recorded .nowhere past')
    (hput : ∀ p tile, LastPut p tile past ↔ LastPut p tile past')
    (hblock : ∀ c, c ∈ past.filterMap Edit.block? ↔ c ∈ past'.filterMap Edit.block?) :
    ∃ h h', ({} : History τ κ).replay past = .ok h ∧ ({} : History τ κ).replay past' = .ok h' ∧
      h.atlas.Alike h'.atlas := by
  obtain ⟨h, hreplay, htallied, hcorners, htracks, htile⟩ := replay_contents hhonest
  obtain ⟨h', hreplay', htallied', hcorners', htracks', htile'⟩ := replay_contents hhonest'
  have hmatched : h.atlas.Matched h'.atlas := by
    refine ⟨htallied, htallied', fun c => ?_, fun u v => ?_, fun p => ?_⟩
    · rw [hcorners, hcorners', hblock]
    · rw [hrecord] at htracks
      exact (htracks u v).eq (htracks' u v)
    · obtain ⟨found, hfound, hlast⟩ := htile p
      obtain ⟨found', hfound', hlast'⟩ := htile' p
      rw [hfound, hfound']
      congr 1
      ext tile
      rw [hlast, hlast', hput]
  exact ⟨h, h', hreplay, hreplay', hmatched.alike⟩

variable [Std.TransOrd κ]

/-- Two runs, in whatever order they made their leaves, lead to atlases that
are interchangeable if they are alike, and that stay so whatever comes next. -/
theorem replay_interchangeable {past past' : List (Edit τ κ)} {h h' : History τ κ}
    (hreplay : ({} : History τ κ).replay past = .ok h)
    (hreplay' : ({} : History τ κ).replay past' = .ok h') (halike : h.atlas.Alike h'.atlas)
    (rest : List (Edit τ κ)) :
    ∃ k k', h.replay rest = .ok k ∧ h'.replay rest = .ok k' ∧
      k.atlas.Interchangeable k'.atlas := by
  obtain ⟨j, hj, htallied⟩ := replay_tallied past
  obtain ⟨j', hj', htallied'⟩ := replay_tallied past'
  obtain rfl := Except.ok.inj (hj.symm.trans hreplay)
  obtain rfl := Except.ok.inj (hj'.symm.trans hreplay')
  obtain ⟨k, k', hk, hk', hmatched⟩ := (matched_of_alike htallied htallied' halike).replay rest
  exact ⟨k, k', hk, hk', hmatched.interchangeable⟩

/-- A player appears and goes over to the next block, after which a tile is
put down. -/
def outing : List (Edit Nat (Handle .kindId)) :=
  [.enter ⟨6, 6, 0⟩ ⟨.player, 1⟩, .move ⟨6, 6, 0⟩ ⟨8, 6, 1⟩ ⟨.player, 1⟩, .putTile ⟨30, 6, 7⟩ 4]

/-- The tile comes first, and then the player, who is in the next block at
once. The first block is touched last, by a tile that does not stay. -/
def arrival : List (Edit Nat (Handle .kindId)) :=
  [.putTile ⟨30, 6, 7⟩ 4, .enter ⟨8, 6, 1⟩ ⟨.player, 1⟩, .putTile ⟨1, 1, 0⟩ 9,
    .clearTile ⟨1, 1, 0⟩]

theorem lastPut_outing_iff (p : Location) (tile : Nat) :
    LastPut p tile outing ↔ LastPut p tile arrival := by
  have houting : outing = [] ++ [.enter ⟨6, 6, 0⟩ ⟨.player, 1⟩] ++
      [.move ⟨6, 6, 0⟩ ⟨8, 6, 1⟩ ⟨.player, 1⟩] ++ [.putTile ⟨30, 6, 7⟩ 4] := rfl
  have harrival : arrival = [] ++ [.putTile ⟨30, 6, 7⟩ 4] ++ [.enter ⟨8, 6, 1⟩ ⟨.player, 1⟩] ++
      [.putTile ⟨1, 1, 0⟩ 9] ++ [.clearTile ⟨1, 1, 0⟩] := rfl
  rw [houting, harrival]
  simp only [lastPut_concat_iff, not_lastPut_nil, Edit.TilesAt, Edit.putTile.injEq, reduceCtorEq,
    and_false, or_false, false_or, not_false_eq_true, true_and]
  constructor
  · rintro ⟨rfl, rfl⟩
    decide
  · rintro ⟨hp, ⟨rfl, -⟩ | ⟨-, hput⟩⟩
    · exact absurd rfl hp
    · exact hput

theorem interchangeable_after_arrival :
    Std.TransOrd (Handle .kindId) ∧
      ∃ h h', ({} : History Nat (Handle .kindId)).replay outing = .ok h ∧
        ({} : History Nat (Handle .kindId)).replay arrival = .ok h' ∧ h.atlas.Alike h'.atlas ∧
        ∃ k k', h.replay [.leave ⟨8, 6, 1⟩ ⟨.player, 1⟩] = .ok k ∧
          h'.replay [.leave ⟨8, 6, 1⟩ ⟨.player, 1⟩] = .ok k' ∧
          k.atlas.Interchangeable k'.atlas := by
  have hrecord : recorded .nowhere outing = recorded .nowhere arrival := by
    funext c
    simp only [recorded, outing, arrival, List.foldl_cons, List.foldl_nil, Edit.record,
      Whereabouts.set]
    split_ifs <;> rfl
  have hblocks : (outing.filterMap Edit.block?).Perm (arrival.filterMap Edit.block?) := by decide
  obtain ⟨h, h', hreplay, hreplay', halike⟩ := replay_alike (by decide) (by decide) hrecord
    lastPut_outing_iff fun c => hblocks.mem_iff
  exact ⟨inferInstance, h, h', hreplay, hreplay', halike,
    replay_interchangeable hreplay hreplay' halike _⟩

end Atlas

end TileAtlas
