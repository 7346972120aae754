import TileAtlas.Proofs.Atlas.Lifecycle
import TileAtlas.Scenario.Command

/-!
What the events of an atlas tell of its leaves.

Planting looks for the neighbours that it reports in the same places in which
the links of the finished tree are looked for. So nothing but the events is
needed to get the leaves and all their links back: the notices in them are the
log of the list of corners, whatever edits the leaves were made by.
-/

namespace TileAtlas

theorem Quadtree.Sound.isSome_next?_iff {τ κ : Type} {t : Quadtree τ κ} (hs : t.Sound)
    {x y : UInt16} (hx : blockStart x = x) (hy : blockStart y = y) {s : Side}
    {u v : Option UInt16} (hnext : s.next? (x, y) = (u, v)) {found : Option LeafId}
    (hfound : t.locate? u v = .ok found) :
    found.isSome = true ↔ ∃ d ∈ t.corners, s.Ahead 1 (x, y) d := by
  obtain ⟨address, hcharts, -⟩ := hs.charted
  obtain ⟨hu, hv⟩ := Side.atStart_next? hx hy s
  rw [hnext] at hu hv
  have hiff : ∀ {id}, found = some id ↔ ∃ l, t.leaf id = .ok l ∧ s.Ahead 1 (x, y) (l.x, l.y) := by
    intro id
    have hok : found = some id ↔ t.locate? u v = .ok (some id) := by rw [hfound, Except.ok.injEq]
    rw [hok, hcharts.locate?_eq_some_iff hu hv]
    simp only [← Side.next?_eq_some_iff, hnext]
  rw [Option.isSome_iff_exists]
  constructor
  · rintro ⟨id, hid⟩
    obtain ⟨l, hl, hahead⟩ := hiff.mp hid
    exact ⟨(l.x, l.y), List.mem_of_getElem? (corner_of_leaf hl), hahead⟩
  · rintro ⟨d, hd, hahead⟩
    obtain ⟨l, hl, rfl⟩ := List.mem_map.mp hd
    obtain ⟨id, hid⟩ := hs.exists_leaf_of_mem_leaves hl
    exact ⟨id, hiff.mpr ⟨l, hid, hahead⟩⟩

theorem Quadtree.Sound.due_of_plant {τ κ : Type} {t : Quadtree τ κ} (hs : t.Sound)
    {x y : UInt16} {q : Planting τ κ} (h : t.plant x y = .ok q) :
    ∃ notices, q.events = notices.map Notice.event ∧
      Notice.Due t.corners (blockStart x, blockStart y) notices := by
  by_cases hmem : (blockStart x, blockStart y) ∈ t.corners
  · obtain ⟨id, hid⟩ := hs.mem_corners_iff.mp hmem
    obtain rfl := Except.ok.inj ((plant_of_some hid).symm.trans h)
    exact ⟨[], rfl, .inl ⟨hmem, rfl⟩⟩
  · obtain ⟨north, west, south, east, t', hnorth, hwest, hsouth, heast, hplant, -⟩ :=
      hs.plant_of_none (hs.locate_of_not_mem_corners hmem)
    obtain rfl := Except.ok.inj (hplant.symm.trans h)
    have hx := blockStart_blockStart x
    have hy := blockStart_blockStart y
    refine ⟨[⟨_, _, _, north.isSome, west.isSome, south.isSome, east.isSome⟩], rfl, ?_⟩
    refine .inr ⟨hmem, _, rfl, congrArg LeafId.ofIndex length_corners.symm, rfl, fun s => ?_⟩
    cases s with
    | north => exact hs.isSome_next?_iff hx hy (s := .north) rfl hnorth
    | west => exact hs.isSome_next?_iff hx hy (s := .west) rfl hwest
    | south => exact hs.isSome_next?_iff hx hy (s := .south) rfl hsouth
    | east => exact hs.isSome_next?_iff hx hy (s := .east) rfl heast

namespace Atlas

open Quadtree

variable {τ κ : Type} {a : Atlas τ κ}

/-! ### Links -/

theorem link_eq_some_iff_ahead (hs : a.tree.Sound) {i j : LeafId} {l : Leaf τ κ}
    (hl : a.leaf? i = some l) {d : UInt16 × UInt16} (hd : a.tree.corners[j.index]? = some d)
    {w : Heading} : w.link l = some j ↔ w.side.Ahead 1 (l.x, l.y) d := by
  rw [getElem?_corners, Option.map_eq_some_iff] at hd
  obtain ⟨m, hm, rfl⟩ := hd
  rw [link_eq_some_iff hs hl, leaf?, hm]
  simp only [Option.some.injEq, exists_eq_left']

theorem countP_link (hs : a.tree.Sound) (w : Heading) :
    a.leaves.countP (fun e => (w.link e.2).isSome) =
      a.tree.corners.countP fun c => ∃ d ∈ a.tree.corners, w.side.Ahead 1 c d := by
  have hleaves : ∀ p, a.tree.corners.countP p = a.leaves.countP fun e => p (e.2.x, e.2.y) := by
    intro p
    rw [← map_corner_leaves, List.countP_map]
    rfl
  rw [hleaves]
  refine List.countP_congr fun e he => ?_
  have hl := leaf?_eq_some_iff.mpr (hs.mem_namedLeaves_iff.mp he)
  obtain ⟨hx, hy⟩ := blockStart_corner hs hl
  rw [hs.isSome_next?_iff hx hy rfl (locate?_next? hs hl w), decide_eq_true_eq]

/-! ### Edits -/

variable [Creature κ]

/-- An edit reports the leaf that it makes, if it makes one, and then no other. -/
theorem events_apply (hs : a.tree.Sound) {e : Edit τ κ} {step : Step τ κ (Outcome τ)}
    (hstep : a.apply e = .ok step) :
    ∃ new rest, step.events = new.map Notice.event ++ rest ∧
      (∀ event ∈ rest, event.notice? = none) ∧
      e.block?.elim (new = []) (Notice.Due a.tree.corners · new) := by
  rcases planting_of_apply hs hstep with
    ⟨hblock, -, hrest⟩ | ⟨p, q, rest, hblock, hplant, -, hevents, hrest⟩
  · refine ⟨[], step.events, rfl, hrest, ?_⟩
    rw [hblock]
    rfl
  · obtain ⟨new, hnew, hdue⟩ := hs.due_of_plant hplant
    refine ⟨new, rest, by rw [hevents, hnew], hrest, ?_⟩
    rw [hblock]
    exact hdue

end Atlas

namespace History

variable {τ κ : Type}

def notices (h : History τ κ) : List Notice := h.events.toList.filterMap Event.notice?

variable [Creature κ]

/-- After every run of edits the notices are those of the blocks with a leaf. -/
theorem replay_log (edits : List (Edit τ κ)) :
    ∃ h, ({} : History τ κ).replay edits = .ok h ∧ h.atlas.tree.Sound ∧
      Log h.atlas.tree.corners h.notices := by
  refine replay_induction (P := fun _ h => h.atlas.tree.Sound ∧
    Log h.atlas.tree.corners h.notices) ⟨Quadtree.sound_empty, .empty⟩ ?_
  rintro past e h - ⟨hs, hlog⟩
  obtain ⟨step, hstep, hs', -⟩ := Atlas.apply_ok hs e
  refine ⟨_, extend_of_apply hstep, hs', ?_⟩
  obtain ⟨new, rest, hevents, hrest, hdue⟩ := Atlas.events_apply hs hstep
  have hnotices : ∀ outcomes, (History.mk step.atlas outcomes (h.events ++ step.events)).notices =
      h.notices ++ new := by
    intro outcomes
    rw [notices, Array.toList_appendList, List.filterMap_append, hevents, List.filterMap_append,
      Event.filterMap_notice?, List.filterMap_eq_nil_iff.mpr hrest, List.append_nil]
    rfl
  rw [hnotices, Atlas.corners_apply hs hstep]
  cases hblock : e.block? with
  | none =>
      rw [hblock] at hdue
      obtain rfl : new = [] := hdue
      rw [List.append_nil]
      exact hlog
  | some block =>
      rw [hblock] at hdue
      exact hlog.settle hdue

end History

namespace Edit

variable {τ κ : Type}

/-- Edits that leave no new leaf behind, going by their outcomes. -/
inductive Idle : Edit τ κ → Outcome τ → Prop
  | refused {p : Location} {tile : τ} {refusal : Refusal} :
      Idle (.putTile p tile) (.placed (.error refusal))
  | cleared {p : Location} {outcome : Outcome τ} : Idle (.clearTile p) outcome
  | left {p : Location} {c : κ} {outcome : Outcome τ} : Idle (.leave p c) outcome

theorem Idle.block?_eq_none [Creature κ] {a : Atlas τ κ} (hs : a.tree.Sound) {e : Edit τ κ}
    {step : Step τ κ (Outcome τ)} (hstep : a.apply e = .ok step) (h : e.Idle step.reply) :
    e.block? = none := by
  cases e with
  | putTile p tile =>
      by_cases hfloor : p.floor.toNat < floorCount
      · obtain ⟨q, tree, -, -, hput, -⟩ := Atlas.putTile_ok hs p tile hfloor
        obtain rfl := Step.eq_of_map_ok hput Outcome.placed hstep
        cases h
      · exact if_neg hfloor
  | clearTile p => rfl
  | enter p c => cases h
  | leave p c => rfl
  | move p q c => cases h

end Edit

theorem Session.events_query {order : HandleOrder} {s s' : Session order} {i : Nat} {q : Query}
    {r : Report order} (h : s.perform ⟨i, .query q⟩ = .ok (s', some r)) : r.events = [] := by
  rw [perform] at h
  split at h
  · simp only [Action.edits, History.replay_nil, bind, Except.bind] at h
    split at h
    · cases h
    · obtain rfl := Option.some.inj (Prod.mk.inj (Except.ok.inj h)).2
      rfl
  · cases h

namespace Atlas

open Quadtree

variable {τ κ : Type}

/-- The events of a history are the log of how its leaves came to be. -/
structure Chronicled [Creature κ] (h : History τ κ) : Prop where
  /-- Each leaf has its notice, in the order of the names. -/
  length : h.notices.length = h.atlas.counts.leaves
  leaf (i : Nat) (n : Notice) : h.notices[i]? = some n →
    n.leaf.index = i ∧ ∃ l, h.atlas.leaf? n.leaf = some l ∧ n.corner = (l.x, l.y)
  /-- A flag is set if there is an earlier notice of the next block on that side. -/
  flag_iff (i : Nat) (n : Notice) (s : Side) : h.notices[i]? = some n →
    (n.flag s = true ↔ ∃ m ∈ h.notices.take i, s.Ahead 1 n.corner m.corner)
  /-- There are as many links as flags that are set. -/
  links : (h.atlas.leaves.countP fun e => e.2.south.isSome) +
    (h.atlas.leaves.countP fun e => e.2.east.isSome) = (h.notices.map Notice.flags).sum
  /-- The later notice of two has the flag on the side of the other one set if there is a link
  between them. -/
  link_iff (w : Heading) (i j : LeafId) (l : Leaf τ κ) (n m : Notice) :
    h.atlas.leaf? i = some l → h.notices[i.index]? = some n → h.notices[j.index]? = some m →
      (w.link l = some j ↔ w.side.Ahead 1 n.corner m.corner ∧
        (if i.index < j.index then m.flag w.side.opposite else n.flag w.side) = true)
  /-- An edit has one notice at most, and it comes before the other events. -/
  edit (e : Edit τ κ) : ∃ step, ∃ (new : List Notice) (rest : List Event),
    h.atlas.apply e = .ok step ∧ step.events = new.map Notice.event ++ rest ∧ new.length ≤ 1 ∧
      ∀ event ∈ rest, event.notice? = none
  idle (e : Edit τ κ) (step : Step τ κ (Outcome τ)) : h.atlas.apply e = .ok step →
    e.Idle step.reply → ∀ event ∈ step.events, event.notice? = none

variable [Creature κ]

theorem chronicled_of_log {h : History τ κ} (hs : h.atlas.tree.Sound)
    (hlog : Log h.atlas.tree.corners h.notices) : Chronicled h := by
  have hlength : h.notices.length = h.atlas.tree.leaves.size :=
    hlog.length_eq.trans length_corners
  have hcorner : ∀ {i : Nat} {n : Notice}, h.notices[i]? = some n →
      h.atlas.tree.corners[i]? = some n.corner := by
    intro i n hn
    rw [← hlog.map_corner, List.getElem?_map, hn, Option.map_some]
  constructor
  case length => exact hlength
  case leaf =>
    intro i n hn
    have hindex : n.leaf.index = i := by
      rw [hlog.leaf_eq hn, hs.index_ofIndex]
      rw [← hlength]
      exact (List.getElem?_eq_some_iff.mp hn).choose
    have hget := hcorner hn
    rw [getElem?_corners, Option.map_eq_some_iff] at hget
    obtain ⟨l, hl, hplace⟩ := hget
    refine ⟨hindex, l, ?_, hplace.symm⟩
    rw [leaf?, hindex, hl]
  case flag_iff =>
    intro i n s hn
    exact hlog.flag_iff hn s
  case links =>
    rw [Notice.sum_flags]
    have hsouth := countP_link hs .south
    have heast := countP_link hs .east
    rw [hlog.countP_ahead hs.nodup_corners] at hsouth heast
    exact congrArg₂ (· + ·) hsouth heast
  case link_iff =>
    intro w i j l n m hl hn hm
    have hplace := corner_of_leaf (leaf?_eq_some_iff.mp hl)
    rw [hcorner hn, Option.some.injEq] at hplace
    rw [link_eq_some_iff_ahead hs hl (hcorner hm), ← hplace, iff_self_and]
    exact hlog.flag_of_ahead hn hm
  case edit =>
    intro e
    obtain ⟨step, hstep, -⟩ := apply_ok hs e
    obtain ⟨new, rest, hevents, hrest, hdue⟩ := events_apply hs hstep
    refine ⟨step, new, rest, hstep, hevents, ?_, hrest⟩
    cases hblock : e.block? with
    | none =>
        rw [hblock] at hdue
        obtain rfl : new = [] := hdue
        exact Nat.zero_le 1
    | some block =>
        rw [hblock] at hdue
        exact Notice.Due.length_le hdue
  case idle =>
    intro e step hstep hidle
    rcases planting_of_apply hs hstep with ⟨-, -, hrest⟩ | ⟨p, q, rest, hblock, -⟩
    · exact hrest
    · rw [hidle.block?_eq_none hs hstep] at hblock
      cases hblock

/-- After every run of edits the events are the log of how the leaves came to
be, and questions that are asked in between leave no trace. -/
theorem replay_chronicled (edits : List (Edit τ κ)) :
    (∃ h, ({} : History τ κ).replay edits = .ok h ∧ Chronicled h) ∧
      ∀ (order : HandleOrder) (s s' : Session order) (i : Nat) (q : Query) (r : Report order),
        s.perform ⟨i, .query q⟩ = .ok (s', some r) → r.events = [] := by
  obtain ⟨h, hreplay, hs, hlog⟩ := History.replay_log edits
  exact ⟨⟨h, hreplay, chronicled_of_log hs hlog⟩, fun _ _ _ _ _ _ => Session.events_query⟩

end Atlas

end TileAtlas
