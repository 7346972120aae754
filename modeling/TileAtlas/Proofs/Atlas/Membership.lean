import Mathlib.Data.List.Forall2
import Mathlib.Data.Set.Card
import TileAtlas.Proofs.Atlas.Coherence
import TileAtlas.Proofs.Atlas.Tracking

/-!
Callers who are right about who is where.

As long as every report agrees with the record kept outside the atlas, nothing
goes wrong: the answers are those that the caller expects, nothing is logged
for a closer look, no assertion fails, and the number kept alongside the tree
is the number of creatures on the map. What carries all of this is that the
rosters follow the record.
-/

namespace TileAtlas

/-! ### Counting -/

namespace Whereabouts

variable {κ : Type} {w : Whereabouts κ} {c : κ}

def onMap (w : Whereabouts κ) : Set κ := {c | ∃ p, w c = some p}

theorem onMap_nowhere : (nowhere : Whereabouts κ).onMap = ∅ := by
  ext c
  simp [onMap, nowhere]

variable [Creature κ] [Std.LawfulEqOrd κ]

theorem onMap_set_some (w : Whereabouts κ) (c : κ) (p : Location) :
    (w.set c (some p)).onMap = insert c w.onMap := by
  ext d
  by_cases hd : d = c
  · simp [onMap, hd, set_self]
  · simp [onMap, hd, set_of_ne]

theorem onMap_set_none (w : Whereabouts κ) (c : κ) : (w.set c none).onMap = w.onMap \ {c} := by
  ext d
  by_cases hd : d = c
  · simp [onMap, hd, set_self]
  · simp [onMap, hd, set_of_ne]

theorem encard_onMap_enter {n : Nat} (hn : w.onMap.encard = n) (hc : w c = none) (p : Location) :
    (w.set c (some p)).onMap.encard = (n + 1 : Nat) := by
  have hmem : c ∉ w.onMap := by simp [onMap, hc]
  rw [onMap_set_some, Set.encard_insert_of_notMem hmem, hn, Nat.cast_add, Nat.cast_one]

theorem encard_onMap_leave {n : Nat} (hn : w.onMap.encard = n) (hc : c ∈ w.onMap) :
    (w.set c none).onMap.encard = (n - 1 : Nat) := by
  have hrest := Set.encard_sdiff_singleton_add_one hc
  rw [onMap_set_none, ENat.natCast_sub, ← hn, ← hrest, Nat.cast_one]
  exact (ENat.addLECancellable_of_ne_top ENat.one_ne_top).add_tsub_cancel_right.symm

theorem onMap_move (hc : c ∈ w.onMap) (q : Location) : (w.set c (some q)).onMap = w.onMap := by
  rw [onMap_set_some, Set.insert_eq_of_mem hc]

end Whereabouts

/-! ### Single edits -/

section Steps

variable {τ κ : Type}

/-- The reply is the one expected by a caller who is right about who is where. -/
def Edit.Confirmed : Edit τ κ → Outcome τ → Prop
  | .enter _ _, reply => reply = .entered true
  | .leave _ _, reply => reply = .left true
  | .move _ _ _, reply => reply = .moved
  | .putTile _ _, _ => True
  | .clearTile _, _ => True

variable [Creature κ] [Std.TransOrd κ] [Std.LawfulEqOrd κ] {a : Atlas τ κ} {w : Whereabouts κ}
  {c : κ} {p : Location} {e : Edit τ κ}

namespace Atlas

theorem enter_honest (hs : a.tree.Sound) (ht : a.tree.Tracks w)
    (hcount : w.onMap.encard = a.members) (hnew : w c = none) (p : Location) :
    ∃ step, a.enter p c = .ok step ∧ step.reply = true ∧
      (∀ event ∈ step.events, event.level = .trace) ∧
      (w.set c (some p)).onMap.encard = step.atlas.members := by
  obtain ⟨q, a', added, hplant, -, henter, hadded, hmembers, -⟩ := enter_ok hs p c
  have habsent : c ∉ (a.tree.body p.x p.y).roster.creatures := by
    rw [ht.mem_iff]
    rintro ⟨r, hr, -⟩
    cases hnew.symm.trans hr
  obtain rfl : added = true := hadded.mpr habsent
  refine ⟨_, henter, rfl, fun event hevent => ?_, ?_⟩
  · exact hs.level_of_plant hplant event (by simpa using hevent)
  · exact (Whereabouts.encard_onMap_enter hcount hnew p).trans (congrArg _ hmembers.symm)

theorem leave_honest (hs : a.tree.Sound) (ht : a.tree.Tracks w)
    (hcount : w.onMap.encard = a.members) (hthere : ∃ r ∈ w c, p.SameBlock r) :
    ∃ step, a.leave p c = .ok step ∧ step.reply = true ∧
      (∀ event ∈ step.events, event.level = .trace) ∧
      (w.set c none).onMap.encard = step.atlas.members := by
  obtain ⟨a', removed, hleave, hremoved, hmembers, -⟩ := leave_ok hs p c
  obtain rfl : removed = true := hremoved.mpr (ht.mem_of_sameBlock hthere)
  refine ⟨_, hleave, rfl, fun event hevent => ?_, ?_⟩
  · simp at hevent
  · obtain ⟨r, hr, -⟩ := hthere
    exact (Whereabouts.encard_onMap_leave hcount ⟨r, hr⟩).trans (congrArg _ hmembers.symm)

theorem move_honest (hs : a.tree.Sound) (ht : a.tree.Tracks w)
    (hcount : w.onMap.encard = a.members) (hthere : ∃ r ∈ w c, p.SameBlock r) (q : Location) :
    ∃ step, a.move p q c = .ok step ∧ (∀ event ∈ step.events, event.level = .trace) ∧
      (w.set c (some q)).onMap.encard = step.atlas.members := by
  have htracked : c ∈ w.onMap := by
    obtain ⟨r, hr, -⟩ := hthere
    exact ⟨r, hr⟩
  rw [Whereabouts.onMap_move htracked]
  by_cases hsettled : a.tree.covers p.x p.y = true ∧ p.SameBlock q
  · exact ⟨_, move_settled hs hsettled.1 hsettled.2 c, nofun, hcount⟩
  obtain ⟨r, a₁, a₂, removed, added, hplant, hr, hmove, hremoved, hadded, hmembers, hamends, -⟩ :=
    move_ok hs hsettled c
  obtain rfl : removed = true := hremoved.mpr (ht.mem_of_sameBlock hthere)
  -- Once struck off, the creature is nowhere, so also not where it goes to.
  have habsent : c ∉ (a₁.tree.body q.x q.y).roster.creatures := by
    have hlists := Leaf.lists_dismiss (ht q.x q.y) hthere
    rw [hamends.body, hr.body, SortedSet.mem_iff_mem_toList, hlists.mem_iff,
      Whereabouts.inBlock_set_none_iff]
    exact fun hc => hc.2 rfl
  obtain rfl : added = true := hadded.mpr habsent
  refine ⟨_, hmove, fun event hevent => ?_, ?_⟩
  · simp only [if_true, List.append_nil, List.mem_append, List.mem_singleton] at hevent
    rcases hevent with hevent | rfl
    · exact hs.level_of_plant hplant event hevent
    · rfl
  · -- One less and one more are as many as before, since there was somebody.
    have hpos : 0 < a.members := by
      rw [Nat.pos_iff_ne_zero]
      intro hzero
      rw [hzero, Nat.cast_zero, Set.encard_eq_zero] at hcount
      exact Set.notMem_empty c (hcount ▸ htracked)
    rw [Bool.toNat_true, Nat.sub_add_cancel hpos] at hmembers
    exact hcount.trans (congrArg _ hmembers.symm)

/-- An edit that agrees with the record gets the expected reply, reports
nothing that calls for a closer look and keeps the count right. -/
theorem apply_honest (hs : a.tree.Sound) (ht : a.tree.Tracks w)
    (hcount : w.onMap.encard = a.members) (hhonest : e.Honest w) :
    ∃ step, a.apply e = .ok step ∧ e.Confirmed step.reply ∧
      (∀ event ∈ step.events, event.level = .trace) ∧
      (e.record w).onMap.encard = step.atlas.members := by
  cases e with
  | putTile p tile =>
      by_cases hfloor : p.floor.toNat < floorCount
      · obtain ⟨q, tree, hplant, -, hput, -⟩ := putTile_ok hs p tile hfloor
        exact ⟨_, Step.map_ok hput Outcome.placed, trivial, hs.level_of_plant hplant, hcount⟩
      · exact ⟨_, Step.map_ok (putTile_refused p tile hfloor) Outcome.placed, trivial, nofun,
          hcount⟩
  | clearTile p =>
      obtain ⟨tree, hclear, -⟩ := clearTile_ok hs p
      exact ⟨_, Step.map_ok hclear Outcome.cleared, trivial, nofun, hcount⟩
  | enter p c =>
      obtain ⟨step, henter, hreply, hrest⟩ := enter_honest hs ht hcount hhonest p
      exact ⟨_, Step.map_ok henter Outcome.entered, congrArg _ hreply, hrest⟩
  | leave p c =>
      obtain ⟨step, hleave, hreply, hrest⟩ := leave_honest hs ht hcount hhonest
      exact ⟨_, Step.map_ok hleave Outcome.left, congrArg _ hreply, hrest⟩
  | move p q c =>
      obtain ⟨step, hmove, hrest⟩ := move_honest hs ht hcount hhonest q
      exact ⟨_, Step.map_ok hmove fun _ => Outcome.moved, rfl, hrest⟩

theorem alarm?_honest (hs : a.tree.Sound) (ht : a.tree.Tracks w) (hhonest : e.Honest w) :
    a.alarm? e = .ok none := by
  cases e with
  | putTile p tile => rfl
  | clearTile p => rfl
  | enter p c => rfl
  | leave p c => rw [alarm?_leave hs, (ht p.x p.y).coherent.alarm?_eq_none]
  | move p q c =>
      by_cases hsettled : a.tree.covers p.x p.y = true ∧ p.SameBlock q
      · exact alarm?_move_settled hs hsettled.1 hsettled.2 c
      · rw [alarm?_move hs hsettled, (ht p.x p.y).coherent.alarm?_eq_none,
          if_pos (ht.mem_of_sameBlock hhonest)]
        rfl

end Atlas

end Steps

/-! ### Runs -/

section Runs

variable {τ κ : Type} [Creature κ] {a : Atlas τ κ} {w : Whereabouts κ}

/-- The memberships of an atlas are those on record: each block holds those
last reported there and sorts them by kind, so everyone on the map is a member
of one block, and nobody else is a member of any. -/
structure Atlas.Agrees (a : Atlas τ κ) (w : Whereabouts κ) : Prop where
  block (x y : UInt16) :
    (∃ id l, a.leafAt? x y = .ok (some id) ∧ a.leaf? id = some l ∧
      l.roster.Lists (w.InBlock x y)) ∨
    (a.leafAt? x y = .ok none ∧ ∀ c, ¬ w.InBlock x y c)
  tracked (c : κ) : c ∈ w.onMap → ∃! id, ∃ l, a.leaf? id = some l ∧ c ∈ l.roster.creatures
  untracked (c : κ) : c ∉ w.onMap → ∀ id l, a.leaf? id = some l → c ∉ l.roster.creatures
  count : w.onMap.encard = a.counts.creatures

variable [Std.TransOrd κ] [Std.LawfulEqOrd κ]

theorem Atlas.mem_leaf?_iff (hs : a.tree.Sound) (ht : a.tree.Tracks w) {id : LeafId}
    {l : Leaf τ κ} (hl : a.leaf? id = some l) {c : κ} :
    c ∈ l.roster.creatures ↔ ∃ p ∈ w c, blockStart p.x = l.x ∧ blockStart p.y = l.y := by
  have hleaf := leaf?_eq_some_iff.mp hl
  have hmem := ht.mem_iff (x := l.x) (y := l.y) (c := c)
  rw [Quadtree.body_of_some (hs.locate_corner hleaf) hleaf, Leaf.roster_unlinked] at hmem
  rw [hmem, Whereabouts.InBlock]
  simp only [Location.InBlock, hs.aligned hleaf]

theorem Atlas.agrees_of_tracks (hs : a.tree.Sound) (ht : a.tree.Tracks w)
    (hcount : w.onMap.encard = a.members) : a.Agrees w where
  block x y := by
    have hlists := ht x y
    obtain ⟨found, hfound⟩ := hs.locate_ok x y
    cases found with
    | none =>
        refine .inr ⟨hfound, fun c hc => ?_⟩
        rw [← hlists.mem_iff, Quadtree.body_of_none hfound] at hc
        cases hc
    | some id =>
        obtain ⟨l, hl, -⟩ := hs.locate_eq_some_iff.mp hfound
        rw [Quadtree.body_of_some hfound hl] at hlists
        exact .inl ⟨id, l, hfound, leaf?_eq_some_iff.mpr hl, hlists⟩
  tracked c hc := by
    obtain ⟨p, hp⟩ := hc
    have hmem : c ∈ (a.tree.body p.x p.y).roster.creatures.toList :=
      ((ht p.x p.y).mem_iff c).mpr ⟨p, hp, rfl, rfl⟩
    obtain ⟨id, l, -, hl, hx, hy, -⟩ := hs.exists_leaf_of_mem hmem
    have hleaf : a.leaf? id = some l := leaf?_eq_some_iff.mpr hl
    refine ⟨id, ⟨l, hleaf, (mem_leaf?_iff hs ht hleaf).mpr ⟨p, hp, hx.symm, hy.symm⟩⟩, ?_⟩
    -- Another leaf with the creature in it would have the same corner.
    rintro j ⟨m, hm, hc⟩
    obtain ⟨r, hr, hrx, hry⟩ := (mem_leaf?_iff hs ht hm).mp hc
    obtain rfl := Option.some.inj (hp.symm.trans hr)
    exact eq_of_corner_eq hs hm hleaf (hrx.symm.trans hx.symm) (hry.symm.trans hy.symm)
  untracked c hc id l hl hmem := by
    obtain ⟨p, hp, -⟩ := (mem_leaf?_iff hs ht hl).mp hmem
    exact hc ⟨p, hp⟩
  count := hcount

structure History.Orderly (h : History τ κ) (past : List (Edit τ κ)) : Prop where
  sound : h.atlas.tree.Sound
  tracks : h.atlas.tree.Tracks (recorded .nowhere past)
  count : (recorded .nowhere past).onMap.encard = h.atlas.members
  confirmed : List.Forall₂ Edit.Confirmed past h.outcomes.toList
  quiet : ∀ event ∈ h.events, event.level = .trace

omit [Std.TransOrd κ] [Std.LawfulEqOrd κ] in
theorem History.orderly_empty : ({} : History τ κ).Orderly [] where
  sound := Quadtree.sound_empty
  tracks := Quadtree.tracks_empty
  count := by
    show Whereabouts.nowhere.onMap.encard = ((0 : Nat) : ℕ∞)
    rw [Whereabouts.onMap_nowhere, Set.encard_empty, Nat.cast_zero]
  confirmed := .nil
  quiet event hevent := by cases Array.not_mem_empty event hevent

theorem History.Orderly.extend {h : History τ κ} {past : List (Edit τ κ)} {e : Edit τ κ}
    (ho : h.Orderly past) (hhonest : e.Honest (recorded .nowhere past)) :
    ∃ k, h.extend e = .ok k ∧ k.Orderly (past ++ [e]) := by
  obtain ⟨step, hstep, hconfirmed, hquiet, hcount⟩ :=
    Atlas.apply_honest ho.sound ho.tracks ho.count hhonest
  obtain ⟨step', hstep', hs, hbody⟩ := Atlas.apply_ok ho.sound e
  obtain rfl := Except.ok.inj (hstep.symm.trans hstep')
  refine ⟨_, extend_of_apply hstep, hs, fun x y => ?_, ?_, ?_, fun event hevent => ?_⟩
  · rw [hbody, recorded_concat]
    exact Edit.lists_amend hhonest (ho.tracks x y) _
  · rw [recorded_concat]
    exact hcount
  · rw [Array.toList_push]
    exact List.rel_append ho.confirmed (.cons hconfirmed .nil)
  · rw [← Array.mem_toList_iff, Array.toList_appendList, List.mem_append,
      Array.mem_toList_iff] at hevent
    rcases hevent with hevent | hevent
    · exact ho.quiet event hevent
    · exact hquiet event hevent

/-- After any part of a run of honest edits the memberships are those on
record, every edit so far got the reply that its caller expects, nothing was
logged for a closer look, and the next edit fails no assertion. -/
theorem Atlas.replay_honest {edits past : List (Edit τ κ)} (hhonest : HonestRun .nowhere edits)
    (hpast : past <+: edits) :
    ∃ h, ({} : History τ κ).replay past = .ok h ∧ h.atlas.Agrees (recorded .nowhere past) ∧
      List.Forall₂ Edit.Confirmed past h.outcomes.toList ∧
      (∀ event ∈ h.events, event.level ≠ .debug) ∧
      ∀ e, past ++ [e] <+: edits → h.atlas.alarm? e = .ok none := by
  have hnext : ∀ {past e}, past ++ [e] <+: edits → e.Honest (recorded .nowhere past) := by
    rintro past e ⟨rest, rfl⟩
    rw [List.append_assoc] at hhonest
    exact hhonest.of_append.1
  obtain ⟨h, hreplay, ho⟩ : ∃ h, ({} : History τ κ).replay past = .ok h ∧ h.Orderly past := by
    refine History.replay_induction (P := fun past h => h.Orderly past) History.orderly_empty ?_
    intro before e h hbefore ho
    exact ho.extend (hnext (hbefore.trans hpast))
  refine ⟨h, hreplay, agrees_of_tracks ho.sound ho.tracks ho.count, ho.confirmed, ?_, ?_⟩
  · intro event hevent
    rw [ho.quiet event hevent]
    exact nofun
  · intro e he
    exact alarm?_honest ho.sound ho.tracks (hnext he)

/-- A creature enters, moves within its block and then to the next one, and
leaves from there, while another one enters and stays. -/
def errands : List (Edit Nat (Handle .idKind)) :=
  [.enter ⟨6, 6, 0⟩ ⟨.npc, 1⟩, .putTile ⟨12, 6, 7⟩ 4, .enter ⟨7, 1, 2⟩ ⟨.monster, 1⟩,
    .move ⟨6, 6, 0⟩ ⟨7, 6, 1⟩ ⟨.npc, 1⟩, .move ⟨0, 0, 0⟩ ⟨8, 6, 1⟩ ⟨.npc, 1⟩,
    .leave ⟨15, 7, 3⟩ ⟨.npc, 1⟩]

theorem orderly_during_errands :
    HonestRun .nowhere errands ∧ errands.dropLast <+: errands ∧
      ∃ h, ({} : History Nat (Handle .idKind)).replay errands.dropLast = .ok h ∧
        h.atlas.Agrees (recorded .nowhere errands.dropLast) ∧
        List.Forall₂ Edit.Confirmed errands.dropLast h.outcomes.toList ∧
        (∀ event ∈ h.events, event.level ≠ .debug) ∧
        h.atlas.alarm? (.leave ⟨15, 7, 3⟩ ⟨.npc, 1⟩) = .ok none := by
  have hhonest : HonestRun .nowhere errands := by decide
  have hpast : errands.dropLast <+: errands := errands.dropLast_prefix
  obtain ⟨h, hreplay, hagrees, hconfirmed, hquiet, halarm⟩ := Atlas.replay_honest hhonest hpast
  exact ⟨hhonest, hpast, h, hreplay, hagrees, hconfirmed, hquiet, halarm _ (List.prefix_refl _)⟩

end Runs

end TileAtlas
