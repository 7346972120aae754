import TileAtlas.Atlas.History
import TileAtlas.Proofs.Quadtree.Contents
import TileAtlas.Proofs.Roster
import TileAtlas.Proofs.TileStore

/-!
What the edits of an atlas do.

Every edit of a sound atlas goes through. Its effect is described block by
block: `Edit.amend` says what an edit makes of the body of a block, and
`apply_ok` that the step which comes out has exactly these bodies. What holds
of a whole run is shown by `replay_induction`.
-/

namespace TileAtlas

/-! ### Leaves with other creatures -/

namespace Leaf

variable {τ κ : Type} [Creature κ]

def welcome (l : Leaf τ κ) (c : κ) : Leaf τ κ := l.setRoster (l.roster.welcome c)

def dismiss (l : Leaf τ κ) (c : κ) : Leaf τ κ := l.setRoster (l.roster.dismiss c)

theorem welcome_of_mem {l : Leaf τ κ} {c : κ} (h : c ∈ l.roster.creatures) : l.welcome c = l := by
  rw [welcome, Roster.welcome_of_mem h]
  rfl

theorem dismiss_of_not_mem {l : Leaf τ κ} {c : κ} (h : c ∉ l.roster.creatures) :
    l.dismiss c = l := by
  rw [dismiss, Roster.dismiss_of_not_mem h]
  rfl

theorem not_mem_ofPoint (x y : UInt16) (c : κ) :
    c ∉ (ofPoint x y : Leaf τ κ).roster.creatures := by
  rintro ⟨d, hd, -⟩
  cases hd

end Leaf

namespace Atlas

variable {τ κ : Type} {a : Atlas τ κ}

open Quadtree

/-! ### Tiles -/

theorem putTile_ok (hs : a.tree.Sound) (p : Location) (tile : τ)
    (hfloor : p.floor.toNat < floorCount) :
    ∃ q tree, a.tree.plant p.x p.y = .ok q ∧ Rooted a.tree p.x p.y q ∧
      a.putTile p tile = .ok
        { atlas := { a with tree }, reply := .ok q.leaf, events := q.events } ∧
      Amends q.tree tree p (·.putTile p.x p.y ⟨p.floor.toNat, hfloor⟩ tile) := by
  obtain ⟨q, hplant, hq⟩ := hs.plant_rooted p.x p.y
  obtain ⟨tree, htree, hamends⟩ := hq.sound.modifyLeaf_ok hq.locate
    (f := (·.putTile p.x p.y ⟨p.floor.toNat, hfloor⟩ tile)) (fun _ => rfl) (fun _ => rfl)
  refine ⟨q, tree, hplant, hq, ?_, hamends⟩
  rw [putTile, dif_pos hfloor]
  simp only [hplant, htree, bind, Except.bind]
  rfl

theorem putTile_refused (p : Location) (tile : τ) (hfloor : ¬ p.floor.toNat < floorCount) :
    a.putTile p tile = .ok
      { atlas := a, reply := .error (.floorOutOfRange p.floor), events := [] } := by
  rw [putTile, dif_neg hfloor]
  rfl

theorem clearTile_ok (hs : a.tree.Sound) (p : Location) :
    ∃ tree, a.clearTile p = .ok
        { atlas := { a with tree }, reply := (a.tree.body p.x p.y).tiles.get? p.x p.y p.floor,
          events := [] } ∧
      Amends a.tree tree p (·.clearTile p.x p.y p.floor) := by
  obtain ⟨found, hfound⟩ := hs.locate_ok p.x p.y
  cases found with
  | none =>
      have hbody : a.tree.body p.x p.y = .ofPoint p.x p.y := body_of_none hfound
      refine ⟨a.tree, ?_, .refl hs ?_⟩
      · rw [clearTile, hfound, hbody]
        show _ = Except.ok (Step.mk a ((∅ : TileStore τ).get? p.x p.y p.floor) [])
        rw [TileStore.get?_empty]
        rfl
      · rw [hbody, Leaf.clearTile]
        show Leaf.mk _ _ ((∅ : TileStore τ).clear p.x p.y p.floor) _ _ _ = _
        rw [TileStore.clear_empty]
        rfl
  | some id =>
      obtain ⟨l, hl, -⟩ := hs.locate_eq_some_iff.mp hfound
      obtain ⟨tree, htree, hamends⟩ := hs.modifyLeaf_ok hfound
        (f := (·.clearTile p.x p.y p.floor)) (fun _ => rfl) (fun _ => rfl)
      refine ⟨tree, ?_, hamends⟩
      rw [clearTile, hfound, body_of_some hfound hl]
      simp only [hl, htree, bind, Except.bind]
      rfl

/-! ### Members -/

variable [Creature κ]

theorem addMember_ok (hs : a.tree.Sound) {p : Location} {id : LeafId}
    (hid : a.tree.locate p.x p.y = .ok (some id)) (c : κ) :
    ∃ a' added, a.addMember id c = .ok (a', added) ∧
      (added = true ↔ c ∉ (a.tree.body p.x p.y).roster.creatures) ∧
      a'.members = a.members + added.toNat ∧ Amends a.tree a'.tree p (·.welcome c) := by
  obtain ⟨l, hl, -⟩ := hs.locate_eq_some_iff.mp hid
  have hroster : (a.tree.body p.x p.y).roster = l.roster := by
    rw [body_of_some hid hl, Leaf.roster_unlinked]
  rw [hroster]
  by_cases hc : c ∈ l.roster.creatures
  · refine ⟨a, false, ?_, by simp [hc], rfl, .refl hs (Leaf.welcome_of_mem ?_)⟩
    · rw [addMember, hl]
      simp only [bind, Except.bind, Roster.insert?_of_mem hc]
      rfl
    · rw [hroster]
      exact hc
  · obtain ⟨tree, htree, hamends⟩ := hs.modifyLeaf_ok hid
      (f := (·.setRoster (l.roster.welcome c))) (fun _ => rfl) (fun _ => rfl)
    refine ⟨{ tree, members := a.members + 1 }, true, ?_, by simp [hc], rfl, hamends.congr ?_⟩
    · rw [addMember, hl]
      simp only [bind, Except.bind, Roster.insert?_of_not_mem hc, htree]
      rfl
    · rw [Leaf.welcome, hroster]

theorem removeMember_ok (hs : a.tree.Sound) {p : Location} {id : LeafId}
    (hid : a.tree.locate p.x p.y = .ok (some id)) (c : κ) :
    ∃ a' removed, a.removeMember id c = .ok (a', removed) ∧
      (removed = true ↔ c ∈ (a.tree.body p.x p.y).roster.creatures) ∧
      a'.members = a.members - removed.toNat ∧ Amends a.tree a'.tree p (·.dismiss c) := by
  obtain ⟨l, hl, -⟩ := hs.locate_eq_some_iff.mp hid
  have hroster : (a.tree.body p.x p.y).roster = l.roster := by
    rw [body_of_some hid hl, Leaf.roster_unlinked]
  rw [hroster]
  by_cases hc : c ∈ l.roster.creatures
  · obtain ⟨tree, htree, hamends⟩ := hs.modifyLeaf_ok hid
      (f := (·.setRoster (l.roster.dismiss c))) (fun _ => rfl) (fun _ => rfl)
    refine ⟨{ tree, members := a.members - 1 }, true, ?_, by simp [hc], rfl, hamends.congr ?_⟩
    · rw [removeMember, hl]
      simp only [bind, Except.bind, Roster.erase?_of_mem hc, htree]
      rfl
    · rw [Leaf.dismiss, hroster]
  · refine ⟨a, false, ?_, by simp [hc], rfl, .refl hs (Leaf.dismiss_of_not_mem ?_)⟩
    · rw [removeMember, hl]
      simp only [bind, Except.bind, Roster.erase?_of_not_mem hc]
      rfl
    · rw [hroster]
      exact hc

theorem removeMember?_ok (hs : a.tree.Sound) (p : Location) (id : Option LeafId)
    (hid : ∀ {i}, id = some i → a.tree.locate p.x p.y = .ok (some i))
    (hnone : id = none → a.tree.body p.x p.y = .ofPoint p.x p.y) (c : κ) :
    ∃ a' removed, a.removeMember? id c = .ok (a', removed) ∧
      (removed = true ↔ c ∈ (a.tree.body p.x p.y).roster.creatures) ∧
      a'.members = a.members - removed.toNat ∧ Amends a.tree a'.tree p (·.dismiss c) := by
  cases id with
  | none =>
      have habsent : c ∉ (a.tree.body p.x p.y).roster.creatures := by
        rw [hnone rfl]
        exact Leaf.not_mem_ofPoint p.x p.y c
      exact ⟨a, false, rfl, by simp [habsent], rfl, .refl hs (Leaf.dismiss_of_not_mem habsent)⟩
  | some i => exact removeMember_ok hs (hid rfl) c

/-! ### Creatures -/

theorem enter_ok (hs : a.tree.Sound) (p : Location) (c : κ) :
    ∃ q a' added, a.tree.plant p.x p.y = .ok q ∧ Rooted a.tree p.x p.y q ∧
      a.enter p c = .ok
        { atlas := a', reply := added,
          events := q.events ++ if added then [] else [.alreadyPresent p] } ∧
      (added = true ↔ c ∉ (a.tree.body p.x p.y).roster.creatures) ∧
      a'.members = a.members + added.toNat ∧ Amends q.tree a'.tree p (·.welcome c) := by
  obtain ⟨q, hplant, hq⟩ := hs.plant_rooted p.x p.y
  obtain ⟨a', added, hadd, hadded, hmembers, hamends⟩ :=
    addMember_ok (a := { a with tree := q.tree }) hq.sound hq.locate c
  rw [hq.body] at hadded
  refine ⟨q, a', added, hplant, hq, ?_, hadded, hmembers, hamends⟩
  rw [enter, hplant]
  simp only [bind, Except.bind, hadd]
  rfl

theorem leave_ok (hs : a.tree.Sound) (p : Location) (c : κ) :
    ∃ a' removed, a.leave p c = .ok
        { atlas := a', reply := removed,
          events := if a.tree.covers p.x p.y && !removed then [.notPresent p] else [] } ∧
      (removed = true ↔ c ∈ (a.tree.body p.x p.y).roster.creatures) ∧
      a'.members = a.members - removed.toNat ∧ Amends a.tree a'.tree p (·.dismiss c) := by
  obtain ⟨found, hfound⟩ := hs.locate_ok p.x p.y
  obtain ⟨a', removed, hremove, hremoved⟩ := removeMember?_ok hs p found
    (fun hi => hi ▸ hfound) (fun hnone => body_of_none (hnone ▸ hfound)) c
  refine ⟨a', removed, ?_, hremoved⟩
  rw [leave, hfound, covers_of_locate hfound]
  cases found with
  | none =>
      obtain ⟨rfl, rfl⟩ := Prod.mk.inj (Except.ok.inj hremove)
      rfl
  | some id =>
      rw [removeMember?] at hremove
      simp only [bind, Except.bind, hremove]
      cases removed <;> rfl

omit [Creature κ] in
theorem ends_of_settled (hs : a.tree.Sound) {p q : Location}
    (hcovers : a.tree.covers p.x p.y = true) (hblock : p.SameBlock q) :
    ∃ id, a.tree.locate p.x p.y = .ok (some id) ∧ a.tree.plant q.x q.y = .ok ⟨a.tree, id, []⟩ := by
  obtain ⟨found, hfound⟩ := hs.locate_ok p.x p.y
  rw [covers_of_locate hfound, Option.isSome_iff_exists] at hcovers
  obtain ⟨id, rfl⟩ := hcovers
  exact ⟨id, hfound, plant_of_some ((locate_congr hblock.1.symm hblock.2.symm).trans hfound)⟩

omit [Creature κ] in
/-- A move that does not stay on one leaf starts on another leaf than the one on
which it ends, if it starts on a leaf at all, and what is planted for its end
does not change where it starts. -/
theorem ends_of_not_settled (hs : a.tree.Sound) {p q : Location}
    (hmoves : ¬ (a.tree.covers p.x p.y = true ∧ p.SameBlock q)) :
    ∃ old r, a.tree.locate p.x p.y = .ok old ∧ a.tree.plant q.x q.y = .ok r ∧
      Rooted a.tree q.x q.y r ∧ old ≠ some r.leaf ∧
      (∀ {i}, old = some i → r.tree.locate p.x p.y = .ok (some i)) ∧
      (old = none → r.tree.body p.x p.y = .ofPoint p.x p.y) := by
  obtain ⟨old, hold⟩ := hs.locate_ok p.x p.y
  obtain ⟨r, hplant, hr⟩ := hs.plant_rooted q.x q.y
  refine ⟨old, r, hold, hplant, hr, ?_, fun hi => hr.keeps (hi ▸ hold),
    fun hnone => (hr.body p.x p.y).trans (body_of_none (hnone ▸ hold))⟩
  -- Names are kept, so one name at both ends means one block, which has a leaf already.
  rintro rfl
  exact hmoves ⟨covers_of_locate hold,
    hr.sound.blockStart_eq_of_locate (hr.keeps hold) hr.locate⟩

theorem move_settled (hs : a.tree.Sound) {p q : Location}
    (hcovers : a.tree.covers p.x p.y = true) (hblock : p.SameBlock q) (c : κ) :
    a.move p q c = .ok { atlas := a, reply := (), events := [] } := by
  obtain ⟨id, hfound, hplant⟩ := ends_of_settled hs hcovers hblock
  rw [move, hfound]
  simp only [bind, Except.bind, hplant, if_pos]
  rfl

/-- Such a move ends a membership where it comes from and starts one where it
goes to. -/
theorem move_ok (hs : a.tree.Sound) {p q : Location}
    (hmoves : ¬ (a.tree.covers p.x p.y = true ∧ p.SameBlock q)) (c : κ) :
    ∃ (r : Planting τ κ) (a₁ a₂ : Atlas τ κ) (removed added : Bool),
      a.tree.plant q.x q.y = .ok r ∧ Rooted a.tree q.x q.y r ∧
      a.move p q c = .ok
        { atlas := a₂, reply := (),
          events := r.events ++ (if removed then [] else [.movedFromElsewhere p q]) ++
            [.leafChanged p q] } ∧
      (removed = true ↔ c ∈ (a.tree.body p.x p.y).roster.creatures) ∧
      (added = true ↔ c ∉ (a₁.tree.body q.x q.y).roster.creatures) ∧
      a₂.members = a.members - removed.toNat + added.toNat ∧
      Amends r.tree a₁.tree p (·.dismiss c) ∧ Amends a₁.tree a₂.tree q (·.welcome c) := by
  obtain ⟨old, r, hold, hplant, hr, hleaves, hsome, hnone⟩ := ends_of_not_settled hs hmoves
  obtain ⟨a₁, removed, hremove, hremoved, hmembers₁, hamends₁⟩ :=
    removeMember?_ok (a := { a with tree := r.tree }) hr.sound p old hsome hnone c
  obtain ⟨a₂, added, hadd, hadded, hmembers₂, hamends₂⟩ :=
    addMember_ok hamends₁.sound ((hamends₁.locate q.x q.y).trans hr.locate) c
  rw [hr.body] at hremoved
  refine ⟨r, a₁, a₂, removed, added, hplant, hr, ?_, hremoved, hadded, ?_, hamends₁, hamends₂⟩
  · rw [move, hold]
    simp only [bind, Except.bind, hplant, if_neg hleaves, hremove, hadd]
    rfl
  · rw [hmembers₂, hmembers₁]

end Atlas

/-! ### Edits -/

theorem Step.map_ok {τ κ α β : Type} {r : Except Fault (Step τ κ α)} {s : Step τ κ α}
    (h : r = .ok s) (f : α → β) : r.map (·.map f) = .ok (s.map f) := by
  rw [h]
  rfl

theorem Step.eq_of_map_ok {τ κ α β : Type} {r : Except Fault (Step τ κ α)} {s : Step τ κ α}
    {s' : Step τ κ β} (h : r = .ok s) (f : α → β) (hs : r.map (·.map f) = .ok s') :
    s' = s.map f :=
  Except.ok.inj (hs.symm.trans (map_ok h f))

section Edits

variable {τ κ : Type} [Creature κ]

/-- What an edit makes of the body of the block of the point `(u, v)`, given
which blocks have a leaf. -/
def Edit.amend (covers : UInt16 → UInt16 → Bool) (u v : UInt16) (l : Leaf τ κ) :
    Edit τ κ → Leaf τ κ
  | .putTile p tile =>
    if h : p.floor.toNat < floorCount ∧ p.InBlock u v then
      l.putTile p.x p.y ⟨p.floor.toNat, h.1⟩ tile
    else l
  | .clearTile p => if p.InBlock u v then l.clearTile p.x p.y p.floor else l
  | .enter p c => if p.InBlock u v then l.welcome c else l
  | .leave p c => if p.InBlock u v then l.dismiss c else l
  | .move p q c =>
    if covers p.x p.y = true ∧ p.SameBlock q then l
    else
      let l := if p.InBlock u v then l.dismiss c else l
      if q.InBlock u v then l.welcome c else l

/-! Of a roster an edit makes what does not depend on the rest of the body. -/

def Edit.enroll (covers : UInt16 → UInt16 → Bool) (u v : UInt16) (r : Roster κ) :
    Edit τ κ → Roster κ
  | .putTile _ _ => r
  | .clearTile _ => r
  | .enter p c => if p.InBlock u v then r.welcome c else r
  | .leave p c => if p.InBlock u v then r.dismiss c else r
  | .move p q c =>
    if covers p.x p.y = true ∧ p.SameBlock q then r
    else
      let r := if p.InBlock u v then r.dismiss c else r
      if q.InBlock u v then r.welcome c else r

theorem Edit.roster_amend (covers : UInt16 → UInt16 → Bool) (u v : UInt16) (l : Leaf τ κ)
    (e : Edit τ κ) : (e.amend covers u v l).roster = e.enroll covers u v l.roster := by
  cases e with
  | putTile p tile =>
      rw [amend]
      split <;> rfl
  | clearTile p =>
      rw [amend]
      split <;> rfl
  | enter p c =>
      rw [amend, enroll]
      split <;> rfl
  | leave p c =>
      rw [amend, enroll]
      split <;> rfl
  | move p q c =>
      rw [amend, enroll]
      split_ifs <;> rfl

/-- What is kept whenever someone is let in or let go is kept by every edit. -/
theorem Edit.enroll_induction {P : Roster κ → Prop} (welcome : ∀ {r c}, P r → P (r.welcome c))
    (dismiss : ∀ {r c}, P r → P (r.dismiss c)) (covers : UInt16 → UInt16 → Bool) (u v : UInt16)
    {r : Roster κ} (h : P r) (e : Edit τ κ) : P (e.enroll covers u v r) := by
  have hwelcome : ∀ {r : Roster κ} (p : Location) (c : κ), P r →
      P (if p.InBlock u v then r.welcome c else r) := by
    intro r p c hr
    split
    · exact welcome hr
    · exact hr
  have hdismiss : ∀ (p : Location) (c : κ), P (if p.InBlock u v then r.dismiss c else r) := by
    intro p c
    split
    · exact dismiss h
    · exact h
  cases e with
  | putTile p tile => exact h
  | clearTile p => exact h
  | enter p c => exact hwelcome p c h
  | leave p c => exact hdismiss p c
  | move p q c =>
      rw [enroll]
      split
      · exact h
      · exact hwelcome q c (hdismiss p c)

/-- Every edit goes through, and changes the bodies as it should. -/
theorem Atlas.apply_ok {a : Atlas τ κ} (hs : a.tree.Sound) (e : Edit τ κ) :
    ∃ step, a.apply e = .ok step ∧ step.atlas.tree.Sound ∧
      ∀ u v, step.atlas.tree.body u v = e.amend a.tree.covers u v (a.tree.body u v) := by
  cases e with
  | putTile p tile =>
      by_cases hfloor : p.floor.toNat < floorCount
      · obtain ⟨q, tree, -, hq, hput, hamends⟩ := putTile_ok hs p tile hfloor
        refine ⟨_, Step.map_ok hput Outcome.placed, hamends.sound, fun u v => ?_⟩
        show tree.body u v = _
        rw [hamends.body, hq.body, Edit.amend]
        by_cases hblock : p.InBlock u v
        · rw [if_pos hblock, dif_pos ⟨hfloor, hblock⟩]
        · rw [if_neg hblock, dif_neg fun h => hblock h.2]
      · refine ⟨_, Step.map_ok (putTile_refused p tile hfloor) Outcome.placed, hs,
          fun u v => ?_⟩
        rw [Edit.amend, dif_neg fun h => hfloor h.1]
        rfl
  | clearTile p =>
      obtain ⟨tree, hclear, hamends⟩ := clearTile_ok hs p
      exact ⟨_, Step.map_ok hclear Outcome.cleared, hamends.sound, hamends.body⟩
  | enter p c =>
      obtain ⟨q, a', added, -, hq, henter, -, -, hamends⟩ := enter_ok hs p c
      refine ⟨_, Step.map_ok henter Outcome.entered, hamends.sound, fun u v => ?_⟩
      show a'.tree.body u v = _
      rw [hamends.body, hq.body]
      rfl
  | leave p c =>
      obtain ⟨a', removed, hleave, -, -, hamends⟩ := leave_ok hs p c
      exact ⟨_, Step.map_ok hleave Outcome.left, hamends.sound, hamends.body⟩
  | move p q c =>
      by_cases hsettled : a.tree.covers p.x p.y = true ∧ p.SameBlock q
      · have hmove := move_settled hs hsettled.1 hsettled.2 c
        refine ⟨_, Step.map_ok hmove fun _ => Outcome.moved, hs, fun u v => ?_⟩
        rw [Edit.amend, if_pos hsettled]
        rfl
      · obtain ⟨r, a₁, a₂, removed, added, -, hr, hmove, -, -, -, hamends₁, hamends₂⟩ :=
          move_ok hs hsettled c
        refine ⟨_, Step.map_ok hmove fun _ => Outcome.moved, hamends₂.sound,
          fun u v => ?_⟩
        show a₂.tree.body u v = _
        rw [hamends₂.body, hamends₁.body, hr.body, Edit.amend, if_neg hsettled]

section

variable {a : Atlas τ κ} {e : Edit τ κ} {step : Step τ κ (Outcome τ)}

theorem Atlas.sound_of_apply (hs : a.tree.Sound) (hstep : a.apply e = .ok step) :
    step.atlas.tree.Sound := by
  obtain ⟨step', hstep', hs', -⟩ := apply_ok hs e
  obtain rfl := Except.ok.inj (hstep'.symm.trans hstep)
  exact hs'

theorem Atlas.body_of_apply (hs : a.tree.Sound) (hstep : a.apply e = .ok step) (u v : UInt16) :
    step.atlas.tree.body u v = e.amend a.tree.covers u v (a.tree.body u v) := by
  obtain ⟨step', hstep', -, hbody⟩ := apply_ok hs e
  obtain rfl := Except.ok.inj (hstep'.symm.trans hstep)
  exact hbody u v

end

theorem History.extend_of_apply {h : History τ κ} {e : Edit τ κ} {step : Step τ κ (Outcome τ)}
    (hstep : h.atlas.apply e = .ok step) :
    h.extend e = .ok
      { atlas := step.atlas, outcomes := h.outcomes.push step.reply,
        events := h.events ++ step.events } := by
  rw [extend, hstep]
  rfl

theorem History.replay_of_apply {h k : History τ κ} {e : Edit τ κ} {edits : List (Edit τ κ)}
    {step : Step τ κ (Outcome τ)} (hstep : h.atlas.apply e = .ok step)
    (hrest : replay ⟨step.atlas, h.outcomes.push step.reply, h.events ++ step.events⟩ edits =
      .ok k) : h.replay (e :: edits) = .ok k := by
  rw [replay_cons, extend_of_apply hstep]
  exact hrest

/-! ### Runs -/

/-- What holds of the empty history and is kept by every edit of a run holds
of the whole run. The edits that came before may be spoken of. -/
theorem History.replay_induction {P : List (Edit τ κ) → History τ κ → Prop}
    {edits : List (Edit τ κ)} (hstart : P [] {})
    (hstep : ∀ {past e h}, past ++ [e] <+: edits → P past h →
      ∃ k, h.extend e = .ok k ∧ P (past ++ [e]) k) :
    ∃ h, ({} : History τ κ).replay edits = .ok h ∧ P edits h := by
  -- The rest of the run is carried out after any part of it.
  have hrest : ∀ rest past h, past ++ rest = edits → P past h →
      ∃ k, h.replay rest = .ok k ∧ P edits k := by
    intro rest
    induction rest with
    | nil =>
        rintro past h rfl hpast
        rw [List.append_nil]
        exact ⟨h, replay_nil h, hpast⟩
    | cons e rest ih =>
        intro past h hsplit hpast
        have hsplit' : past ++ [e] ++ rest = edits := by
          rw [List.append_assoc, List.singleton_append, hsplit]
        obtain ⟨k, hk, hpast'⟩ := hstep ⟨rest, hsplit'⟩ hpast
        rw [replay_cons, hk]
        exact ih (past ++ [e]) k hsplit' hpast'
  exact hrest edits [] {} rfl hstart

theorem History.replay_sound (edits : List (Edit τ κ)) :
    ∃ h, ({} : History τ κ).replay edits = .ok h ∧ h.atlas.tree.Sound := by
  refine replay_induction (P := fun _ h => h.atlas.tree.Sound) Quadtree.sound_empty ?_
  intro past e h _ hs
  obtain ⟨step, hstep, hs', -⟩ := Atlas.apply_ok hs e
  exact ⟨_, extend_of_apply hstep, hs'⟩

/-- What holds of the roster without creatures, and is kept whenever someone
is let in or let go, holds of every roster after every run of edits. -/
theorem History.replay_rosters {P : Roster κ → Prop} (empty : P {})
    (welcome : ∀ {r c}, P r → P (r.welcome c)) (dismiss : ∀ {r c}, P r → P (r.dismiss c))
    (edits : List (Edit τ κ)) :
    ∃ h, ({} : History τ κ).replay edits = .ok h ∧ h.atlas.tree.Sound ∧
      ∀ u v, P (h.atlas.tree.body u v).roster := by
  refine replay_induction (P := fun _ h => h.atlas.tree.Sound ∧
    ∀ u v, P (h.atlas.tree.body u v).roster) ?_ ?_
  · refine ⟨Quadtree.sound_empty, fun u v => ?_⟩
    show P ((∅ : Quadtree τ κ).body u v).roster
    rw [Quadtree.body_empty]
    exact empty
  · rintro past e h - ⟨hs, hroster⟩
    obtain ⟨step, hstep, hs', hbody⟩ := Atlas.apply_ok hs e
    refine ⟨_, extend_of_apply hstep, hs', fun u v => ?_⟩
    rw [hbody, Edit.roster_amend]
    exact Edit.enroll_induction welcome dismiss _ u v (hroster u v) e

end Edits

end TileAtlas
