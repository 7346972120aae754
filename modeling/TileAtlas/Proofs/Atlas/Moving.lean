import TileAtlas.Proofs.Atlas.Coherence
import TileAtlas.Proofs.Atlas.Counting
import TileAtlas.Proofs.Atlas.Lifecycle
import TileAtlas.Proofs.Quadtree.Commuting

/-!
A move is leaving and entering.

A move plants the leaf that it goes to before it lets the creature go from the
one that it comes from, and it compares the names of the two. Leaving and then
entering does the same things in another order, and compares nothing. Still
the outcome is the same atlas, since letting go and planting can change places.
The exception is a move on one leaf that does not have the creature: the move
stops there, and entering would let the creature in.
-/

namespace TileAtlas

namespace Atlas

open Quadtree

variable {τ κ : Type} [Creature κ] {a : Atlas τ κ} {p q : Location} {c : κ} {id : LeafId}
  {l : Leaf τ κ}

/-! ### Letting go and planting -/

theorem removeMember_eq (hl : a.tree.leaf id = .ok l) (c : κ) :
    a.removeMember id c = .ok
      (if c ∈ l.roster.creatures then
        ({ tree := a.tree.reroster id (l.roster.dismiss c), members := a.members - 1 }, true)
      else (a, false)) := by
  rw [removeMember, hl]
  by_cases hc : c ∈ l.roster.creatures
  · rw [if_pos hc]
    simp only [bind, Except.bind, Roster.erase?_of_mem hc,
      modifyLeaf_setRoster (lt_size_of_leaf hl)]
    rfl
  · rw [if_neg hc]
    simp only [bind, Except.bind, Roster.erase?_of_not_mem hc]
    rfl

theorem addMember_eq (hl : a.tree.leaf id = .ok l) (c : κ) :
    a.addMember id c = .ok
      (if c ∈ l.roster.creatures then (a, false)
      else
        ({ tree := a.tree.reroster id (l.roster.welcome c), members := a.members + 1 }, true)) := by
  rw [addMember, hl]
  by_cases hc : c ∈ l.roster.creatures
  · rw [if_pos hc]
    simp only [bind, Except.bind, Roster.insert?_of_mem hc]
    rfl
  · rw [if_neg hc]
    simp only [bind, Except.bind, Roster.insert?_of_not_mem hc,
      modifyLeaf_setRoster (lt_size_of_leaf hl)]
    rfl

/-- Whether someone is let go before something is planted or after, the same
comes of it. -/
theorem removeMember?_plant (hs : a.tree.Sound) {x y : UInt16} {r : Planting τ κ}
    (hplant : a.tree.plant x y = .ok r) {old : Option LeafId}
    (hold : a.tree.locate p.x p.y = .ok old) (c : κ) :
    ∃ a₁ removed r₁, a.removeMember? old c = .ok (a₁, removed) ∧ a₁.tree.plant x y = .ok r₁ ∧
      r₁.leaf = r.leaf ∧
      { a with tree := r.tree }.removeMember? old c =
        .ok ({ a₁ with tree := r₁.tree }, removed) := by
  cases old with
  | none => exact ⟨a, false, r, rfl, hplant, rfl, rfl⟩
  | some id =>
      obtain ⟨r', hr', hrooted⟩ := hs.plant_rooted x y
      obtain rfl := Except.ok.inj (hr'.symm.trans hplant)
      obtain ⟨l, hl, -⟩ := hs.locate_eq_some_iff.mp hold
      obtain ⟨l', hl', -⟩ := hrooted.sound.locate_eq_some_iff.mp (hrooted.keeps hold)
      -- Planting leaves the roster alone.
      have hroster : l'.roster = l.roster := by
        have hbody := hrooted.body p.x p.y
        rw [body_of_some hold hl, body_of_some (hrooted.keeps hold) hl'] at hbody
        rw [← Leaf.roster_unlinked l', hbody, Leaf.roster_unlinked]
      have hremove := removeMember_eq (a := { a with tree := r'.tree }) hl' c
      rw [hroster] at hremove
      by_cases hc : c ∈ l.roster.creatures
      · rw [if_pos hc] at hremove
        refine ⟨{ tree := a.tree.reroster id (l.roster.dismiss c), members := a.members - 1 }, true,
          { r' with tree := r'.tree.reroster id (l.roster.dismiss c) },
          (removeMember_eq hl c).trans (by rw [if_pos hc]), ?_, rfl, hremove⟩
        show (a.tree.reroster id (l.roster.dismiss c)).plant x y = _
        rw [plant_reroster (lt_size_of_leaf hl), hplant]
        rfl
      · rw [if_neg hc] at hremove
        exact ⟨a, false, r', (removeMember_eq hl c).trans (by rw [if_neg hc]), hplant, rfl,
          hremove⟩

theorem leave_of_removeMember? {old : Option LeafId} (hold : a.tree.locate p.x p.y = .ok old)
    {a₁ : Atlas τ κ} {removed : Bool} (hremove : a.removeMember? old c = .ok (a₁, removed)) :
    ∃ left, a.leave p c = .ok left ∧ left.atlas = a₁ := by
  rw [leave, hold]
  cases old with
  | none =>
      obtain ⟨rfl, -⟩ := Prod.mk.inj (Except.ok.inj hremove)
      exact ⟨_, rfl, rfl⟩
  | some id =>
      rw [removeMember?] at hremove
      simp only [bind, Except.bind, hremove]
      exact ⟨_, rfl, rfl⟩

/-! ### Moves -/

/-- A move from leaf to leaf is leaving and entering. -/
theorem move_eq_of_not_settled (hs : a.tree.Sound)
    (hmoves : ¬ (a.tree.covers p.x p.y = true ∧ p.SameBlock q)) (c : κ) :
    ∃ moved left entered, a.move p q c = .ok moved ∧ a.leave p c = .ok left ∧
      left.atlas.enter q c = .ok entered ∧ moved.atlas = entered.atlas := by
  obtain ⟨old, r, hold, hplant, -, hleaves, -⟩ := ends_of_not_settled hs hmoves
  obtain ⟨a₁, removed, r₁, hremove, hplant₁, hleaf, hremove₁⟩ :=
    removeMember?_plant hs hplant hold c
  obtain ⟨left, hleft, rfl⟩ := leave_of_removeMember? hold hremove
  -- What is left is the same on both sides: to let the creature in.
  have hs₁ : left.atlas.tree.Sound := by
    obtain ⟨a', removed', hleave, -, -, hamends⟩ := leave_ok hs p c
    obtain rfl := Except.ok.inj (hleave.symm.trans hleft)
    exact hamends.sound
  obtain ⟨r₁', hr₁', hrooted⟩ := hs₁.plant_rooted q.x q.y
  obtain rfl := Except.ok.inj (hr₁'.symm.trans hplant₁)
  obtain ⟨a₂, added, hadd, -⟩ :=
    addMember_ok (a := { left.atlas with tree := r₁'.tree }) hrooted.sound hrooted.locate c
  have hmove : ∃ moved, a.move p q c = .ok moved ∧ moved.atlas = a₂ := by
    rw [hleaf] at hadd
    rw [move, hold]
    simp only [bind, Except.bind, hplant, if_neg hleaves, hremove₁, hadd]
    exact ⟨_, rfl, rfl⟩
  have henter : ∃ entered, left.atlas.enter q c = .ok entered ∧ entered.atlas = a₂ := by
    rw [enter, hplant₁]
    simp only [bind, Except.bind, hadd]
    exact ⟨_, rfl, rfl⟩
  obtain ⟨moved, hmove, hmoved⟩ := hmove
  obtain ⟨entered, henter, hentered⟩ := henter
  exact ⟨moved, left, entered, hmove, hleft, henter, hmoved.trans hentered.symm⟩

theorem enter_leave_of_settled [Std.TransOrd κ] [Std.LawfulEqOrd κ] (h : a.Tallied)
    (hp : a.tree.locate p.x p.y = .ok (some id)) (hq : a.tree.locate q.x q.y = .ok (some id))
    (hl : a.tree.leaf id = .ok l) (hcoherent : l.roster.Coherent) (hc : c ∈ l.roster.creatures) :
    ∃ left entered, a.leave p c = .ok left ∧ left.atlas.enter q c = .ok entered ∧
      entered.atlas = a := by
  have hremove := removeMember_eq hl c
  rw [if_pos hc] at hremove
  obtain ⟨left, hleft, hatlas⟩ := leave_of_removeMember? hp hremove
  have hleaf : left.atlas.tree.leaf id = .ok (l.setRoster (l.roster.dismiss c)) := by
    rw [hatlas, leaf_reroster, hl]
    exact congrArg Except.ok (if_pos rfl)
  have hplant : left.atlas.tree.plant q.x q.y = .ok ⟨left.atlas.tree, id, []⟩ := by
    rw [hatlas]
    exact plant_of_some ((descend_reroster _ _).trans hq)
  have habsent : c ∉ (l.setRoster (l.roster.dismiss c)).roster.creatures :=
    hcoherent.sorted.not_mem_dismiss_self c
  -- Equal handles are the same, so the roster gets back the one that it lost.
  have hback : left.atlas.tree.reroster id ((l.setRoster (l.roster.dismiss c)).roster.welcome c) =
      a.tree := by
    show left.atlas.tree.reroster id ((l.roster.dismiss c).welcome c) = a.tree
    rw [hatlas, reroster_reroster, hcoherent.welcome_dismiss hc, reroster_self hl]
  have hmembers : left.atlas.members + 1 = a.members := by
    rw [hatlas]
    exact h.members_of_removeMember hremove
  have hadd : left.atlas.addMember id c = .ok (a, true) := by
    rw [addMember_eq hleaf, if_neg habsent, hback, hmembers]
  have henter : ∃ entered, left.atlas.enter q c = .ok entered ∧ entered.atlas = a := by
    rw [enter, hplant]
    simp only [bind, Except.bind, hadd]
    exact ⟨_, rfl, rfl⟩
  obtain ⟨entered, henter, hentered⟩ := henter
  exact ⟨left, entered, hleft, henter, hentered⟩

/-! ### Other leaves -/

/-- What a move of `c` between the blocks of `p` and `q` makes of the leaves. -/
structure Carries (a b : Atlas τ κ) (p q : Location) (c : κ) : Prop where
  arrives : ∃ id l, b.leafAt? q.x q.y = .ok (some id) ∧ b.leaf? id = some l ∧
    c ∈ l.roster.creatures
  departs (id : LeafId) (l : Leaf τ κ) : b.leafAt? p.x p.y = .ok (some id) →
    b.leaf? id = some l → c ∉ l.roster.creatures
  /-- Any other leaf stays as it is, unless it is a neighbour of a new leaf at `q`, and then it is
  linked with that. -/
  others (id : LeafId) (l : Leaf τ κ) : a.leaf? id = some l →
    a.leafAt? p.x p.y ≠ .ok (some id) → a.leafAt? q.x q.y ≠ .ok (some id) →
      ∃ m, b.leaf? id = some m ∧ m.unlinked = l.unlinked ∧
        ∀ w : Heading, w.link m = w.link l ∨ w.link l = none ∧ a.leafAt? q.x q.y = .ok none ∧
          ∃ j n, w.link m = some j ∧ b.leafAt? q.x q.y = .ok (some j) ∧ b.leaf? j = some n ∧
            w.side.Ahead 1 (l.x, l.y) (n.x, n.y)
  /-- No other leaf is new. -/
  made (id : LeafId) (l : Leaf τ κ) : b.leaf? id = some l →
    b.leafAt? q.x q.y = .ok (some id) ∨ ∃ m, a.leaf? id = some m

theorem roster_of_apply (hs : a.tree.Sound) {e : Edit τ κ} {step : Step τ κ (Outcome τ)}
    (hstep : a.apply e = .ok step) {x y : UInt16}
    (hid : step.atlas.leafAt? x y = .ok (some id)) (hl : step.atlas.leaf? id = some l) :
    l.roster = e.enroll a.tree.covers x y (a.tree.body x y).roster := by
  rw [← Edit.roster_amend, ← body_of_apply hs hstep, body_of_some hid (leaf?_eq_some_iff.mp hl),
    Leaf.roster_unlinked]

theorem carries_of_apply [Std.TransOrd κ] (h : a.Tallied) (hblock : ¬ p.SameBlock q)
    {step : Step τ κ (Outcome τ)} (hstep : a.apply (.move p q c) = .ok step) :
    a.Carries step.atlas p q c := by
  have hs := h.sound
  have hs' := sound_of_apply hs hstep
  have hsettled : ¬ (a.tree.covers p.x p.y = true ∧ p.SameBlock q) := fun h => hblock h.2
  constructor
  case arrives =>
    have hmem : q.block ∈ step.atlas.tree.corners := by
      rw [corners_apply hs hstep]
      exact mem_settle_iff.mpr (.inr rfl)
    obtain ⟨id, hid⟩ := hs'.mem_corners_iff.mp hmem
    obtain ⟨l, hl, -⟩ := hs'.locate_eq_some_iff.mp hid
    have hq : q.InBlock q.x q.y := ⟨rfl, rfl⟩
    have hp : ¬ p.InBlock q.x q.y := hblock
    refine ⟨id, l, hid, leaf?_eq_some_iff.mpr hl, ?_⟩
    rw [roster_of_apply hs hstep hid (leaf?_eq_some_iff.mpr hl), Edit.enroll, if_neg hsettled]
    dsimp only
    rw [if_neg hp, if_pos hq]
    exact (h.sorted q.x q.y).mem_welcome_self c
  case departs =>
    intro id l hid hl
    have hp : p.InBlock p.x p.y := ⟨rfl, rfl⟩
    have hq : ¬ q.InBlock p.x p.y := fun hq => hblock ⟨hq.1.symm, hq.2.symm⟩
    rw [roster_of_apply hs hstep hid hl, Edit.enroll, if_neg hsettled]
    dsimp only
    rw [if_pos hp, if_neg hq]
    exact (h.sorted p.x p.y).not_mem_dismiss_self c
  case others =>
    intro id l hl hp hq
    obtain ⟨m, hm, hx, hy⟩ := (endures_of_apply hs hstep).place hl
    have hfound := hs.locate_corner (leaf?_eq_some_iff.mp hl)
    have hfound' := hs'.locate_corner (leaf?_eq_some_iff.mp hm)
    have hbody := body_of_apply hs hstep l.x l.y
    have hpl : ¬ p.InBlock l.x l.y := fun hin => hp ((locate_congr hin.1 hin.2).trans hfound)
    have hql : ¬ q.InBlock l.x l.y := fun hin => hq ((locate_congr hin.1 hin.2).trans hfound)
    rw [Edit.amend, if_neg hsettled] at hbody
    dsimp only at hbody
    rw [if_neg hpl, if_neg hql, body_of_some hfound (leaf?_eq_some_iff.mp hl), ← hx, ← hy,
      body_of_some hfound' (leaf?_eq_some_iff.mp hm)] at hbody
    refine ⟨m, hm, hbody, fun w => ?_⟩
    rcases link_apply hs hstep hl hm w with hsame | ⟨hnone, j, n, hlink, hn, hahead, hmade, hnew⟩
    · exact .inl hsame
    · have hplace : q.block = (n.x, n.y) := Option.some.inj hmade
      rw [← hplace] at hnew
      obtain ⟨hnx, hny⟩ := Prod.mk.inj hplace
      refine .inr ⟨hnone, hs.locate_of_not_mem_corners hnew, j, n, hlink, ?_, hn, hahead⟩
      exact hs'.locate_eq_some_iff.mpr ⟨n, leaf?_eq_some_iff.mp hn, hnx.symm, hny.symm⟩
  case made =>
    intro id l hl
    refine (leaf_apply hs hstep hl).imp_left fun hmade => ?_
    obtain ⟨hx, hy⟩ := Prod.mk.inj (Option.some.inj hmade)
    exact hs'.locate_eq_some_iff.mpr ⟨l, leaf?_eq_some_iff.mp hl, hx.symm, hy.symm⟩

/-! ### Runs -/

/-- The leaf at `p` is there, covers `q` as well and does not have the creature. -/
def Vain (a : Atlas τ κ) (p q : Location) (c : κ) : Prop :=
  ∃ id l, a.leafAt? p.x p.y = .ok (some id) ∧ a.leafAt? q.x q.y = .ok (some id) ∧
    a.leaf? id = some l ∧ c ∉ l.roster.creatures

structure Relays (a : Atlas τ κ) (p q : Location) (c : κ) : Prop where
  /-- Unless it is in vain, a move leads to the same atlas as leaving and entering. -/
  relayed : ¬ a.Vain p q c → ∃ moved left entered, a.move p q c = .ok moved ∧
    a.leave p c = .ok left ∧ left.atlas.enter q c = .ok entered ∧ moved.atlas = entered.atlas
  vain : a.Vain p q c → a.move p q c = .ok { atlas := a, reply := (), events := [] }
  carries : ¬ p.SameBlock q → ∃ moved, a.move p q c = .ok moved ∧ a.Carries moved.atlas p q c

variable [Std.TransOrd κ] [Std.LawfulEqOrd κ]

theorem relays_of_tallied (h : a.Tallied) (hcoherent : ∀ u v, (a.tree.body u v).roster.Coherent)
    (p q : Location) (c : κ) : a.Relays p q c := by
  have hs := h.sound
  constructor
  case relayed =>
    intro hvain
    by_cases hsettled : a.tree.covers p.x p.y = true ∧ p.SameBlock q
    · obtain ⟨id, hp, -⟩ := ends_of_settled hs hsettled.1 hsettled.2
      have hq := (locate_congr hsettled.2.1.symm hsettled.2.2.symm).trans hp
      obtain ⟨l, hl, -⟩ := hs.locate_eq_some_iff.mp hp
      have hc : c ∈ l.roster.creatures := by
        by_contra hc
        exact hvain ⟨id, l, hp, hq, leaf?_eq_some_iff.mpr hl, hc⟩
      obtain ⟨left, entered, hleft, henter, hback⟩ := enter_leave_of_settled h hp hq hl
        (roster_of_leaf? hs hcoherent (leaf?_eq_some_iff.mpr hl)) hc
      exact ⟨_, left, entered, move_settled hs hsettled.1 hsettled.2 c, hleft, henter, hback.symm⟩
    · exact move_eq_of_not_settled hs hsettled c
  case vain =>
    rintro ⟨id, l, hp, hq, -⟩
    have hcovers : a.tree.covers p.x p.y = true := covers_of_locate hp
    exact move_settled hs hcovers (hs.blockStart_eq_of_locate hp hq) c
  case carries =>
    intro hblock
    obtain ⟨moved, left, entered, hmove, -⟩ :=
      move_eq_of_not_settled hs (fun hsettled => hblock hsettled.2) c
    exact ⟨moved, hmove, carries_of_apply h hblock (Step.map_ok hmove fun _ => Outcome.moved)⟩

/-- After every run of edits, whatever is moved from wherever to wherever, the
move does what leaving and entering do, or nothing. -/
theorem replay_relays (edits : List (Edit τ κ)) :
    ∃ h, ({} : History τ κ).replay edits = .ok h ∧ ∀ p q c, h.atlas.Relays p q c := by
  obtain ⟨h, hreplay, htallied⟩ := replay_tallied edits
  obtain ⟨h', hreplay', -, hcoherent⟩ := History.replay_coherent edits
  obtain rfl := Except.ok.inj (hreplay'.symm.trans hreplay)
  exact ⟨h', hreplay, relays_of_tallied htallied hcoherent⟩

/-- A creature enters a block; two blocks further south there is a tile. -/
def mislaid : List (Edit Nat (Handle .idKind)) :=
  [.enter ⟨0, 0, 0⟩ ⟨.monster, 1⟩, .putTile ⟨0, 16, 0⟩ 2]

theorem relays_from_elsewhere :
    Std.TransOrd (Handle .idKind) ∧ Std.LawfulEqOrd (Handle .idKind) ∧
      ∃ h, ({} : History Nat (Handle .idKind)).replay mislaid = .ok h ∧
        ∀ p q c, h.atlas.Relays p q c :=
  ⟨inferInstance, inferInstance, replay_relays mislaid⟩

/-- A third leaf can change in a move. Here the creature is moved from the tile,
where it is not, to the block east of the one in which it is; and the leaf of
that one, which is neither where the move starts nor where it ends, is linked
with the new leaf. -/
theorem third_leaf_linked_by_move :
    ∃ h, ({} : History Nat (Handle .idKind)).replay mislaid = .ok h ∧
      ∃ moved, h.atlas.move ⟨0, 16, 0⟩ ⟨8, 0, 0⟩ ⟨.monster, 1⟩ = .ok moved ∧
        h.atlas.leafAt? 0 0 = .ok (some (.ofIndex 0)) ∧
        h.atlas.leafAt? 0 16 = .ok (some (.ofIndex 1)) ∧
        moved.atlas.leafAt? 8 0 = .ok (some (.ofIndex 2)) ∧
        h.atlas.leaf? (.ofIndex 0) ≠ moved.atlas.leaf? (.ofIndex 0) := by
  refine ⟨_, rfl, _, rfl, ?first, ?start, ?goal, ?changed⟩
  case first => rfl
  case start => rfl
  case goal => rfl
  case changed => decide +kernel

end Atlas

end TileAtlas
