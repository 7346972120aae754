import TileAtlas.Proofs.Atlas.Effect

/-!
Moves within one block.

A move looks for the leaf it starts from before it plants the one it ends on,
and compares what it has found with what it has planted. So it is not enough
for the two ends to share a block. If the block has a leaf the move is over
then, whoever moves; but in a block without one nothing has been found, and the
creature is let into the new leaf as if it came from elsewhere. Moves within a
block leave everybody where they are exactly where there is a leaf already.
-/

namespace TileAtlas

namespace Atlas

variable {τ κ : Type} [Creature κ] {a : Atlas τ κ} {p q : Location} {c : κ}

open Quadtree

/-- In a block without a leaf a move within the block lets the creature in. -/
theorem move_uncovered (hs : a.tree.Sound) (hblock : p.SameBlock q)
    (hnone : a.tree.locate p.x p.y = .ok none) (c : κ) :
    ∃ (moved : Step τ κ Unit) (r : Planting τ κ), a.move p q c = .ok moved ∧
      a.tree.plant q.x q.y = .ok r ∧
      moved.events = r.events ++ [.movedFromElsewhere p q, .leafChanged p q] ∧
      moved.atlas.members = a.members + 1 ∧
      ∀ u v, (moved.atlas.tree.body u v).roster =
        if q.InBlock u v then Roster.welcome {} c else (a.tree.body u v).roster := by
  have hmoves : ¬ (a.tree.covers p.x p.y = true ∧ p.SameBlock q) := by
    rw [covers_of_locate hnone]
    simp
  obtain ⟨r, a₁, a₂, removed, added, hplant, hr, hmove, hremoved, hadded, hmembers, hleft,
    hentered⟩ := move_ok hs hmoves c
  have hfresh : ∀ {u v}, q.InBlock u v → a.tree.body u v = .ofPoint p.x p.y := by
    intro u v hin
    rw [body_congr (hin.1.symm.trans hblock.1.symm) (hin.2.symm.trans hblock.2.symm),
      body_of_none hnone]
  have habsent : ∀ {u v}, q.InBlock u v → c ∉ (a.tree.body u v).roster.creatures := by
    intro u v hin
    rw [hfresh hin]
    exact Leaf.not_mem_ofPoint p.x p.y c
  -- Nobody is let go, there being nobody.
  have hsame : ∀ u v, a₁.tree.body u v = a.tree.body u v := by
    intro u v
    rw [hleft.body, hr.body]
    split
    · rename_i hin
      exact Leaf.dismiss_of_not_mem
        (habsent ⟨hblock.1.symm.trans hin.1, hblock.2.symm.trans hin.2⟩)
    · rfl
  have hstay : removed = false := by
    rw [← Bool.not_eq_true, hremoved]
    exact habsent ⟨hblock.1.symm, hblock.2.symm⟩
  have hin : added = true := by
    rw [hadded, hsame]
    exact habsent ⟨rfl, rfl⟩
  refine ⟨_, r, hmove, hplant, ?_, ?_, fun u v => ?_⟩
  · rw [hstay]
    exact List.append_assoc ..
  · rw [hmembers, hstay, hin]
    rfl
  · rw [hentered.body, hsame]
    split
    · rename_i hin
      rw [hfresh hin]
      rfl
    · rfl

/-- What a move of `c` from `p` to `q` comes to when the two share a block. -/
structure Stays (a : Atlas τ κ) (p q : Location) (c : κ) : Prop where
  /-- Where there is a leaf nothing happens, wherever the creature is. -/
  settled (id : LeafId) : a.leafAt? p.x p.y = .ok (some id) →
    a.move p q c = .ok { atlas := a, reply := (), events := [] }
  /-- Where there is none the creature is let in, and this is reported. -/
  unsettled : a.leafAt? p.x p.y = .ok none →
    ∃ (moved : Step τ κ Unit) (r : Planting τ κ), a.move p q c = .ok moved ∧
      a.tree.plant q.x q.y = .ok r ∧
      moved.events = r.events ++ [.movedFromElsewhere p q, .leafChanged p q] ∧
      moved.atlas.members = a.members + 1 ∧
      ∀ u v, (moved.atlas.tree.body u v).roster =
        if q.InBlock u v then Roster.welcome {} c else (a.tree.body u v).roster
  /-- So the sets of all blocks and the number kept alongside stay what they are, and no change of
  leaf is reported, exactly if there is a leaf. -/
  untouched_iff : (∃ moved, a.move p q c = .ok moved ∧
      (∀ u v, (moved.atlas.tree.body u v).roster = (a.tree.body u v).roster) ∧
      moved.atlas.members = a.members ∧ Event.leafChanged p q ∉ moved.events) ↔
    ∃ id, a.leafAt? p.x p.y = .ok (some id)

theorem stays_of_sound (hs : a.tree.Sound) (hblock : p.SameBlock q) (c : κ) : a.Stays p q c := by
  have hsettled : ∀ {id}, a.leafAt? p.x p.y = .ok (some id) →
      a.move p q c = .ok { atlas := a, reply := (), events := [] } := fun hid =>
    move_settled hs (covers_of_locate hid) hblock c
  constructor
  case settled => exact fun _ => hsettled
  case unsettled => exact fun hnone => move_uncovered hs hblock hnone c
  case untouched_iff =>
    constructor
    · rintro ⟨moved, hmove, -, hmembers, -⟩
      obtain ⟨found, hfound⟩ := hs.locate_ok p.x p.y
      cases found with
      | some id => exact ⟨id, hfound⟩
      | none =>
          -- The creature that is let in is counted.
          obtain ⟨moved', -, hmove', -, -, hmore, -⟩ := move_uncovered hs hblock hfound c
          obtain rfl := Except.ok.inj (hmove'.symm.trans hmove)
          omega
    · rintro ⟨id, hid⟩
      exact ⟨_, hsettled hid, fun _ _ => rfl, rfl, List.not_mem_nil⟩

/-- After every run of edits a move within a block, on whatever storeys, touches
nobody where the block has a leaf, and lets the creature in where it has none. -/
theorem replay_stays (edits : List (Edit τ κ)) :
    ∃ h, ({} : History τ κ).replay edits = .ok h ∧
      ∀ p q c, p.SameBlock q → h.atlas.Stays p q c := by
  obtain ⟨h, hreplay, hs⟩ := History.replay_sound edits
  exact ⟨h, hreplay, fun p q c hblock => stays_of_sound hs hblock c⟩

/-- The empty atlas has nobody in it, but somebody after a move within a block. -/
theorem member_made_by_move_within_block :
    (⟨0, 0, 0⟩ : Location).SameBlock ⟨1, 1, 3⟩ ∧
      ∃ moved, (∅ : Atlas Nat (Handle .idKind)).move ⟨0, 0, 0⟩ ⟨1, 1, 3⟩ ⟨.monster, 1⟩ = .ok moved ∧
        moved.atlas.members = 1 ∧ Event.leafChanged ⟨0, 0, 0⟩ ⟨1, 1, 3⟩ ∈ moved.events ∧
        ∃ l, moved.atlas.leaf? (.ofIndex 0) = some l ∧
          l.roster.creatures.toList = [⟨.monster, 1⟩] := by
  refine ⟨by decide, _, rfl, rfl, ?reported, _, rfl, rfl⟩
  case reported => decide +kernel

end Atlas

end TileAtlas
