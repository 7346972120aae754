import TileAtlas.Atlas.Alarm
import TileAtlas.Proofs.Atlas.Effect

/-!
When an assertion fails.

An alarm depends on one roster only, that of the block which a creature is
said to leave. Planting a leaf for the place it goes to comes first, but does
not touch that roster.
-/

namespace TileAtlas

namespace Roster

variable {κ : Type} [Creature κ] {r : Roster κ} {c : κ}

theorem alarm?_of_not_mem (h : c ∉ r.creatures) : r.alarm? c = none := if_neg fun hc => h hc.1

theorem alarm?_eq_none_iff :
    r.alarm? c = none ↔ (c ∈ r.creatures → c ∈ r.ofKind (Creature.kind c)) := by
  rw [alarm?, ite_eq_right_iff]
  simp

end Roster

namespace Atlas

variable {τ κ : Type} [Creature κ] {a : Atlas τ κ}

theorem removalAlarm?_ok (hs : a.tree.Sound) (p : Location) (id : Option LeafId)
    (hid : ∀ {i}, id = some i → a.tree.locate p.x p.y = .ok (some i))
    (hnone : id = none → a.tree.body p.x p.y = .ofPoint p.x p.y) (c : κ) :
    a.removalAlarm? id c = .ok ((a.tree.body p.x p.y).roster.alarm? c) := by
  cases id with
  | none =>
      rw [hnone rfl, Roster.alarm?_of_not_mem (Leaf.not_mem_ofPoint p.x p.y c)]
      rfl
  | some i =>
      obtain ⟨l, hl, -⟩ := hs.locate_eq_some_iff.mp (hid rfl)
      rw [Quadtree.body_of_some (hid rfl) hl, removalAlarm?, hl]
      rfl

theorem alarm?_leave (hs : a.tree.Sound) (p : Location) (c : κ) :
    a.alarm? (.leave p c) = .ok ((a.tree.body p.x p.y).roster.alarm? c) := by
  obtain ⟨found, hfound⟩ := hs.locate_ok p.x p.y
  rw [alarm?, hfound]
  exact removalAlarm?_ok hs p found (fun hi => hi ▸ hfound)
    (fun hnone => Quadtree.body_of_none (hnone ▸ hfound)) c

theorem alarm?_move_settled (hs : a.tree.Sound) {p q : Location}
    (hcovers : a.tree.covers p.x p.y = true) (hblock : p.SameBlock q) (c : κ) :
    a.alarm? (.move p q c) = .ok none := by
  obtain ⟨id, hfound, hplant⟩ := ends_of_settled hs hcovers hblock
  rw [alarm?, hfound]
  simp only [bind, Except.bind, hplant, if_pos]
  rfl

theorem alarm?_move (hs : a.tree.Sound) {p q : Location}
    (hmoves : ¬ (a.tree.covers p.x p.y = true ∧ p.SameBlock q)) (c : κ) :
    a.alarm? (.move p q c) = .ok (((a.tree.body p.x p.y).roster.alarm? c).or
      (if c ∈ (a.tree.body p.x p.y).roster.creatures then none else some (.notAtSource p))) := by
  obtain ⟨old, r, hold, hplant, hr, hleaves, hsome, hnone⟩ := ends_of_not_settled hs hmoves
  have halarm := removalAlarm?_ok (a := { a with tree := r.tree }) hr.sound p old hsome hnone c
  obtain ⟨a₁, removed, hremove, hremoved, -⟩ :=
    removeMember?_ok (a := { a with tree := r.tree }) hr.sound p old hsome hnone c
  rw [hr.body] at halarm hremoved
  rw [alarm?, hold]
  simp only [bind, Except.bind, hplant, if_neg hleaves, halarm, hremove, hremoved]
  rfl

/-- Assertions can be checked in the course of every edit. -/
theorem alarm?_ok (hs : a.tree.Sound) (e : Edit τ κ) : ∃ alarm, a.alarm? e = .ok alarm := by
  cases e with
  | putTile p tile => exact ⟨none, rfl⟩
  | clearTile p => exact ⟨none, rfl⟩
  | enter p c => exact ⟨none, rfl⟩
  | leave p c => exact ⟨_, alarm?_leave hs p c⟩
  | move p q c =>
      by_cases hsettled : a.tree.covers p.x p.y = true ∧ p.SameBlock q
      · exact ⟨none, alarm?_move_settled hs hsettled.1 hsettled.2 c⟩
      · exact ⟨_, alarm?_move hs hsettled c⟩

end Atlas

end TileAtlas
