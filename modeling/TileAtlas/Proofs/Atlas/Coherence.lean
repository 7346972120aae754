import TileAtlas.Proofs.Atlas.Alarm
import TileAtlas.Proofs.Atlas.Topology
import TileAtlas.Proofs.Creature

/-!
The sets by kind, after edits of every sort.

Callers may be wrong about where creatures are: someone enters twice, leaves
without being there, moves out of a block they never entered. The sets of a
block stay in step with each other all the same, because the set of all
creatures alone decides what happens, and the set of a kind follows it. What
is needed is that equal handles are of one kind; with an order that takes
handles of different kinds for the same creature the sets do drift apart.
-/

namespace TileAtlas

namespace Roster

variable {κ : Type} [Creature κ] {r : Roster κ} {c : κ}

structure Divided (r : Roster κ) : Prop where
  disjoint {j k : Kind} : j ≠ k → ∀ c, c ∈ r.ofKind j → c ∉ r.ofKind k
  kind_eq {k : Kind} : ∀ c, c ∈ r.ofKind k → Creature.kind c = k
  /-- The same handles are listed, not only equal ones. -/
  mem_creatures_iff : ∀ c, c ∈ r.creatures.toList ↔ ∃ k, c ∈ (r.ofKind k).toList

namespace Coherent

variable [LawfulKind κ]

theorem kind_eq_of_mem (h : r.Coherent) {k : Kind} (hc : c ∈ r.ofKind k) :
    Creature.kind c = k := by
  obtain ⟨d, hd, heq⟩ := hc
  exact (LawfulKind.kind_eq heq).trans (h.mem_ofKind_iff.mp hd).2

theorem divided (h : r.Coherent) : r.Divided where
  disjoint hne c hj hk := hne ((h.kind_eq_of_mem hj).symm.trans (h.kind_eq_of_mem hk))
  kind_eq c := h.kind_eq_of_mem
  mem_creatures_iff c := by
    simp only [h.mem_ofKind_iff, exists_and_left, exists_eq', and_true]

theorem alarm?_eq_none (h : r.Coherent) (c : κ) : r.alarm? c = none := by
  rw [alarm?_eq_none_iff]
  rintro ⟨d, hd, heq⟩
  exact ⟨d, h.mem_ofKind_iff.mpr ⟨hd, (LawfulKind.kind_eq heq).symm⟩, heq⟩

end Coherent

end Roster

variable {τ κ : Type} [Creature κ] [Std.TransOrd κ] [LawfulKind κ]

theorem History.replay_coherent (edits : List (Edit τ κ)) :
    ∃ h, ({} : History τ κ).replay edits = .ok h ∧ h.atlas.tree.Sound ∧
      ∀ u v, (h.atlas.tree.body u v).roster.Coherent :=
  replay_rosters Roster.coherent_empty (fun hr => hr.welcome _) (fun hr => hr.dismiss _) edits

namespace Atlas

variable {a : Atlas τ κ}

omit [Std.TransOrd κ] in
/-- Where the sets of all blocks agree, the only assertion that an edit can
fail is that a creature was where its move starts. -/
theorem alarm?_of_coherent (hs : a.tree.Sound)
    (hcoherent : ∀ u v, (a.tree.body u v).roster.Coherent) (e : Edit τ κ) :
    ∃ alarm, a.alarm? e = .ok alarm ∧ alarm ≠ some .kindOutOfStep := by
  cases e with
  | putTile p tile => exact ⟨none, rfl, nofun⟩
  | clearTile p => exact ⟨none, rfl, nofun⟩
  | enter p c => exact ⟨none, rfl, nofun⟩
  | leave p c =>
      refine ⟨none, ?_, nofun⟩
      rw [alarm?_leave hs, (hcoherent p.x p.y).alarm?_eq_none]
  | move p q c =>
      by_cases hsettled : a.tree.covers p.x p.y = true ∧ p.SameBlock q
      · exact ⟨none, alarm?_move_settled hs hsettled.1 hsettled.2 c, nofun⟩
      · refine ⟨_, alarm?_move hs hsettled c, ?_⟩
        rw [(hcoherent p.x p.y).alarm?_eq_none, Option.none_or]
        split
        · exact nofun
        · exact nofun

/-- After every run of edits, whether or not its callers were right about who
is where, the sets by kind of each leaf share out its creatures, and no edit
finds them out of step. -/
theorem replay_divided (edits : List (Edit τ κ)) :
    ∃ h, ({} : History τ κ).replay edits = .ok h ∧
      (∀ id l, h.atlas.leaf? id = some l → l.roster.Divided) ∧
      ∀ e, ∃ alarm, h.atlas.alarm? e = .ok alarm ∧ alarm ≠ some .kindOutOfStep := by
  obtain ⟨h, hreplay, hs, hcoherent⟩ := History.replay_coherent edits
  refine ⟨h, hreplay, fun id l hl => ?_, alarm?_of_coherent hs hcoherent⟩
  exact (roster_of_leaf? hs hcoherent hl).divided

/-- A creature enters twice, another one leaves without being there, and a
third one moves without being there. -/
def mishaps : List (Edit Nat (Handle .idKind)) :=
  [.enter ⟨6, 6, 0⟩ ⟨.monster, 1⟩, .enter ⟨7, 7, 1⟩ ⟨.monster, 1⟩, .leave ⟨6, 6, 0⟩ ⟨.player, 1⟩,
    .move ⟨7, 6, 0⟩ ⟨8, 6, 0⟩ ⟨.npc, 1⟩, .move ⟨6, 6, 0⟩ ⟨8, 6, 0⟩ ⟨.monster, 1⟩]

theorem divided_after_mishaps :
    Std.TransOrd (Handle .idKind) ∧ LawfulKind (Handle .idKind) ∧
      ∃ h, ({} : History Nat (Handle .idKind)).replay mishaps = .ok h ∧
        (∀ id l, h.atlas.leaf? id = some l → l.roster.Divided) ∧
        ∀ e, ∃ alarm, h.atlas.alarm? e = .ok alarm ∧ alarm ≠ some .kindOutOfStep :=
  ⟨inferInstance, inferInstance, replay_divided mishaps⟩

end Atlas

end TileAtlas
