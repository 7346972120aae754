import TileAtlas.Proofs.Atlas.Lifecycle
import TileAtlas.Proofs.Atlas.Selection

/-!
Sets by kind under an order that confuses kinds.

An order may take handles of different kinds for the same creature. Whoever is
let in as a monster and let go as a player is then struck off the players, and
stays listed as a monster. So the sets by kind drift away from the set of all
creatures, but in one direction only: they may list creatures that are gone,
and never miss one that is there. `Inclusive` is this half of coherence. It
survives because an element is struck off a set by kind only when all its
equals go from the set of all creatures at the same time.
-/

namespace TileAtlas

namespace Roster

variable {κ : Type} [Creature κ] {r : Roster κ} {c d : κ}

/-- Nobody is missing from the set of their kind, and nobody is listed in the
set of another kind. -/
structure Inclusive (r : Roster κ) : Prop where
  sorted : r.Sorted
  /-- The set of a kind need not list the same handle, but it has an equal one. -/
  mem_ofKind : ∀ c ∈ r.creatures.toList, c ∈ r.ofKind (Creature.kind c)
  kind_eq {k : Kind} : ∀ c ∈ (r.ofKind k).toList, Creature.kind c = k

theorem inclusive_empty : ({} : Roster κ).Inclusive where
  sorted := sorted_empty
  mem_ofKind := nofun
  kind_eq {k} := by
    cases k <;> exact nofun

variable [Std.TransOrd κ]

namespace Inclusive

theorem welcome (h : r.Inclusive) (c : κ) : (r.welcome c).Inclusive := by
  by_cases hc : c ∈ r.creatures
  · rw [welcome_of_mem hc]
    exact h
  refine ⟨h.sorted.welcome c, fun d hd => ?_, fun {k} d hd => ?_⟩
  · rw [creatures_welcome hc, h.sorted.ordered.mem_insert_iff] at hd
    rw [ofKind_welcome hc]
    rcases hd with hd | ⟨rfl, -⟩
    · have hold := h.mem_ofKind d hd
      split
      · exact (h.sorted.ordered_ofKind _).mem_insert_of_mem hold
      · exact hold
    · -- An equal handle may have stayed behind in the set of the kind. It does as well.
      rw [if_pos rfl]
      exact (h.sorted.ordered_ofKind _).mem_insert_self d
  · rw [ofKind_welcome hc] at hd
    split at hd
    · rename_i hk
      rcases (h.sorted.ordered_ofKind k).mem_insert_iff.mp hd with hd | ⟨rfl, -⟩
      · exact h.kind_eq d hd
      · exact hk.symm
    · exact h.kind_eq d hd

theorem dismiss (h : r.Inclusive) (c : κ) : (r.dismiss c).Inclusive := by
  by_cases hc : c ∉ r.creatures
  · rw [dismiss_of_not_mem hc]
    exact h
  rw [Decidable.not_not] at hc
  refine ⟨h.sorted.dismiss c, fun d hd => ?_, fun {k} d hd => ?_⟩
  · -- Whoever is still present is not equal to the one let go, whatever their kind.
    rw [creatures_dismiss hc, h.sorted.ordered.mem_erase_iff] at hd
    have hold := h.mem_ofKind d hd.1
    rw [ofKind_dismiss hc]
    split
    · exact (h.sorted.ordered_ofKind _).mem_erase_of_mem hold hd.2
    · exact hold
  · rw [ofKind_dismiss hc] at hd
    split at hd
    · exact h.kind_eq d ((h.sorted.ordered_ofKind k).mem_erase_iff.mp hd).1
    · exact h.kind_eq d hd

/-- Everyone who is offered when all kinds are chosen is offered when their
own kind is, by an equal handle of that kind. -/
theorem exists_member (h : r.Inclusive) {kinds : KindSet} (hc : c ∈ r.members .all)
    (hkind : Creature.kind c ∈ kinds) :
    ∃ d ∈ r.members kinds, compare c d = .eq ∧ Creature.kind d = Creature.kind c := by
  rw [members_all] at hc
  rw [members]
  split
  · exact ⟨c, hc, Std.ReflCmp.compare_self, rfl⟩
  · obtain ⟨d, hd, heq⟩ := h.mem_ofKind c hc
    exact ⟨d, List.mem_flatMap.mpr ⟨_, KindSet.mem_kinds_iff.mpr hkind, hd⟩, heq, h.kind_eq d hd⟩

end Inclusive

/-- Whoever is let go under another kind than they were let in stays behind in
the set of the first kind. -/
theorem Sorted.stale (h : r.Sorted) (hc : c ∉ r.creatures) (heq : compare c d = .eq)
    (hkind : Creature.kind c ≠ Creature.kind d) :
    c ∉ ((r.welcome c).dismiss d).creatures ∧
      c ∈ ((r.welcome c).dismiss d).ofKind (Creature.kind c) := by
  have hd : d ∈ (r.welcome c).creatures := by
    rw [creatures_welcome hc, ← SortedSet.mem_congr heq]
    exact h.ordered.mem_insert_self c
  constructor
  · rw [SortedSet.mem_congr heq]
    exact (h.welcome c).not_mem_dismiss_self d
  · rw [ofKind_dismiss hd, if_neg hkind, ofKind_welcome hc, if_pos rfl]
    exact (h.ordered_ofKind _).mem_insert_self c

end Roster

namespace View

variable {τ κ : Type} [Creature κ] {v : View τ κ}

/-- A search for some kinds that visits these leaves, compared with a search
for all kinds in the same area. It may offer more of the chosen kinds, but no
less. -/
structure Generous (v : View τ κ) (visited : List (LeafId × Leaf τ κ)) : Prop where
  /-- Both visit the same leaves in the same order. -/
  leaves : v.leaves = .ok visited
  leaves_all : { v with kinds := .all }.leaves = .ok visited
  /-- Both are done with one leaf before they offer the creatures of the next. -/
  offered : v.offered = .ok (members visited v.kinds)
  offered_all : { v with kinds := .all }.offered = .ok (members visited .all)
  /-- Everyone of the chosen kinds whom a leaf offers to the search for all kinds it offers to the
  search for some, by an equal handle of their kind. -/
  offers : ∀ e ∈ visited, ∀ c ∈ e.2.roster.members .all, Creature.kind c ∈ v.kinds →
    ∃ d ∈ e.2.roster.members v.kinds, compare c d = .eq ∧ Creature.kind d = Creature.kind c
  covers : ∀ c ∈ members visited .all, Creature.kind c ∈ v.kinds →
    ∃ d ∈ members visited v.kinds, compare c d = .eq ∧ Creature.kind d = Creature.kind c

theorem generous_of_inclusive [Std.TransOrd κ] (hs : v.atlas.tree.Sound)
    (hinclusive : ∀ e ∈ v.atlas.tree.entries v.area, e.2.roster.Inclusive) :
    v.Generous (v.atlas.tree.entries v.area) where
  leaves := hs.visit_ok _
  leaves_all := hs.visit_ok _
  offered := offered_ok hs
  offered_all := offered_ok (v := { v with kinds := .all }) hs
  offers e he _ hc := (hinclusive e he).exists_member hc
  covers c hc hkind := by
    obtain ⟨e, he, hc⟩ := List.mem_flatMap.mp hc
    obtain ⟨d, hd, heq⟩ := (hinclusive e he).exists_member hc hkind
    exact ⟨d, List.mem_flatMap.mpr ⟨e, he, hd⟩, heq⟩

end View

namespace Atlas

variable {τ κ : Type} [Creature κ]

theorem replay_visit {h : History τ κ} (hs : h.atlas.tree.Sound) (p : Location) (c d : κ) :
    ∃ k, h.replay [.enter p c, .leave p d] = .ok k ∧ k.atlas.tree.Sound ∧
      (k.atlas.tree.body p.x p.y).roster =
        ((h.atlas.tree.body p.x p.y).roster.welcome c).dismiss d := by
  obtain ⟨step, hstep, hs', hbody⟩ := apply_ok hs (.enter p c)
  obtain ⟨step', hstep', hs'', hbody'⟩ := apply_ok hs' (.leave p d)
  refine ⟨_, History.replay_of_apply hstep (History.replay_of_apply hstep' (History.replay_nil _)),
    hs'', ?_⟩
  have hp : p.InBlock p.x p.y := ⟨rfl, rfl⟩
  rw [hbody', hbody, Edit.roster_amend, Edit.roster_amend, Edit.enroll, if_pos hp, Edit.enroll,
    if_pos hp]

theorem not_mem_body {a : Atlas τ κ} (hs : a.tree.Sound) {p : Location} {c : κ}
    (habsent : ∀ id l, a.leafAt? p.x p.y = .ok (some id) → a.leaf? id = some l →
      c ∉ l.roster.creatures) : c ∉ (a.tree.body p.x p.y).roster.creatures := by
  obtain ⟨found, hfound⟩ := hs.locate_ok p.x p.y
  cases found with
  | none =>
      rw [Quadtree.body_of_none hfound]
      exact Leaf.not_mem_ofPoint p.x p.y c
  | some id =>
      obtain ⟨l, hl, -⟩ := hs.locate_eq_some_iff.mp hfound
      rw [Quadtree.body_of_some hfound hl]
      exact habsent id l hfound (leaf?_eq_some_iff.mpr hl)

variable [Std.TransOrd κ]

/-- Whoever enters a block where they are not, and leaves it under another
kind, stays listed there. -/
theorem replay_stale {h : History τ κ} (hs : h.atlas.tree.Sound) {p : Location}
    (hsorted : (h.atlas.tree.body p.x p.y).roster.Sorted) {c d : κ} (heq : compare c d = .eq)
    (hkind : Creature.kind c ≠ Creature.kind d)
    (hc : c ∉ (h.atlas.tree.body p.x p.y).roster.creatures) :
    ∃ k id l, h.replay [.enter p c, .leave p d] = .ok k ∧
      k.atlas.leafAt? p.x p.y = .ok (some id) ∧ k.atlas.leaf? id = some l ∧
      c ∉ l.roster.creatures ∧ c ∈ l.roster.ofKind (Creature.kind c) := by
  obtain ⟨k, hk, hs', hroster⟩ := replay_visit hs p c d
  obtain ⟨hgone, hstale⟩ := hsorted.stale hc heq hkind
  rw [← hroster] at hgone hstale
  obtain ⟨id, hid⟩ := hs'.exists_leaf_of_body_ne (x := p.x) (y := p.y) fun hbody => by
    rw [hbody] at hstale
    obtain ⟨e, he, -⟩ := hstale
    cases hkind' : Creature.kind c <;> rw [hkind'] at he <;> cases he
  obtain ⟨l, hl, -⟩ := hs'.locate_eq_some_iff.mp hid
  rw [Quadtree.body_of_some hid hl] at hgone hstale
  exact ⟨k, id, l, hk, hid, leaf?_eq_some_iff.mpr hl, hgone, hstale⟩

/-- After every run of edits, whatever handles count as the same, nobody is
missing from the set of their kind, so a search for some kinds offers everyone
whom it should. It may offer others: wherever someone who is not there enters
and leaves as two handles that count as the same but differ in kind, the first
of the two stays behind. -/
theorem replay_inclusive (edits : List (Edit τ κ)) :
    ∃ h, ({} : History τ κ).replay edits = .ok h ∧
      (∀ id l, h.atlas.leaf? id = some l → l.roster.Inclusive) ∧
      (∀ area kinds, ∃ visited, View.Generous { atlas := h.atlas, area, kinds } visited) ∧
      ∀ p c d, compare c d = .eq → Creature.kind c ≠ Creature.kind d →
        (∀ id l, h.atlas.leafAt? p.x p.y = .ok (some id) → h.atlas.leaf? id = some l →
          c ∉ l.roster.creatures) →
        ∃ k id l, h.replay [.enter p c, .leave p d] = .ok k ∧
          k.atlas.leafAt? p.x p.y = .ok (some id) ∧ k.atlas.leaf? id = some l ∧
          c ∉ l.roster.creatures ∧ c ∈ l.roster.ofKind (Creature.kind c) := by
  obtain ⟨h, hreplay, hs, hinclusive⟩ := History.replay_rosters
    Roster.inclusive_empty (fun hr => hr.welcome _) (fun hr => hr.dismiss _) edits
  have hleaf : ∀ id l, h.atlas.leaf? id = some l → l.roster.Inclusive := fun id l hl =>
    roster_of_leaf? hs hinclusive hl
  refine ⟨h, hreplay, hleaf, fun area kinds => ?_, fun p c d heq hkind habsent => ?_⟩
  · refine ⟨h.atlas.tree.entries area, View.generous_of_inclusive hs fun e he => ?_⟩
    exact hleaf e.1 e.2 (leaf?_eq_some_iff.mpr (hs.mem_entries_iff.mp he).1)
  · have hsorted := (hinclusive p.x p.y).sorted
    exact replay_stale hs hsorted heq hkind (not_mem_body hs habsent)

/-- One number in several guises. A monster is let go as a player, comes back
as an npc and moves as a monster; someone else enters twice. -/
def aliases : List (Edit Nat (Handle .idOnly)) :=
  [.enter ⟨6, 6, 0⟩ ⟨.monster, 1⟩, .leave ⟨6, 6, 0⟩ ⟨.player, 1⟩, .enter ⟨7, 6, 0⟩ ⟨.npc, 1⟩,
    .enter ⟨7, 7, 0⟩ ⟨.npc, 2⟩, .enter ⟨6, 7, 1⟩ ⟨.player, 2⟩,
    .move ⟨6, 6, 0⟩ ⟨8, 6, 0⟩ ⟨.monster, 1⟩]

/-- Afterwards someone enters a block further on as an npc and leaves it as a
player. -/
theorem inclusive_among_aliases :
    Std.TransOrd (Handle .idOnly) ∧
      ∃ h, ({} : History Nat (Handle .idOnly)).replay aliases = .ok h ∧
        (∀ id l, h.atlas.leaf? id = some l → l.roster.Inclusive) ∧
        (∃ visited,
          View.Generous { atlas := h.atlas, area := ⟨7, 0, 8, 0⟩, kinds := ⟨0xD⟩ } visited) ∧
        ∃ k id l, h.replay [.enter ⟨30, 6, 0⟩ ⟨.npc, 1⟩, .leave ⟨30, 6, 0⟩ ⟨.player, 1⟩] = .ok k ∧
          k.atlas.leafAt? 30 6 = .ok (some id) ∧ k.atlas.leaf? id = some l ∧
          ⟨.npc, 1⟩ ∉ l.roster.creatures ∧ ⟨.npc, 1⟩ ∈ l.roster.npcs := by
  obtain ⟨h, hreplay, hleaf, hgenerous, hstale⟩ := replay_inclusive aliases
  obtain ⟨h', hreplay', hs, hcorners⟩ := replay_corners aliases
  obtain rfl := Except.ok.inj (hreplay'.symm.trans hreplay)
  refine ⟨inferInstance, h', hreplay, hleaf, hgenerous _ _,
    hstale ⟨30, 6, 0⟩ ⟨.npc, 1⟩ ⟨.player, 1⟩ (by decide) (by decide) fun id l hid => ?_⟩
  have hmem := hs.mem_corners_iff.mpr ⟨id, hid⟩
  rw [hcorners] at hmem
  exact absurd hmem (by decide)

end Atlas

end TileAtlas
