import TileAtlas.Proofs.Creature
import TileAtlas.Proofs.Roster

/-!
The members of a roster, by kind.

There are two ways to go through the creatures of some kinds: the sets by
kind, one after another, or the set of all creatures, leaving out those of
other kinds. A roster takes the first way, except that it goes through the set
of all creatures when there is nothing to leave out. With coherent sets the
two ways meet the same creatures, and in the same order if the order of the
handles puts the kinds one after another.
-/

namespace TileAtlas

/-- The order of handles puts players before monsters and monsters before
everyone else. -/
def SortsByKind (κ : Type) [Creature κ] : Prop :=
  ∀ c d : κ, compare (Creature.kind c) (Creature.kind d) = .lt → compare c d = .lt

theorem Handle.sortsByKind_kindId : SortsByKind (Handle .kindId) := by
  intro c d hlt
  show (Ord.compare c.kind d.kind).then (Ord.compare c.id d.id) = .lt
  rw [show Ord.compare c.kind d.kind = .lt from hlt]
  rfl

namespace KindSet

variable {s t : KindSet}

/-- The bits that stand for no kind do not matter to a set of kinds. -/
theorem subset_known_iff (h : t ⊆ all) : t ⊆ s.known ↔ t ⊆ s := by
  have hknown : t ∩ s.known = t ∩ s :=
    calc t ∩ s.known
      _ = ⟨t.bits &&& (s.bits &&& 7)⟩ := rfl
      _ = ⟨(t.bits &&& 7) &&& s.bits⟩ := by rw [UInt8.and_comm s.bits, UInt8.and_assoc]
      _ = (t ∩ all) ∩ s := rfl
      _ = t ∩ s := by rw [show t ∩ all = t from h]
  exact Eq.congr hknown rfl

theorem mem_known_iff {k : Kind} : k ∈ s.known ↔ k ∈ s :=
  subset_known_iff (t := single k) (by cases k <;> decide)

theorem kinds_known (s : KindSet) : s.known.kinds = s.kinds := by
  simp only [kinds, mem_known_iff]

end KindSet

namespace Roster

variable {κ : Type}

theorem members_of_all_subset (r : Roster κ) {kinds : KindSet} (h : .all ⊆ kinds) :
    r.members kinds = r.creatures.toList := if_pos h

theorem members_all (r : Roster κ) : r.members .all = r.creatures.toList :=
  members_of_all_subset r rfl

theorem members_known (r : Roster κ) (kinds : KindSet) :
    r.members kinds.known = r.members kinds := by
  simp only [members, KindSet.subset_known_iff (t := .all) rfl, KindSet.kinds_known]

variable [Creature κ] [Std.TransOrd κ] {r : Roster κ}

theorem Coherent.toList_ofKind (h : r.Coherent) (k : Kind) :
    (r.ofKind k).toList = r.creatures.toList.filter (Creature.kind · = k) := by
  refine List.Pairwise.eq_of_mem_iff (h.ordered_ofKind k) (List.Pairwise.filter _ h.ordered) ?_
  intro c
  rw [List.mem_filter, decide_eq_true_iff]
  exact h.mem_ofKind_iff

/-- What a roster offers for some kinds, compared with what it offers for all
kinds. -/
structure Offers (r : Roster κ) (kinds : KindSet) : Prop where
  /-- The creatures are offered in the order of their handles, none of them twice, when all kinds
  are chosen. -/
  ordered : (r.members .all).Pairwise fun c d => compare c d = .lt
  /-- Those of the chosen kinds are offered, each of them once. -/
  perm : (r.members kinds).Perm ((r.members .all).filter (Creature.kind · ∈ kinds))
  /-- Unless every kind is chosen, players come first, then monsters, then npcs, and each of these
  in the order of their handles. -/
  byKind : ¬ .all ⊆ kinds → r.members kinds = (Kind.all.filter (· ∈ kinds)).flatMap fun k =>
    (r.members .all).filter (Creature.kind · = k)
  /-- They come as they do when all kinds are chosen, if they are, or if handles are ordered by
  kind. -/
  inOrder : .all ⊆ kinds ∨ SortsByKind κ →
    r.members kinds = (r.members .all).filter (Creature.kind · ∈ kinds)

theorem Coherent.members_of_not_all_subset (h : r.Coherent) {kinds : KindSet}
    (hall : ¬ .all ⊆ kinds) :
    r.members kinds = kinds.kinds.flatMap fun k =>
      (r.members .all).filter (Creature.kind · = k) := by
  rw [members, if_neg hall, members_all]
  exact List.flatMap_congr fun k _ => h.toList_ofKind k

theorem Coherent.members_perm (h : r.Coherent) (kinds : KindSet) :
    (r.members kinds).Perm ((r.members .all).filter (Creature.kind · ∈ kinds)) := by
  refine (List.perm_ext_iff_of_nodup (h.nodup_members kinds) ((h.nodup_members _).filter _)).mpr ?_
  intro c
  rw [List.mem_filter, decide_eq_true_iff, h.mem_members_iff, members_all]

omit [Std.TransOrd κ] in
theorem Coherent.members_pairwise (h : r.Coherent) (hsorts : SortsByKind κ) (kinds : KindSet) :
    (r.members kinds).Pairwise fun c d => compare c d = .lt := by
  have hall : Kind.all.Pairwise fun j k => compare j k = .lt := by decide
  rw [members]
  split
  · exact h.ordered
  · refine List.pairwise_flatMap.mpr ⟨fun k _ => h.ordered_ofKind k, ?_⟩
    refine (hall.filter _).imp fun {j k} hlt c hc d hd => hsorts c d ?_
    rw [(h.mem_ofKind_iff.mp hc).2, (h.mem_ofKind_iff.mp hd).2]
    exact hlt

theorem Coherent.members_eq_filter (h : r.Coherent) {kinds : KindSet}
    (hsorts : .all ⊆ kinds ∨ SortsByKind κ) :
    r.members kinds = (r.members .all).filter (Creature.kind · ∈ kinds) := by
  rcases hsorts with hall | hsorts
  · rw [members_of_all_subset r hall, members_all, List.filter_eq_self.mpr]
    intro c _
    exact decide_eq_true (KindSet.mem_of_all_subset hall _)
  · refine List.Pairwise.eq_of_mem_iff (h.members_pairwise hsorts kinds) ?_ fun c =>
      (h.members_perm kinds).mem_iff
    rw [members_all]
    exact List.Pairwise.filter _ h.ordered

theorem Coherent.offers (h : r.Coherent) (kinds : KindSet) : r.Offers kinds where
  ordered := by
    rw [members_all]
    exact h.ordered
  perm := h.members_perm kinds
  byKind := h.members_of_not_all_subset
  inOrder := h.members_eq_filter

-- An order by kind first keeps the order of the handles, whatever kinds are chosen.
example {r : Roster (Handle .kindId)} (h : r.Coherent) (kinds : KindSet) :
    r.members kinds = (r.members .all).filter (Creature.kind · ∈ kinds) :=
  h.members_eq_filter (.inr Handle.sortsByKind_kindId)

-- An order by number first need not put players before npcs.
example :
    let r := (({} : Roster (Handle .idKind)).welcome ⟨.npc, 1⟩).welcome ⟨.player, 2⟩
    r.members .all = [⟨.npc, 1⟩, ⟨.player, 2⟩] ∧
      r.members ⟨0xD⟩ = [⟨.player, 2⟩, ⟨.npc, 1⟩] := by
  decide

end Roster

end TileAtlas
