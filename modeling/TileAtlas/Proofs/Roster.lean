import Mathlib.Data.List.Nodup
import TileAtlas.Proofs.SortedSet
import TileAtlas.Roster

/-!
Rosters whose sets agree with one another.

The sets by kind are changed only after the set of all creatures has decided
that there is something to change, so they could drift away from it. They do
not as long as equal handles are of one kind: `Coherent` says what the sets
then have to do with each other, and both changes keep it.
-/

namespace TileAtlas

/-- An order of handles that tells different kinds apart. -/
class LawfulKind (κ : Type) [Creature κ] : Prop where
  kind_eq {c d : κ} : compare c d = .eq → Creature.kind c = Creature.kind d

instance {κ : Type} [Creature κ] [Std.LawfulEqOrd κ] : LawfulKind κ where
  kind_eq h := congrArg Creature.kind (Std.LawfulEqOrd.eq_of_compare h)

/-! ### Kinds -/

namespace KindSet

variable {k : Kind} {s : KindSet}

theorem mem_of_all_subset (h : all ⊆ s) (k : Kind) : k ∈ s := by
  have hall : 7 &&& s.bits = 7 := congrArg bits h
  have hflag : k.flag &&& 7 = k.flag := by cases k <;> rfl
  have hbits : k.flag &&& s.bits = k.flag :=
    calc k.flag &&& s.bits
      _ = (k.flag &&& 7) &&& s.bits := by rw [hflag]
      _ = k.flag &&& (7 &&& s.bits) := UInt8.and_assoc ..
      _ = k.flag := by rw [hall, hflag]
  exact congrArg KindSet.mk hbits

theorem mem_kinds_iff : k ∈ s.kinds ↔ k ∈ s := by
  have hall : k ∈ Kind.all := by cases k <;> decide
  rw [kinds, List.mem_filter, decide_eq_true_iff, and_iff_right hall]

theorem nodup_kinds (s : KindSet) : s.kinds.Nodup := by
  have hall : Kind.all.Nodup := by decide
  exact hall.filter _

end KindSet

namespace Roster

variable {κ : Type} [Creature κ] {r : Roster κ} {c d : κ}

/-! ### Letting in and letting go -/

def welcome (r : Roster κ) (c : κ) : Roster κ := (r.insert? c).getD r

def dismiss (r : Roster κ) (c : κ) : Roster κ := (r.erase? c).getD r

theorem insert?_of_mem (h : c ∈ r.creatures) : r.insert? c = none := if_pos h

theorem insert?_of_not_mem (h : c ∉ r.creatures) : r.insert? c = some (r.welcome c) := by
  rw [welcome, insert?, if_neg h, Option.getD_some]

theorem erase?_of_mem (h : c ∈ r.creatures) : r.erase? c = some (r.dismiss c) := by
  rw [dismiss, erase?, if_pos h, Option.getD_some]

theorem erase?_of_not_mem (h : c ∉ r.creatures) : r.erase? c = none := if_neg h

theorem welcome_of_mem (h : c ∈ r.creatures) : r.welcome c = r := by
  rw [welcome, insert?_of_mem h, Option.getD_none]

theorem dismiss_of_not_mem (h : c ∉ r.creatures) : r.dismiss c = r := by
  rw [dismiss, erase?_of_not_mem h, Option.getD_none]

theorem creatures_welcome (h : c ∉ r.creatures) :
    (r.welcome c).creatures = r.creatures.insert c := by
  rw [welcome, insert?, if_neg h, Option.getD_some, creatures_modifyKind]

theorem creatures_dismiss (h : c ∈ r.creatures) :
    (r.dismiss c).creatures = r.creatures.erase c := by
  rw [dismiss, erase?, if_pos h, Option.getD_some, creatures_modifyKind]

theorem ofKind_welcome (h : c ∉ r.creatures) (k : Kind) :
    (r.welcome c).ofKind k =
      if k = Creature.kind c then (r.ofKind k).insert c else r.ofKind k := by
  rw [welcome, insert?, if_neg h, Option.getD_some]
  split
  · rename_i hk
    rw [hk, ofKind_modifyKind_self]
    cases Creature.kind c <;> rfl
  · rename_i hk
    rw [ofKind_modifyKind_of_ne _ hk]
    cases k <;> rfl

theorem ofKind_dismiss (h : c ∈ r.creatures) (k : Kind) :
    (r.dismiss c).ofKind k =
      if k = Creature.kind c then (r.ofKind k).erase c else r.ofKind k := by
  rw [dismiss, erase?, if_pos h, Option.getD_some]
  split
  · rename_i hk
    rw [hk, ofKind_modifyKind_self]
    cases Creature.kind c <;> rfl
  · rename_i hk
    rw [ofKind_modifyKind_of_ne _ hk]
    cases k <;> rfl

/-! ### Order

Whatever the sets by kind have to do with each other, each of them stays in
order, and someone who is let in or let go counts for one in the set of all
creatures. -/

/-- All four sets are in order. -/
structure Sorted (r : Roster κ) : Prop where
  ordered : r.creatures.Ordered
  ordered_ofKind (k : Kind) : (r.ofKind k).Ordered

theorem sorted_empty : ({} : Roster κ).Sorted where
  ordered := SortedSet.ordered_empty
  ordered_ofKind k := by
    cases k <;> exact SortedSet.ordered_empty

theorem size_welcome {added : Bool} (h : added = true ↔ c ∉ r.creatures) :
    (r.welcome c).creatures.size = r.creatures.size + added.toNat := by
  cases added with
  | false =>
      rw [welcome_of_mem (by simpa using h)]
      rfl
  | true =>
      have habsent := h.mp rfl
      rw [creatures_welcome habsent, SortedSet.size_insert habsent]
      rfl

namespace Sorted

variable [Std.TransOrd κ]

theorem welcome (h : r.Sorted) (c : κ) : (r.welcome c).Sorted := by
  by_cases hc : c ∈ r.creatures
  · rw [welcome_of_mem hc]
    exact h
  constructor
  · rw [creatures_welcome hc]
    exact h.ordered.insert c
  · intro k
    rw [ofKind_welcome hc]
    split
    · exact (h.ordered_ofKind k).insert c
    · exact h.ordered_ofKind k

omit [Std.TransOrd κ] in
theorem dismiss (h : r.Sorted) (c : κ) : (r.dismiss c).Sorted := by
  by_cases hc : c ∉ r.creatures
  · rw [dismiss_of_not_mem hc]
    exact h
  rw [Decidable.not_not] at hc
  constructor
  · rw [creatures_dismiss hc]
    exact h.ordered.erase c
  · intro k
    rw [ofKind_dismiss hc]
    split
    · exact (h.ordered_ofKind k).erase c
    · exact h.ordered_ofKind k

theorem size_dismiss (h : r.Sorted) {removed : Bool} (hc : removed = true ↔ c ∈ r.creatures) :
    (r.dismiss c).creatures.size + removed.toNat = r.creatures.size := by
  cases removed with
  | false =>
      rw [dismiss_of_not_mem (by simpa using hc)]
      rfl
  | true =>
      have hpresent := hc.mp rfl
      rw [creatures_dismiss hpresent]
      exact h.ordered.size_erase hpresent

theorem mem_welcome_self (h : r.Sorted) (c : κ) : c ∈ (r.welcome c).creatures := by
  by_cases hc : c ∈ r.creatures
  · rwa [welcome_of_mem hc]
  · rw [creatures_welcome hc]
    exact h.ordered.mem_insert_self c

theorem not_mem_dismiss_self (h : r.Sorted) (c : κ) : c ∉ (r.dismiss c).creatures := by
  by_cases hc : c ∈ r.creatures
  · rw [creatures_dismiss hc]
    exact h.ordered.not_mem_erase_self c
  · rwa [dismiss_of_not_mem hc]

theorem eq {r' : Roster κ} (h : r.Sorted) (h' : r'.Sorted)
    (hcreatures : ∀ c, c ∈ r.creatures.toList ↔ c ∈ r'.creatures.toList)
    (hkinds : ∀ k c, c ∈ (r.ofKind k).toList ↔ c ∈ (r'.ofKind k).toList) : r = r' := by
  have hofKind : ∀ k, r.ofKind k = r'.ofKind k := fun k =>
    (h.ordered_ofKind k).eq (h'.ordered_ofKind k) (hkinds k)
  cases r
  cases r'
  rw [mk.injEq]
  exact ⟨h.ordered.eq h'.ordered hcreatures, hofKind .player, hofKind .monster, hofKind .npc⟩

end Sorted

/-! ### Coherence -/

/-- The sets are in order, and the sets by kind split the set of all
creatures. -/
structure Coherent (r : Roster κ) : Prop where
  ordered : r.creatures.Ordered
  ordered_ofKind (k : Kind) : (r.ofKind k).Ordered
  mem_ofKind_iff {k : Kind} {c : κ} :
    c ∈ (r.ofKind k).toList ↔ c ∈ r.creatures.toList ∧ Creature.kind c = k

theorem coherent_empty : ({} : Roster κ).Coherent where
  ordered := sorted_empty.ordered
  ordered_ofKind := sorted_empty.ordered_ofKind
  mem_ofKind_iff {k c} := by
    cases k <;> exact (and_iff_left_of_imp nofun).symm

namespace Coherent

theorem sorted (h : r.Coherent) : r.Sorted := ⟨h.ordered, h.ordered_ofKind⟩

variable [Std.TransOrd κ]

theorem mem_welcome_iff (h : r.Coherent) :
    d ∈ (r.welcome c).creatures.toList ↔ d ∈ r.creatures.toList ∨ d = c ∧ c ∉ r.creatures := by
  by_cases hc : c ∈ r.creatures
  · rw [welcome_of_mem hc]
    exact (or_iff_left fun hd => hd.2 hc).symm
  · rw [creatures_welcome hc, h.ordered.mem_insert_iff]

theorem mem_dismiss_iff (h : r.Coherent) :
    d ∈ (r.dismiss c).creatures.toList ↔ d ∈ r.creatures.toList ∧ compare c d ≠ .eq := by
  by_cases hc : c ∈ r.creatures
  · rw [creatures_dismiss hc, h.ordered.mem_erase_iff]
  · rw [dismiss_of_not_mem hc]
    exact (and_iff_left_of_imp fun hd heq => hc ⟨d, hd, heq⟩).symm

theorem welcome (h : r.Coherent) (c : κ) : (r.welcome c).Coherent := by
  by_cases hc : c ∈ r.creatures
  · rw [welcome_of_mem hc]
    exact h
  obtain ⟨hordered, hordered_ofKind⟩ := h.sorted.welcome c
  refine ⟨hordered, hordered_ofKind, fun {k d} => ?_⟩
  -- Someone who is absent is absent from the set of their kind as well.
  have habsent : c ∉ r.ofKind k := by
    rintro ⟨e, he, heq⟩
    exact hc ⟨e, (h.mem_ofKind_iff.mp he).1, heq⟩
  rw [ofKind_welcome hc, h.mem_welcome_iff]
  split
  · rename_i hk
    rw [(h.ordered_ofKind k).mem_insert_iff, h.mem_ofKind_iff]
    constructor
    · rintro (⟨hd, hdk⟩ | ⟨rfl, -⟩)
      · exact ⟨.inl hd, hdk⟩
      · exact ⟨.inr ⟨rfl, hc⟩, hk.symm⟩
    · rintro ⟨hd | ⟨rfl, -⟩, hdk⟩
      · exact .inl ⟨hd, hdk⟩
      · exact .inr ⟨rfl, habsent⟩
  · rename_i hk
    rw [h.mem_ofKind_iff]
    constructor
    · rintro ⟨hd, hdk⟩
      exact ⟨.inl hd, hdk⟩
    · rintro ⟨hd | ⟨rfl, -⟩, hdk⟩
      · exact ⟨hd, hdk⟩
      · exact absurd hdk.symm hk

theorem dismiss [LawfulKind κ] (h : r.Coherent) (c : κ) : (r.dismiss c).Coherent := by
  by_cases hc : c ∉ r.creatures
  · rw [dismiss_of_not_mem hc]
    exact h
  rw [Decidable.not_not] at hc
  obtain ⟨hordered, hordered_ofKind⟩ := h.sorted.dismiss c
  refine ⟨hordered, hordered_ofKind, fun {k d} => ?_⟩
  rw [ofKind_dismiss hc, h.mem_dismiss_iff]
  split
  · rw [(h.ordered_ofKind k).mem_erase_iff, h.mem_ofKind_iff, and_right_comm]
  · rename_i hk
    rw [h.mem_ofKind_iff]
    constructor
    · rintro ⟨hd, hdk⟩
      exact ⟨⟨hd, fun heq => hk (hdk.symm.trans (LawfulKind.kind_eq heq).symm)⟩, hdk⟩
    · rintro ⟨⟨hd, -⟩, hdk⟩
      exact ⟨hd, hdk⟩

end Coherent

/-! ### Members -/

theorem Coherent.mem_members_iff (h : r.Coherent) {kinds : KindSet} :
    c ∈ r.members kinds ↔ c ∈ r.creatures.toList ∧ Creature.kind c ∈ kinds := by
  rw [members]
  split
  · rename_i hall
    exact (and_iff_left (KindSet.mem_of_all_subset hall _)).symm
  · simp only [List.mem_flatMap, h.mem_ofKind_iff, KindSet.mem_kinds_iff]
    constructor
    · rintro ⟨k, hk, hc, rfl⟩
      exact ⟨hc, hk⟩
    · rintro ⟨hc, hk⟩
      exact ⟨_, hk, hc, rfl⟩

theorem Coherent.nodup_members [Std.TransOrd κ] (h : r.Coherent) (kinds : KindSet) :
    (r.members kinds).Nodup := by
  rw [members]
  split
  · exact h.ordered.nodup
  · refine List.nodup_flatMap.mpr ⟨fun k _ => (h.ordered_ofKind k).nodup, ?_⟩
    refine (KindSet.nodup_kinds kinds).imp fun {j k} hne => ?_
    intro c hj hk
    exact hne ((h.mem_ofKind_iff.mp hj).2.symm.trans (h.mem_ofKind_iff.mp hk).2)

/-! ### Lists of creatures -/

/-- `Lists r who` says that the roster holds exactly the creatures of which
`who` is true. -/
structure Lists (r : Roster κ) (who : κ → Prop) : Prop where
  coherent : r.Coherent
  mem_iff (c : κ) : c ∈ r.creatures.toList ↔ who c

variable {who : κ → Prop}

theorem lists_empty : ({} : Roster κ).Lists fun _ => False where
  coherent := coherent_empty
  mem_iff _ := List.mem_nil_iff _

theorem Lists.congr {who' : κ → Prop} (h : r.Lists who) (hiff : ∀ c, who c ↔ who' c) :
    r.Lists who' where
  coherent := h.coherent
  mem_iff d := (h.mem_iff d).trans (hiff d)

theorem Lists.eq [Std.TransOrd κ] {r' : Roster κ} (h : r.Lists who) (h' : r'.Lists who) :
    r = r' := by
  have hmem : ∀ c, c ∈ r.creatures.toList ↔ c ∈ r'.creatures.toList := fun c =>
    (h.mem_iff c).trans (h'.mem_iff c).symm
  refine h.coherent.sorted.eq h'.coherent.sorted hmem fun k c => ?_
  rw [h.coherent.mem_ofKind_iff, h'.coherent.mem_ofKind_iff, hmem]

variable [Std.TransOrd κ] [Std.LawfulEqOrd κ]

theorem Lists.welcome (h : r.Lists who) (c : κ) : (r.welcome c).Lists fun d => who d ∨ d = c where
  coherent := h.coherent.welcome c
  mem_iff d := by
    rw [h.coherent.mem_welcome_iff, SortedSet.mem_iff_mem_toList, ← h.mem_iff]
    constructor
    · rintro (hd | ⟨hd, -⟩)
      · exact .inl hd
      · exact .inr hd
    · rintro (hd | rfl)
      · exact .inl hd
      · by_cases hmem : d ∈ r.creatures.toList
        · exact .inl hmem
        · exact .inr ⟨rfl, hmem⟩

theorem Lists.dismiss (h : r.Lists who) (c : κ) : (r.dismiss c).Lists fun d => who d ∧ d ≠ c where
  coherent := h.coherent.dismiss c
  mem_iff d := by
    rw [h.coherent.mem_dismiss_iff, Ne, Std.LawfulEqOrd.compare_eq_iff_eq, ← h.mem_iff, Ne,
      eq_comm (a := c)]

/-- Someone who is let go and comes back is listed as before. -/
theorem Coherent.welcome_dismiss (h : r.Coherent) (hc : c ∈ r.creatures) :
    (r.dismiss c).welcome c = r := by
  have hlists : r.Lists (· ∈ r.creatures.toList) := ⟨h, fun _ => Iff.rfl⟩
  refine ((hlists.dismiss c).welcome c).eq (hlists.congr fun d => ?_)
  rw [SortedSet.mem_iff_mem_toList] at hc
  constructor
  · intro hd
    by_cases hdc : d = c
    · exact .inr hdc
    · exact .inl ⟨hd, hdc⟩
  · rintro (⟨hd, -⟩ | rfl)
    · exact hd
    · exact hc

end Roster

end TileAtlas
