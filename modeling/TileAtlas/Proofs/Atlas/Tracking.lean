import TileAtlas.Proofs.Atlas.Effect
import TileAtlas.Proofs.Creature

/-!
Keeping track of creatures.

An atlas relies on its callers: it is told where a creature comes from, and
has no record to check that against. Here the record is kept outside the
atlas, as the place last reported for each creature. As long as the reports
agree with it, the rosters of the blocks say the same as the record.
-/

namespace TileAtlas

/-! ### Records -/

/-- The places last reported, for the creatures that are on the map. -/
def Whereabouts (κ : Type) := κ → Option Location

namespace Whereabouts

variable {κ : Type} {w : Whereabouts κ} {c d : κ}

def nowhere : Whereabouts κ := fun _ => none

/-- The creature was last reported in the block of a point. -/
def InBlock (w : Whereabouts κ) (x y : UInt16) (c : κ) : Prop := ∃ p ∈ w c, p.InBlock x y

theorem inBlock_iff_of_sameBlock {p : Location} {x y : UInt16}
    (h : ∃ r ∈ w c, p.SameBlock r) : w.InBlock x y c ↔ p.InBlock x y := by
  obtain ⟨r, hr, hblock⟩ := h
  constructor
  · rintro ⟨r', hr', hin⟩
    obtain rfl := Option.some.inj (hr.symm.trans hr')
    exact ⟨hblock.1.trans hin.1, hblock.2.trans hin.2⟩
  · intro hin
    exact ⟨r, hr, hblock.1.symm.trans hin.1, hblock.2.symm.trans hin.2⟩

variable [Creature κ]

def set (w : Whereabouts κ) (c : κ) (p : Option Location) : Whereabouts κ :=
  fun d => if compare c d = .eq then p else w d

variable [Std.LawfulEqOrd κ]

theorem set_self (p : Option Location) : w.set c p c = p := if_pos Std.ReflOrd.compare_self

theorem set_of_ne (h : d ≠ c) (p : Option Location) : w.set c p d = w d :=
  if_neg fun heq => h (Std.LawfulEqOrd.eq_of_compare heq).symm

theorem inBlock_set_none_iff {x y : UInt16} :
    (w.set c none).InBlock x y d ↔ w.InBlock x y d ∧ d ≠ c := by
  by_cases hd : d = c
  · rw [hd, InBlock, set_self]
    simp
  · rw [InBlock, set_of_ne hd]
    exact (and_iff_left hd).symm

theorem inBlock_set_some_iff {q : Location} {x y : UInt16} :
    (w.set c (some q)).InBlock x y d ↔
      (w.set c none).InBlock x y d ∨ d = c ∧ q.InBlock x y := by
  rw [inBlock_set_none_iff]
  by_cases hd : d = c
  · rw [hd, InBlock, set_self]
    simp
  · rw [InBlock, set_of_ne hd]
    simp [hd, InBlock]

end Whereabouts

section Records

variable {τ κ : Type} [Creature κ]

/-- The record after an edit. Only what is said about creatures is recorded. -/
def Edit.record (w : Whereabouts κ) : Edit τ κ → Whereabouts κ
  | .putTile _ _ => w
  | .clearTile _ => w
  | .enter p c => w.set c (some p)
  | .leave _ c => w.set c none
  | .move _ q c => w.set c (some q)

/-- An edit agrees with the record: who enters is not on the map, and who
leaves or moves does so from the block of the place last reported. -/
def Edit.Honest (w : Whereabouts κ) : Edit τ κ → Prop
  | .putTile _ _ => True
  | .clearTile _ => True
  | .enter _ c => w c = none
  | .leave p c => ∃ r ∈ w c, p.SameBlock r
  | .move p _ c => ∃ r ∈ w c, p.SameBlock r

instance (w : Whereabouts κ) : (e : Edit τ κ) → Decidable (e.Honest w)
  | .putTile _ _ => .isTrue trivial
  | .clearTile _ => .isTrue trivial
  | .enter _ c => inferInstanceAs (Decidable (w c = none))
  | .leave p c => inferInstanceAs (Decidable (∃ r ∈ w c, p.SameBlock r))
  | .move p _ c => inferInstanceAs (Decidable (∃ r ∈ w c, p.SameBlock r))

def recorded (w : Whereabouts κ) (edits : List (Edit τ κ)) : Whereabouts κ :=
  edits.foldl (fun w e => e.record w) w

/-- Each edit of a run agrees with the record of the edits before it. -/
def HonestRun (w : Whereabouts κ) : List (Edit τ κ) → Prop
  | [] => True
  | e :: edits => e.Honest w ∧ HonestRun (e.record w) edits

instance decidableHonestRun (w : Whereabouts κ) :
    (edits : List (Edit τ κ)) → Decidable (HonestRun w edits)
  | [] => .isTrue trivial
  | e :: edits =>
    have := decidableHonestRun (e.record w) edits
    inferInstanceAs (Decidable (_ ∧ _))

theorem HonestRun.of_append {w : Whereabouts κ} {past rest : List (Edit τ κ)}
    (h : HonestRun w (past ++ rest)) : HonestRun (recorded w past) rest := by
  induction past generalizing w with
  | nil => exact h
  | cons e past ih => exact ih h.2

theorem recorded_concat (w : Whereabouts κ) (past : List (Edit τ κ)) (e : Edit τ κ) :
    recorded w (past ++ [e]) = e.record (recorded w past) := by
  rw [recorded, List.foldl_append]
  rfl

end Records

/-! ### Rosters that follow the record -/

section Following

variable {τ κ : Type} [Creature κ] [Std.TransOrd κ] [Std.LawfulEqOrd κ]
  {w : Whereabouts κ} {l : Leaf τ κ} {x y : UInt16} {c : κ} {p q : Location}

theorem Leaf.lists_dismiss (h : l.roster.Lists (w.InBlock x y))
    (hp : ∃ r ∈ w c, p.SameBlock r) :
    (if p.InBlock x y then l.dismiss c else l).roster.Lists ((w.set c none).InBlock x y) := by
  split
  · exact (h.dismiss c).congr fun d => Whereabouts.inBlock_set_none_iff.symm
  · rename_i hblock
    refine h.congr fun d => ?_
    rw [Whereabouts.inBlock_set_none_iff, and_iff_left_of_imp]
    rintro hd rfl
    exact hblock ((Whereabouts.inBlock_iff_of_sameBlock hp).mp hd)

theorem Leaf.lists_welcome (h : l.roster.Lists ((w.set c none).InBlock x y)) (q : Location) :
    (if q.InBlock x y then l.welcome c else l).roster.Lists
      ((w.set c (some q)).InBlock x y) := by
  split
  · rename_i hblock
    refine (h.welcome c).congr fun d => ?_
    rw [Whereabouts.inBlock_set_some_iff, and_iff_left hblock]
  · rename_i hblock
    refine h.congr fun d => ?_
    rw [Whereabouts.inBlock_set_some_iff, or_iff_left fun hd => hblock hd.2]

theorem Edit.lists_amend {e : Edit τ κ} (hhonest : e.Honest w)
    (h : l.roster.Lists (w.InBlock x y)) (covers : UInt16 → UInt16 → Bool) :
    (e.amend covers x y l).roster.Lists ((e.record w).InBlock x y) := by
  cases e with
  | putTile p tile =>
      rw [roster_amend]
      exact h
  | clearTile p =>
      rw [roster_amend]
      exact h
  | enter p c =>
      refine Leaf.lists_welcome (h.congr fun d => ?_) p
      rw [Whereabouts.inBlock_set_none_iff, and_iff_left_of_imp]
      rintro ⟨r, hr, -⟩ rfl
      cases hhonest.symm.trans hr
  | leave p c => exact Leaf.lists_dismiss h hhonest
  | move p q c =>
      rw [amend]
      split
      · -- The record gets another place, but in the same block.
        rename_i hsettled
        refine h.congr fun d => ?_
        show _ ↔ (w.set c (some q)).InBlock x y d
        rw [Whereabouts.inBlock_set_some_iff, Whereabouts.inBlock_set_none_iff]
        by_cases hd : d = c
        · have hblock : p.InBlock x y ↔ q.InBlock x y := by
            rw [Location.InBlock, Location.InBlock, hsettled.2.1, hsettled.2.2]
          rw [hd, Whereabouts.inBlock_iff_of_sameBlock hhonest, hblock]
          simp
        · simp [hd]
      · exact Leaf.lists_welcome (Leaf.lists_dismiss h hhonest) q

end Following

/-! ### Runs -/

namespace Quadtree

variable {τ κ : Type} [Creature κ] {t : Quadtree τ κ} {w : Whereabouts κ}

/-- The roster of each block lists those last reported there. -/
def Tracks (t : Quadtree τ κ) (w : Whereabouts κ) : Prop :=
  ∀ x y, (t.body x y).roster.Lists (w.InBlock x y)

theorem Tracks.mem_iff [Std.TransOrd κ] [Std.LawfulEqOrd κ] (h : t.Tracks w) {x y : UInt16}
    {c : κ} : c ∈ (t.body x y).roster.creatures ↔ w.InBlock x y c := by
  rw [SortedSet.mem_iff_mem_toList]
  exact (h x y).mem_iff c

theorem Tracks.mem_of_sameBlock [Std.TransOrd κ] [Std.LawfulEqOrd κ] (h : t.Tracks w)
    {p : Location} {c : κ} (hp : ∃ r ∈ w c, p.SameBlock r) :
    c ∈ (t.body p.x p.y).roster.creatures :=
  h.mem_iff.mpr ((Whereabouts.inBlock_iff_of_sameBlock hp).mpr ⟨rfl, rfl⟩)

theorem tracks_empty : (∅ : Quadtree τ κ).Tracks .nowhere := by
  intro x y
  rw [body_empty]
  refine Roster.lists_empty.congr fun c => ?_
  simp [Whereabouts.InBlock, Whereabouts.nowhere]

end Quadtree

/-- After a run of honest edits the rosters follow the record. -/
theorem History.replay_tracks {τ κ : Type} [Creature κ] [Std.TransOrd κ] [Std.LawfulEqOrd κ]
    {edits : List (Edit τ κ)} (hhonest : HonestRun .nowhere edits) :
    ∃ h, ({} : History τ κ).replay edits = .ok h ∧ h.atlas.tree.Sound ∧
      h.atlas.tree.Tracks (recorded .nowhere edits) := by
  refine replay_induction
    (P := fun past h => h.atlas.tree.Sound ∧ h.atlas.tree.Tracks (recorded .nowhere past))
    ⟨Quadtree.sound_empty, Quadtree.tracks_empty⟩ ?_
  rintro past e h ⟨rest, rfl⟩ ⟨hs, htracks⟩
  rw [List.append_assoc] at hhonest
  obtain ⟨step, hstep, hs', hbody⟩ := Atlas.apply_ok hs e
  refine ⟨_, extend_of_apply hstep, hs', fun x y => ?_⟩
  rw [hbody, recorded_concat]
  exact Edit.lists_amend hhonest.of_append.1 (htracks x y) _

end TileAtlas
