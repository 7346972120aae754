import TileAtlas.Proofs.Atlas.Survey
import TileAtlas.Proofs.Atlas.Tracking

/-!
Finding creatures by area.

A view works on whole blocks and offers too much: everyone of the chosen kinds
whose block the area touches. The caller's test cuts that down. Two facts say
what comes out, who is found and that nobody is found twice; for the second
it matters that nobody is a member of two blocks.
-/

namespace TileAtlas

def Whereabouts.clip {κ : Type} (w : Whereabouts κ) (area : Area) (c : κ) : Bool :=
  (w c).any fun p => (p.x, p.y) ∈ area

theorem Whereabouts.clip_iff {κ : Type} {w : Whereabouts κ} {area : Area} {c : κ} :
    w.clip area c = true ↔ ∃ p, w c = some p ∧ (p.x, p.y) ∈ area := by
  rw [clip, Option.any_eq_true]
  simp only [decide_eq_true_eq]

namespace View

variable {τ κ : Type} {v : View τ κ} {w : Whereabouts κ} {c : κ}

/-! ### What is offered -/

theorem offered_ok (hs : v.atlas.tree.Sound) :
    v.offered =
      .ok ((v.atlas.tree.entries v.area).flatMap fun e => e.2.roster.members v.kinds) := by
  rw [offered, leaves, hs.visit_ok]
  rfl

theorem lists_of_leaf [Creature κ] (hs : v.atlas.tree.Sound) (ht : v.atlas.tree.Tracks w)
    {id : LeafId} {l : Leaf τ κ} (hl : v.atlas.tree.leaf id = .ok l) :
    l.roster.Lists (w.InBlock l.x l.y) := by
  have hbody := ht l.x l.y
  rw [Quadtree.body_of_some (hs.locate_corner hl) hl] at hbody
  exact hbody

theorem mem_offered_iff [Creature κ] (hs : v.atlas.tree.Sound) (ht : v.atlas.tree.Tracks w) :
    c ∈ (v.atlas.tree.entries v.area).flatMap (fun e => e.2.roster.members v.kinds) ↔
      Creature.kind c ∈ v.kinds ∧ ∃ x y, (x, y) ∈ v.area ∧ w.InBlock x y c := by
  rw [List.mem_flatMap]
  constructor
  · rintro ⟨⟨id, l⟩, hmem, hc⟩
    obtain ⟨hl, x, y, hxy, hx, hy⟩ := hs.mem_entries_iff.mp hmem
    have hlists := lists_of_leaf hs ht hl
    obtain ⟨hc, hkind⟩ := hlists.coherent.mem_members_iff.mp hc
    obtain ⟨p, hp, hblock⟩ := (hlists.mem_iff c).mp hc
    refine ⟨hkind, x, y, hxy, p, hp, ?_, ?_⟩
    · rw [hblock.1, (hs.aligned hl).1, hx]
    · rw [hblock.2, (hs.aligned hl).2, hy]
  · rintro ⟨hkind, x, y, hxy, hblock⟩
    have hlists := ht x y
    have hc := (hlists.mem_iff c).mpr hblock
    obtain ⟨id, l, -, hl, hx, hy, hbody⟩ := hs.exists_leaf_of_mem hc
    rw [hbody] at hc hlists
    refine ⟨(id, l), hs.mem_entries_iff.mpr ⟨hl, x, y, hxy, hx.symm, hy.symm⟩, ?_⟩
    exact hlists.coherent.mem_members_iff.mpr ⟨hc, hkind⟩

theorem nodup_offered [Creature κ] [Std.TransOrd κ] (hs : v.atlas.tree.Sound)
    (ht : v.atlas.tree.Tracks w) :
    ((v.atlas.tree.entries v.area).flatMap fun e => e.2.roster.members v.kinds).Nodup := by
  have hlists : ∀ {e}, e ∈ v.atlas.tree.entries v.area →
      e.2.roster.Lists (w.InBlock e.2.x e.2.y) := by
    intro e he
    exact lists_of_leaf hs ht (hs.mem_entries_iff.mp he).1
  refine List.nodup_flatMap.mpr ⟨fun e he => (hlists he).coherent.nodup_members _, ?_⟩
  refine (hs.pairwise_entries v.area).imp_of_mem fun {e f} he hf hlt => ?_
  intro c hce hcf
  obtain ⟨hce, -⟩ := (hlists he).coherent.mem_members_iff.mp hce
  obtain ⟨hcf, -⟩ := (hlists hf).coherent.mem_members_iff.mp hcf
  obtain ⟨p, hp, hpe⟩ := ((hlists he).mem_iff c).mp hce
  obtain ⟨q, hq, hqf⟩ := ((hlists hf).mem_iff c).mp hcf
  obtain rfl := Option.some.inj (hp.symm.trans hq)
  have halignedE := hs.aligned (hs.mem_entries_iff.mp he).1
  have halignedF := hs.aligned (hs.mem_entries_iff.mp hf).1
  have hx : e.2.x = f.2.x := by rw [← halignedE.1, ← halignedF.1, ← hpe.1, ← hqf.1]
  have hy : e.2.y = f.2.y := by rw [← halignedE.2, ← halignedF.2, ← hpe.2, ← hqf.2]
  exact ne_of_irrefl hlt (Prod.ext hx hy)

/-! ### What passes the test -/

theorem filterAuxM_pure {m : Type → Type} [Monad m] [LawfulMonad m] {α : Type} (p : α → Bool)
    (l acc : List α) :
    l.filterAuxM (fun a => (pure (p a) : m Bool)) acc = pure ((l.filter p).reverse ++ acc) := by
  induction l generalizing acc with
  | nil => rfl
  | cons a l ih =>
      rw [List.filterAuxM, pure_bind, ih]
      cases hp : p a with
      | false => rw [List.filter_cons_of_neg (by simp [hp])]; rfl
      | true => rw [List.filter_cons_of_pos hp, List.reverse_cons, List.append_assoc]; rfl

theorem collect_pure {m : Type → Type} [Monad m] [LawfulMonad m] {found : List κ}
    (h : v.offered = .ok found) (test : κ → Bool) :
    v.collect (fun c => (pure (test c) : m Bool)) = .ok (pure (found.filter test)) := by
  rw [collect, h]
  show Except.ok (List.filterM _ _) = _
  rw [List.filterM, filterAuxM_pure, pure_bind, List.append_nil, List.reverse_reverse]

end View

namespace Atlas

variable {τ κ : Type} [Creature κ] [Std.TransOrd κ] [Std.LawfulEqOrd κ]

/-- After a run of honest edits, a search of an area for creatures of some
kinds that asks for those last reported inside the area finds just these, and
each of them once. -/
theorem replay_find_tracked {edits : List (Edit τ κ)} (hhonest : HonestRun .nowhere edits) :
    ∃ h, ({} : History τ κ).replay edits = .ok h ∧
      ∀ (area : Area) (kinds : KindSet), ∃ found : List κ,
        View.collect (m := Id) { atlas := h.atlas, area, kinds }
          (fun c => pure ((recorded .nowhere edits).clip area c)) = .ok (pure found) ∧
        found.Nodup ∧
        ∀ c, c ∈ found ↔ Creature.kind c ∈ kinds ∧
          ∃ p, recorded .nowhere edits c = some p ∧ (p.x, p.y) ∈ area := by
  obtain ⟨h, hreplay, hs, ht⟩ := History.replay_tracks hhonest
  refine ⟨h, hreplay, fun area kinds => ?_⟩
  let v : View τ κ := { atlas := h.atlas, area, kinds }
  refine ⟨_, View.collect_pure (View.offered_ok (v := v) hs) _,
    (View.nodup_offered (v := v) hs ht).filter _, fun c => ?_⟩
  rw [List.mem_filter, View.mem_offered_iff (v := v) hs ht, Whereabouts.clip_iff]
  constructor
  · rintro ⟨⟨hkind, -⟩, hlast⟩
    exact ⟨hkind, hlast⟩
  · rintro ⟨hkind, p, hp, harea⟩
    exact ⟨⟨hkind, p.x, p.y, harea, p, hp, rfl, rfl⟩, p, hp, harea⟩

/-- Two creatures enter, one of them moves within its block and then to the
next one, and tiles are put down on the way, one of them too high up. -/
def stroll : List (Edit Nat (Handle .kindId)) :=
  [.enter ⟨6, 6, 0⟩ ⟨.player, 1⟩, .putTile ⟨30, 6, 7⟩ 4, .enter ⟨7, 1, 2⟩ ⟨.monster, 1⟩,
    .move ⟨6, 6, 0⟩ ⟨7, 6, 1⟩ ⟨.player, 1⟩, .putTile ⟨8, 6, 16⟩ 5,
    .move ⟨0, 0, 0⟩ ⟨8, 6, 1⟩ ⟨.player, 1⟩]

theorem find_after_stroll :
    HonestRun .nowhere stroll ∧
      ∃ h, ({} : History Nat (Handle .kindId)).replay stroll = .ok h ∧
        ∃ found : List (Handle .kindId),
          View.collect (m := Id) { atlas := h.atlas, area := ⟨8, 0, 9, 7⟩ }
            (fun c => pure ((recorded .nowhere stroll).clip ⟨8, 0, 9, 7⟩ c)) = .ok (pure found) ∧
          found.Nodup ∧ ⟨.player, 1⟩ ∈ found ∧ ⟨.monster, 1⟩ ∉ found := by
  have hhonest : HonestRun .nowhere stroll := by decide
  obtain ⟨h, hreplay, hfind⟩ := replay_find_tracked hhonest
  obtain ⟨found, hcollect, hnodup, hmem⟩ := hfind ⟨8, 0, 9, 7⟩ .all
  refine ⟨hhonest, h, hreplay, found, hcollect, hnodup, ?_, ?_⟩
  · exact (hmem _).mpr ⟨by decide, ⟨8, 6, 1⟩, by decide, by decide⟩
  · intro hfound
    have hclip : (recorded .nowhere stroll).clip ⟨8, 0, 9, 7⟩ ⟨.monster, 1⟩ = true :=
      Whereabouts.clip_iff.mpr ((hmem _).mp hfound).2
    exact absurd hclip (by decide)

end Atlas

end TileAtlas
