import TileAtlas.Proofs.Quadtree.Links

/-!
What a tree says about each block.

`body` reads a block as a leaf without links, and a block that has no leaf as
a fresh one. In these terms the edits do what they are meant to do and nothing
else: planting a leaf changes no body at all, and an edit of one leaf changes
the body of one block. Names of leaves, branches and links do not show.
-/

namespace TileAtlas

def Location.InBlock (p : Location) (u v : UInt16) : Prop :=
  blockStart p.x = blockStart u ∧ blockStart p.y = blockStart v

instance (p : Location) (u v : UInt16) : Decidable (p.InBlock u v) :=
  inferInstanceAs (Decidable (_ ∧ _))

def Leaf.frame {τ κ : Type} (l : Leaf τ κ) : (UInt16 × UInt16) × Option LeafId × Option LeafId :=
  ((l.x, l.y), l.south, l.east)

namespace Quadtree

variable {τ κ : Type} {t t' : Quadtree τ κ}

def covers (t : Quadtree τ κ) (x y : UInt16) : Bool :=
  match t.locate x y with
  | .ok found => found.isSome
  | .error _ => false

theorem covers_of_locate {x y : UInt16} {found : Option LeafId} (h : t.locate x y = .ok found) :
    t.covers x y = found.isSome := by
  rw [covers, h]

def lookup? (t : Quadtree τ κ) (x y : UInt16) : Option (LeafId × Leaf τ κ) :=
  match t.locate x y with
  | .ok (some id) =>
    match t.leaf id with
    | .ok l => some (id, l)
    | .error _ => none
  | _ => none

theorem lookup?_of_some {x y : UInt16} {id : LeafId} {l : Leaf τ κ}
    (h : t.locate x y = .ok (some id)) (hl : t.leaf id = .ok l) : t.lookup? x y = some (id, l) := by
  rw [lookup?, h]
  dsimp only
  rw [hl]

theorem lookup?_of_none {x y : UInt16} (h : t.locate x y = .ok none) : t.lookup? x y = none := by
  rw [lookup?, h]

theorem Sound.locate_eq (hs : t.Sound) (x y : UInt16) :
    t.locate x y = .ok ((t.lookup? x y).map Prod.fst) := by
  obtain ⟨found, hfound⟩ := hs.locate_ok x y
  cases found with
  | none => rw [hfound, lookup?_of_none hfound, Option.map_none]
  | some id =>
      obtain ⟨l, hl, -⟩ := hs.locate_eq_some_iff.mp hfound
      rw [hfound, lookup?_of_some hfound hl, Option.map_some]

theorem Sound.lookup?_eq_some_iff (hs : t.Sound) {x y : UInt16} {id : LeafId} {l : Leaf τ κ} :
    t.lookup? x y = some (id, l) ↔
      t.leaf id = .ok l ∧ l.x = blockStart x ∧ l.y = blockStart y := by
  constructor
  · intro h
    have hfound : t.locate x y = .ok (some id) := by rw [hs.locate_eq, h, Option.map_some]
    obtain ⟨l', hl', hcorner⟩ := hs.locate_eq_some_iff.mp hfound
    obtain rfl : l' = l := by
      rw [lookup?_of_some hfound hl'] at h
      exact (Prod.mk.inj (Option.some.inj h)).2
    exact ⟨hl', hcorner⟩
  · rintro ⟨hl, hcorner⟩
    exact lookup?_of_some (hs.locate_eq_some_iff.mpr ⟨l, hl, hcorner⟩) hl

/-- What is kept of the block of a point, apart from links. -/
def body (t : Quadtree τ κ) (x y : UInt16) : Leaf τ κ :=
  match t.lookup? x y with
  | some (_, l) => l.unlinked
  | none => .ofPoint x y

theorem body_of_some {x y : UInt16} {id : LeafId} {l : Leaf τ κ}
    (h : t.locate x y = .ok (some id)) (hl : t.leaf id = .ok l) : t.body x y = l.unlinked := by
  rw [body, lookup?_of_some h hl]

theorem body_of_none {x y : UInt16} (h : t.locate x y = .ok none) :
    t.body x y = .ofPoint x y := by
  rw [body, lookup?_of_none h]

theorem body_empty (x y : UInt16) : (∅ : Quadtree τ κ).body x y = .ofPoint x y := by
  obtain ⟨found, hfound⟩ := (sound_empty : (∅ : Quadtree τ κ).Sound).locate_ok x y
  cases found with
  | none => exact body_of_none hfound
  | some id =>
      obtain ⟨l, hl, -⟩ := sound_empty.locate_eq_some_iff.mp hfound
      exact absurd hl Charts.leaf_empty

theorem locate_congr {x y x' y' : UInt16} (hx : blockStart x = blockStart x')
    (hy : blockStart y = blockStart y') : t.locate x y = t.locate x' y' := by
  rw [locate, locate, Path.toList_ofPoint_eq_iff.mpr ⟨hx, hy⟩]

theorem body_congr {x y x' y' : UInt16} (hx : blockStart x = blockStart x')
    (hy : blockStart y = blockStart y') : t.body x y = t.body x' y' := by
  have hpoint : (Leaf.ofPoint x y : Leaf τ κ) = .ofPoint x' y' := by
    rw [Leaf.ofPoint, Leaf.ofPoint, hx, hy]
  rw [body, body, lookup?, lookup?, locate_congr hx hy, hpoint]

theorem Sound.exists_leaf_of_body_ne (hs : t.Sound) {x y : UInt16}
    (h : t.body x y ≠ .ofPoint x y) : ∃ id, t.locate x y = .ok (some id) := by
  obtain ⟨found, hfound⟩ := hs.locate_ok x y
  cases found with
  | none => exact absurd (body_of_none hfound) h
  | some id => exact ⟨id, hfound⟩

theorem Sound.exists_leaf_of_mem (hs : t.Sound) {x y : UInt16} {c : κ}
    (hc : c ∈ (t.body x y).roster.creatures.toList) :
    ∃ id l, t.locate x y = .ok (some id) ∧ t.leaf id = .ok l ∧ l.x = blockStart x ∧
      l.y = blockStart y ∧ t.body x y = l.unlinked := by
  have hbody : t.body x y ≠ .ofPoint x y := by
    intro hbody
    rw [hbody] at hc
    cases hc
  obtain ⟨id, hid⟩ := hs.exists_leaf_of_body_ne hbody
  obtain ⟨l, hl, hx, hy⟩ := hs.locate_eq_some_iff.mp hid
  exact ⟨id, l, hid, hl, hx, hy, body_of_some hid hl⟩

theorem Planted.body_eq {x y : UInt16} (hs : t.Sound) (hnone : t.locate x y = .ok none)
    (hp : Planted t t' x y) (x' y' : UInt16) : t'.body x' y' = t.body x' y' := by
  have hloc := hp.locate x' y'
  split at hloc
  · rename_i hblock
    obtain ⟨l, hl, hfresh⟩ := hp.fresh
    rw [body_of_some hloc hl, hfresh, body_congr hblock.1 hblock.2, body_of_none hnone]
  · obtain ⟨found, hfound⟩ := hs.locate_ok x' y'
    cases found with
    | none => rw [body_of_none hfound, body_of_none (hloc.trans hfound)]
    | some id =>
        obtain ⟨l, hl, -⟩ := hs.locate_eq_some_iff.mp hfound
        obtain ⟨l', hl', hsame⟩ := hp.old hl
        rw [body_of_some hfound hl, body_of_some (hloc.trans hfound) hl', hsame]

theorem Sound.of_rewrites {g : LeafId → Leaf τ κ → Leaf τ κ} (hs : t.Sound)
    (hr : Rewrites t t' g) (hg : ∀ id l, (g id l).frame = l.frame) : t'.Sound := by
  obtain ⟨address, hc, htrim⟩ := hs.charted
  have hplace : ∀ id l, (g id l).x = l.x ∧ (g id l).y = l.y := by
    intro id l
    exact Prod.mk.inj (Prod.mk.inj (hg id l)).1
  refine ⟨⟨address, hr.charts hc hplace, ?_⟩, ?_⟩
  · intro b hb
    rw [hr.hasTable_iff] at hb
    obtain ⟨id, l, hl, hprefix⟩ := htrim hb
    refine ⟨id, _, hr.leaf hl, ?_⟩
    rw [Leaf.address, (hplace id l).1, (hplace id l).2]
    exact hprefix
  · intro id l' hl'
    obtain ⟨l, hl, rfl⟩ := hr.leaf_inv hl'
    obtain ⟨hsouth, heast⟩ := Prod.mk.inj (Prod.mk.inj (hg id l)).2
    rw [hr.locate?_eq, hr.locate?_eq, (hplace id l).1, (hplace id l).2, heast, hsouth]
    exact hs.linked hl

/-! ### Changes to one block -/

/-- `Amends t t' p f` says that `t'` is `t` with the body of the block of `p`
changed by `f`, and nothing else. -/
structure Amends (t t' : Quadtree τ κ) (p : Location) (f : Leaf τ κ → Leaf τ κ) : Prop where
  sound : t'.Sound
  size : t'.leaves.size = t.leaves.size
  locate (u v : UInt16) : t'.locate u v = t.locate u v
  body (u v : UInt16) : t'.body u v = if p.InBlock u v then f (t.body u v) else t.body u v

theorem Amends.congr {p : Location} {f g : Leaf τ κ → Leaf τ κ} (h : Amends t t' p f)
    (hfg : f (t.body p.x p.y) = g (t.body p.x p.y)) : Amends t t' p g := by
  refine ⟨h.sound, h.size, h.locate, fun u v => ?_⟩
  rw [h.body]
  split
  · rename_i hblock
    rw [← body_congr hblock.1 hblock.2, hfg]
  · rfl

theorem Amends.refl (hs : t.Sound) {p : Location} {f : Leaf τ κ → Leaf τ κ}
    (h : f (t.body p.x p.y) = t.body p.x p.y) : Amends t t p f := by
  refine Amends.congr (f := id) ⟨hs, rfl, fun _ _ => rfl, fun u v => ?_⟩ h.symm
  exact (ite_self _).symm

theorem Sound.modifyLeaf_ok (hs : t.Sound) {p : Location} {id : LeafId}
    (hid : t.locate p.x p.y = .ok (some id)) {f : Leaf τ κ → Leaf τ κ}
    (hframe : ∀ l, (f l).frame = l.frame) (hbody : ∀ l, (f l).unlinked = f l.unlinked) :
    ∃ t', t.modifyLeaf id f = .ok t' ∧ Amends t t' p f := by
  obtain ⟨l, hl, hx, hy⟩ := hs.locate_eq_some_iff.mp hid
  obtain ⟨t', ht', hr⟩ := Quadtree.modifyLeaf_ok (lt_size_of_leaf hl) f
  have hs' : t'.Sound := hs.of_rewrites hr fun j k => by
    split_ifs
    · exact hframe k
    · rfl
  refine ⟨t', ht', hs', hr.size, hr.locate_eq, fun u v => ?_⟩
  split_ifs with hblock
  · have hu : t.locate u v = .ok (some id) :=
      (locate_congr hblock.1.symm hblock.2.symm).trans hid
    rw [body_of_some ((hr.locate_eq u v).trans hu) (hr.leaf hl), body_of_some hu hl, if_pos rfl,
      hbody]
  · obtain ⟨found, hfound⟩ := hs.locate_ok u v
    cases found with
    | none => rw [body_of_none hfound, body_of_none ((hr.locate_eq u v).trans hfound)]
    | some j =>
        obtain ⟨k, hk, hku, hkv⟩ := hs.locate_eq_some_iff.mp hfound
        have hj : j ≠ id := by
          rintro rfl
          obtain rfl := Except.ok.inj (hl.symm.trans hk)
          exact hblock ⟨hx.symm.trans hku, hy.symm.trans hkv⟩
        rw [body_of_some hfound hk, body_of_some ((hr.locate_eq u v).trans hfound) (hr.leaf hk),
          if_neg hj]

/-! ### Planting -/

/-- What planting comes to, whether or not the block had a leaf before: it has
one now, the leaves that were there keep their names, and no body changes. -/
structure Rooted (t : Quadtree τ κ) (x y : UInt16) (p : Planting τ κ) : Prop where
  sound : p.tree.Sound
  locate : p.tree.locate x y = .ok (some p.leaf)
  keeps {u v : UInt16} {id : LeafId} :
    t.locate u v = .ok (some id) → p.tree.locate u v = .ok (some id)
  body (u v : UInt16) : p.tree.body u v = t.body u v

theorem Sound.plant_rooted (hs : t.Sound) (x y : UInt16) :
    ∃ p, t.plant x y = .ok p ∧ Rooted t x y p := by
  obtain ⟨p, hplant, hs', hlocate, hsame | ⟨hnone, hp⟩⟩ := hs.plant_ok x y
  · refine ⟨p, hplant, hs', hlocate, fun h => ?_, fun u v => ?_⟩
    · rw [hsame]
      exact h
    · rw [hsame]
  · refine ⟨p, hplant, hs', hlocate, fun {u v id} h => ?_, hp.body_eq hs hnone⟩
    rw [hp.locate, if_neg, h]
    rintro ⟨hu, hv⟩
    rw [locate_congr hu hv, hnone] at h
    cases h

end Quadtree

end TileAtlas
