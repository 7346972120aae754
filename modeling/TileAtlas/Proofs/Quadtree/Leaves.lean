import Mathlib.Algebra.BigOperators.Group.List.Basic
import Mathlib.Algebra.Order.Ring.Nat
import Mathlib.Data.Finset.Card
import TileAtlas.Proofs.Quadtree.Contents

/-!
The leaves of a tree as a list.

A tree keeps its leaves in the order in which they were made. Which blocks
they lie in, in that order, is the list `corners`, and it is all that the
names of a sound tree depend on: a block is led to the name of its place in
the list. Planting adds a block at the end, unless it is there, and no other
change touches the list. Sums over the leaves can therefore be taken over the
corners, where a change to one block shows as a change to one summand.
-/

namespace TileAtlas

/-! ### Lists of blocks -/

section Settle

variable {blocks : List (UInt16 × UInt16)} {block : UInt16 × UInt16}

/-- A list of blocks with one more at its end, unless it has that block. -/
def settle (blocks : List (UInt16 × UInt16)) (block : UInt16 × UInt16) :
    List (UInt16 × UInt16) :=
  if block ∈ blocks then blocks else blocks ++ [block]

theorem settle_of_mem (h : block ∈ blocks) : settle blocks block = blocks := if_pos h

theorem settle_of_not_mem (h : block ∉ blocks) : settle blocks block = blocks ++ [block] :=
  if_neg h

theorem mem_settle_iff {b : UInt16 × UInt16} :
    b ∈ settle blocks block ↔ b ∈ blocks ∨ b = block := by
  by_cases h : block ∈ blocks
  · rw [settle_of_mem h, or_iff_left_of_imp]
    rintro rfl
    exact h
  · rw [settle_of_not_mem h, List.mem_append, List.mem_singleton]

theorem prefix_settle : blocks <+: settle blocks block := by
  rw [settle]
  split
  · exact List.prefix_rfl
  · exact List.prefix_append _ _

theorem nodup_settle (h : blocks.Nodup) : (settle blocks block).Nodup := by
  by_cases hmem : block ∈ blocks
  · rwa [settle_of_mem hmem]
  · rw [settle_of_not_mem hmem, List.nodup_append]
    refine ⟨h, List.nodup_singleton block, fun a ha b hb => ?_⟩
    rw [List.mem_singleton.mp hb]
    exact ne_of_mem_of_not_mem ha hmem

theorem eraseDups_concat : (blocks ++ [block]).eraseDups = settle blocks.eraseDups block := by
  rw [List.eraseDups_append]
  by_cases h : block ∈ blocks
  · rw [settle_of_mem (List.mem_eraseDups.mpr h)]
    simp [List.removeAll, h]
  · rw [settle_of_not_mem (mt List.mem_eraseDups.mp h)]
    simp [List.removeAll, h, List.eraseDups_cons]

theorem nodup_eraseDups (blocks : List (UInt16 × UInt16)) : blocks.eraseDups.Nodup := by
  induction blocks using List.reverseRecOn with
  | nil => exact List.nodup_nil
  | append_singleton blocks block ih =>
      rw [eraseDups_concat]
      exact nodup_settle ih

theorem length_eraseDups (blocks : List (UInt16 × UInt16)) :
    blocks.eraseDups.length = blocks.toFinset.card := by
  rw [← List.toFinset_card_of_nodup (nodup_eraseDups blocks)]
  congr 1
  ext b
  rw [List.mem_toFinset, List.mem_toFinset, List.mem_eraseDups]

theorem getElem?_eraseDups {before : List (UInt16 × UInt16)} (h : block ∉ before)
    (after : List (UInt16 × UInt16)) :
    (before ++ block :: after).eraseDups[before.toFinset.card]? = some block := by
  rw [← length_eraseDups, List.eraseDups_append, List.getElem?_append_right (Nat.le_refl _),
    Nat.sub_self]
  simp [List.removeAll, h, List.eraseDups_cons]

end Settle

/-- A sum over different things changes in one summand if the summands change at one thing. -/
theorem sum_map_add_of_ne {α : Type} [DecidableEq α] {s : List α} (hs : s.Nodup) {a : α}
    (ha : a ∈ s) {f g : α → Nat} (hfg : ∀ b ∈ s, b ≠ a → f b = g b) :
    (s.map f).sum + g a = (s.map g).sum + f a := by
  have hrest : (s.erase a).map f = (s.erase a).map g := by
    refine List.map_congr_left fun b hb => hfg b (List.mem_of_mem_erase hb) ?_
    exact (hs.mem_erase_iff.mp hb).1
  rw [← List.sum_map_erase f ha, ← List.sum_map_erase g ha, hrest]
  omega

theorem Leaf.place_eq_of_unlinked_eq {τ κ : Type} {l m : Leaf τ κ}
    (h : l.unlinked = m.unlinked) : l.x = m.x ∧ l.y = m.y := by
  have hx : l.unlinked.x = m.unlinked.x := congrArg Leaf.x h
  have hy : l.unlinked.y = m.unlinked.y := congrArg Leaf.y h
  exact ⟨hx, hy⟩

namespace Quadtree

variable {τ κ : Type} {t t' : Quadtree τ κ} {x y : UInt16} {id : LeafId} {l : Leaf τ κ}

/-! ### Corners -/

/-- The corners of the leaves, in the order in which the leaves were made. -/
def corners (t : Quadtree τ κ) : List (UInt16 × UInt16) :=
  t.leaves.toList.map fun l => (l.x, l.y)

@[simp] theorem length_corners : t.corners.length = t.leaves.size := by
  simp [corners]

theorem getElem?_corners (i : Nat) :
    t.corners[i]? = t.leaves[i]?.map fun l => (l.x, l.y) := by
  simp [corners]

theorem corner_of_leaf (h : t.leaf id = .ok l) : t.corners[id.index]? = some (l.x, l.y) := by
  rw [getElem?_corners, leaf_eq_ok_iff.mp h, Option.map_some]

namespace Sound

theorem index_ofIndex (hs : t.Sound) {i : Nat} (h : i < t.leaves.size) :
    (LeafId.ofIndex i).index = i :=
  LeafId.index_ofIndex (Nat.lt_trans h hs.leaves_size_lt)

theorem leaf_ofIndex (hs : t.Sound) {i : Nat} (h : t.leaves[i]? = some l) :
    t.leaf (.ofIndex i) = .ok l := by
  rw [leaf_eq_ok_iff, hs.index_ofIndex (Array.getElem?_eq_some_iff.mp h).choose, h]

theorem exists_leaf_of_mem_leaves (hs : t.Sound) (h : l ∈ t.leaves.toList) :
    ∃ id, t.leaf id = .ok l := by
  obtain ⟨i, hi⟩ := List.mem_iff_getElem?.mp h
  rw [Array.getElem?_toList] at hi
  exact ⟨_, hs.leaf_ofIndex hi⟩

/-- A block is led to the name of its place among the corners. -/
theorem locate_eq_some_iff_corners (hs : t.Sound) :
    t.locate x y = .ok (some id) ↔ t.corners[id.index]? = some (blockStart x, blockStart y) := by
  rw [hs.locate_eq_some_iff, getElem?_corners, Option.map_eq_some_iff]
  simp only [leaf_eq_ok_iff, Prod.mk.injEq]

theorem mem_corners_iff (hs : t.Sound) :
    (blockStart x, blockStart y) ∈ t.corners ↔ ∃ id, t.locate x y = .ok (some id) := by
  simp only [hs.locate_eq_some_iff_corners, List.mem_iff_getElem?]
  constructor
  · rintro ⟨i, hi⟩
    have hsize : i < t.leaves.size := by
      rw [← length_corners]
      exact (List.getElem?_eq_some_iff.mp hi).choose
    exact ⟨.ofIndex i, by rw [hs.index_ofIndex hsize, hi]⟩
  · rintro ⟨id, hid⟩
    exact ⟨id.index, hid⟩

theorem locate_of_not_mem_corners (hs : t.Sound)
    (h : (blockStart x, blockStart y) ∉ t.corners) : t.locate x y = .ok none := by
  obtain ⟨found, hfound⟩ := hs.locate_ok x y
  cases found with
  | none => exact hfound
  | some id => exact absurd (hs.mem_corners_iff.mpr ⟨id, hfound⟩) h

theorem blockStart_of_mem_corners (hs : t.Sound) {c : UInt16 × UInt16} (h : c ∈ t.corners) :
    (blockStart c.1, blockStart c.2) = c := by
  obtain ⟨l, hl, rfl⟩ := List.mem_map.mp h
  obtain ⟨id, hid⟩ := hs.exists_leaf_of_mem_leaves hl
  obtain ⟨hx, hy⟩ := hs.aligned hid
  exact Prod.ext hx hy

theorem nodup_corners (hs : t.Sound) : t.corners.Nodup := by
  have hfound : ∀ {i c}, t.corners[i]? = some c →
      i < t.leaves.size ∧ t.locate c.1 c.2 = .ok (some (.ofIndex i)) := by
    intro i c hi
    have hsize : i < t.leaves.size := by
      rw [← length_corners]
      exact (List.getElem?_eq_some_iff.mp hi).choose
    rw [hs.locate_eq_some_iff_corners, hs.index_ofIndex hsize, hi,
      hs.blockStart_of_mem_corners (List.mem_of_getElem? hi)]
    exact ⟨hsize, rfl⟩
  rw [List.nodup_iff_getElem?_ne_getElem?]
  intro i j hij hj heq
  -- Both names would be found from the corner that they share.
  obtain ⟨hjsize, hlocj⟩ := hfound (List.getElem?_eq_getElem hj)
  obtain ⟨hisize, hloci⟩ := hfound (heq.trans (List.getElem?_eq_getElem hj))
  rw [hlocj, Except.ok.injEq, Option.some.injEq, ← LeafId.index_inj, hs.index_ofIndex hjsize,
    hs.index_ofIndex hisize] at hloci
  exact Nat.ne_of_gt hij hloci

/-- Where trees of the same size lead to the same names, they have the same corners. -/
theorem corners_eq_of_locate_eq (hs : t.Sound) (hs' : t'.Sound)
    (hsize : t'.leaves.size = t.leaves.size) (hloc : ∀ u v, t'.locate u v = t.locate u v) :
    t'.corners = t.corners := by
  apply List.ext_getElem
  · rw [length_corners, length_corners, hsize]
  intro i hi' hi
  have hi'' : i < t.leaves.size := by rwa [length_corners] at hi
  have hget := List.getElem?_eq_getElem hi
  have hc := hs.blockStart_of_mem_corners (List.mem_of_getElem? hget)
  have hfound : t.locate t.corners[i].1 t.corners[i].2 = .ok (some (.ofIndex i)) := by
    rw [hs.locate_eq_some_iff_corners, hs.index_ofIndex hi'', hget, hc]
  rw [← hloc, hs'.locate_eq_some_iff_corners, hs.index_ofIndex hi'', hc,
    List.getElem?_eq_getElem hi', Option.some.injEq] at hfound
  exact hfound

/-- Without their links the leaves are the bodies of their blocks. -/
theorem map_unlinked_leaves (hs : t.Sound) :
    t.leaves.toList.map Leaf.unlinked = t.corners.map fun c => t.body c.1 c.2 := by
  rw [corners, List.map_map]
  refine List.map_congr_left fun l hl => ?_
  obtain ⟨id, hid⟩ := hs.exists_leaf_of_mem_leaves hl
  exact (body_of_some (hs.locate_corner hid) hid).symm

end Sound

/-! ### Leaves with their names -/

theorem map_snd_namedLeaves : t.namedLeaves.map Prod.snd = t.leaves.toList := by
  rw [namedLeaves, List.map_map]
  exact List.zipIdx_map_fst 0 t.leaves.toList

namespace Sound

theorem map_index_namedLeaves (hs : t.Sound) :
    t.namedLeaves.map (fun e => e.1.index) = List.range t.leaves.size := by
  rw [namedLeaves, List.map_map, ← Array.length_toList, List.range_eq_range',
    ← List.zipIdx_map_snd 0 t.leaves.toList]
  refine List.map_congr_left fun e he => ?_
  have hlt := (List.mem_zipIdx he).2.1
  rw [Nat.zero_add, Array.length_toList] at hlt
  exact hs.index_ofIndex hlt

theorem nodup_namedLeaves (hs : t.Sound) : t.namedLeaves.Nodup := by
  refine List.Nodup.of_map (fun e => e.1.index) ?_
  rw [hs.map_index_namedLeaves]
  exact List.nodup_range

theorem mem_namedLeaves_iff (hs : t.Sound) : (id, l) ∈ t.namedLeaves ↔ t.leaf id = .ok l := by
  rw [namedLeaves, List.mem_map]
  constructor
  · rintro ⟨⟨m, i⟩, hmem, heq⟩
    obtain ⟨rfl, rfl⟩ := Prod.mk.inj heq
    have hget := List.mem_zipIdx_iff_getElem?.mp hmem
    rw [Array.getElem?_toList] at hget
    exact hs.leaf_ofIndex hget
  · intro hl
    refine ⟨(l, id.index), List.mem_zipIdx_iff_getElem?.mpr ?_, ?_⟩
    · rw [Array.getElem?_toList]
      exact leaf_eq_ok_iff.mp hl
    · have hname : LeafId.ofIndex id.index = id :=
        LeafId.index_inj.mp (hs.index_ofIndex (lt_size_of_leaf hl))
      exact Prod.ext hname rfl

end Sound

/-! ### Longer lists

A list of corners that begins like another one says all that the other says
about blocks and names. -/

namespace Sound

theorem locate_of_longer (hs : t.Sound) (hs' : t'.Sound) (hlonger : t.corners <+: t'.corners)
    (h : t.locate x y = .ok (some id)) : t'.locate x y = .ok (some id) := by
  rw [hs.locate_eq_some_iff_corners] at h
  obtain ⟨hlt, hget⟩ := List.getElem?_eq_some_iff.mp h
  rw [hs'.locate_eq_some_iff_corners, List.prefix_iff_getElem?.mp hlonger _ hlt, hget]

theorem locate?_of_longer (hs : t.Sound) (hs' : t'.Sound) (hlonger : t.corners <+: t'.corners)
    {x y : Option UInt16} (h : t.locate? x y = .ok (some id)) :
    t'.locate? x y = .ok (some id) := by
  cases x with
  | none => cases h
  | some x =>
      cases y with
      | none => cases h
      | some y => exact hs.locate_of_longer hs' hlonger h

theorem leaf_of_longer (hs : t.Sound) (hs' : t'.Sound) (hlonger : t.corners <+: t'.corners)
    (hl : t.leaf id = .ok l) : ∃ m, t'.leaf id = .ok m ∧ m.x = l.x ∧ m.y = l.y := by
  have hfound := hs.locate_of_longer hs' hlonger (hs.locate_corner hl)
  obtain ⟨m, hm, hx, hy⟩ := hs'.locate_eq_some_iff.mp hfound
  exact ⟨m, hm, hx.trans (hs.aligned hl).1, hy.trans (hs.aligned hl).2⟩

end Sound

/-! ### What changes do to the corners -/

theorem Amends.corners_eq (hs : t.Sound) {p : Location} {f : Leaf τ κ → Leaf τ κ}
    (h : Amends t t' p f) : t'.corners = t.corners :=
  hs.corners_eq_of_locate_eq h.sound h.size h.locate

theorem Planted.corners_eq (hs : t.Sound) (h : Planted t t' x y) :
    t'.corners = t.corners ++ [(blockStart x, blockStart y)] := by
  apply List.ext_getElem?
  intro i
  by_cases hold : i < t.leaves.size
  · obtain ⟨l', hl', hsame⟩ := h.old (hs.leaf_ofIndex (Array.getElem?_eq_getElem hold))
    obtain ⟨hx, hy⟩ := Leaf.place_eq_of_unlinked_eq hsame
    have hcorner := corner_of_leaf hl'
    rw [hs.index_ofIndex hold, hx, hy] at hcorner
    rw [hcorner, List.getElem?_append_left (by rwa [length_corners]), getElem?_corners,
      Array.getElem?_eq_getElem hold, Option.map_some]
  rw [List.getElem?_append_right (by rw [length_corners]; omega), length_corners]
  by_cases hnew : i = t.leaves.size
  · obtain ⟨l, hl, hfresh⟩ := h.fresh
    have hx : l.x = blockStart x := congrArg Leaf.x hfresh
    have hy : l.y = blockStart y := congrArg Leaf.y hfresh
    have hcorner := corner_of_leaf hl
    rw [LeafId.index_ofIndex hs.leaves_size_lt, hx, hy] at hcorner
    rw [hnew, hcorner, Nat.sub_self]
    rfl
  · rw [List.getElem?_eq_none (by rw [length_corners, h.size]; omega),
      List.getElem?_eq_none (by rw [List.length_singleton]; omega)]

theorem Sound.corners_plant (hs : t.Sound) {p : Planting τ κ} (h : t.plant x y = .ok p) :
    p.tree.corners = settle t.corners (blockStart x, blockStart y) := by
  by_cases hmem : (blockStart x, blockStart y) ∈ t.corners
  · obtain ⟨id, hid⟩ := hs.mem_corners_iff.mp hmem
    obtain rfl := Except.ok.inj ((plant_of_some hid).symm.trans h)
    rw [settle_of_mem hmem]
  · obtain ⟨_, _, _, _, t', -, -, -, -, hplant, hp⟩ :=
      hs.plant_of_none (hs.locate_of_not_mem_corners hmem)
    obtain rfl := Except.ok.inj (hplant.symm.trans h)
    rw [settle_of_not_mem hmem]
    exact hp.corners_eq hs

/-! ### Sums over the leaves -/

def total (f : Leaf τ κ → Nat) (t : Quadtree τ κ) : Nat := (t.leaves.toList.map f).sum

variable {f : Leaf τ κ → Nat}

/-- A number that links have no part in can be read off the bodies. -/
theorem Sound.total_eq (hs : t.Sound) (hf : ∀ l, f l.unlinked = f l) :
    t.total f = (t.corners.map fun c => f (t.body c.1 c.2)).sum := by
  have hmap := congrArg (List.map f) hs.map_unlinked_leaves
  simp only [List.map_map, Function.comp_def, hf] at hmap
  rw [total, hmap]

theorem Amends.total_add (hs : t.Sound) {p : Location} {g : Leaf τ κ → Leaf τ κ}
    (h : Amends t t' p g) (hf : ∀ l, f l.unlinked = f l) :
    t'.total f + f (t.body p.x p.y) = t.total f + f (t'.body p.x p.y) := by
  have hrest : ∀ c, c ∈ t.corners → c ≠ (blockStart p.x, blockStart p.y) →
      t'.body c.1 c.2 = t.body c.1 c.2 := by
    intro c hc hne
    rw [h.body, if_neg]
    intro hblock
    rw [← hs.blockStart_of_mem_corners hc, ← hblock.1, ← hblock.2] at hne
    exact hne rfl
  rw [hs.total_eq hf, h.sound.total_eq hf, h.corners_eq hs]
  by_cases hmem : (blockStart p.x, blockStart p.y) ∈ t.corners
  · have hbody : t.body p.x p.y = t.body (blockStart p.x) (blockStart p.y) :=
      body_congr (blockStart_blockStart _).symm (blockStart_blockStart _).symm
    have hbody' : t'.body p.x p.y = t'.body (blockStart p.x) (blockStart p.y) :=
      body_congr (blockStart_blockStart _).symm (blockStart_blockStart _).symm
    rw [hbody, hbody']
    exact sum_map_add_of_ne (f := fun c => f (t'.body c.1 c.2)) hs.nodup_corners hmem
      fun c hc hne => congrArg f (hrest c hc hne)
  · -- A block without a leaf has the same body before and after.
    have hnone := hs.locate_of_not_mem_corners hmem
    rw [body_of_none hnone, body_of_none ((h.locate _ _).trans hnone),
      List.map_congr_left fun c hc => ?_]
    rw [hrest c hc (ne_of_mem_of_not_mem hc hmem)]

theorem Sound.total_plant (hs : t.Sound) {p : Planting τ κ} (h : t.plant x y = .ok p)
    (hf : ∀ l, f l.unlinked = f l) (hfresh : ∀ x y, f (.ofPoint x y) = 0) :
    p.tree.total f = t.total f := by
  obtain ⟨q, hq, hrooted⟩ := hs.plant_rooted x y
  obtain rfl := Except.ok.inj (hq.symm.trans h)
  rw [hs.total_eq hf, hrooted.sound.total_eq hf, hs.corners_plant h]
  simp only [hrooted.body]
  by_cases hmem : (blockStart x, blockStart y) ∈ t.corners
  · rw [settle_of_mem hmem]
  · have hbody : t.body (blockStart x) (blockStart y) = .ofPoint x y :=
      (body_congr (blockStart_blockStart _) (blockStart_blockStart _)).trans
        (body_of_none (hs.locate_of_not_mem_corners hmem))
    rw [settle_of_not_mem hmem, List.map_append, List.sum_append, List.map_singleton,
      List.sum_singleton, hbody, hfresh, Nat.add_zero]

end Quadtree

end TileAtlas
