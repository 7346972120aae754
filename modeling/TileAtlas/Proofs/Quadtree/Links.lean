import TileAtlas.Proofs.Quadtree.Growth
import TileAtlas.Proofs.Quadtree.Rewriting

/-!
The links between neighbouring leaves.

A leaf is linked once, when it is made, and only with the leaves that exist
then. That is enough: of two neighbours one is made later, and it wires the
link in whichever direction it runs. `Linked` states the result without any
history, as an equation between the links of a leaf and what a descent from
the root finds at the next block.
-/

namespace TileAtlas

def Leaf.unlinked {τ κ : Type} (l : Leaf τ κ) : Leaf τ κ := (l.setSouth none).setEast none

theorem Leaf.roster_unlinked {τ κ : Type} (l : Leaf τ κ) : l.unlinked.roster = l.roster := rfl

namespace Quadtree

variable {τ κ : Type} {t t₀ t₁ t' : Quadtree τ κ}

/-- The links of every leaf lead to what is found at the next block to the
east and to the south, also where there is nothing to be found. -/
def Linked (t : Quadtree τ κ) : Prop :=
  ∀ {id : LeafId} {l : Leaf τ κ}, t.leaf id = .ok l →
    t.locate? (nextBlock? l.x) (some l.y) = .ok l.east ∧
      t.locate? (some l.x) (nextBlock? l.y) = .ok l.south

/-- A tree that can come about: it is charted, no branch is without a leaf
below it, and the links are right. -/
structure Sound (t : Quadtree τ κ) : Prop where
  charted : ∃ address, Charts t address ∧
    ∀ {b}, t.HasTable (.branch b) → ∃ id l, t.leaf id = .ok l ∧ address (.branch b) <+: l.address
  linked : t.Linked

theorem sound_empty : (∅ : Quadtree τ κ).Sound where
  charted := ⟨_, .empty, fun h => absurd (hasTable_branch_iff.mp h) (Nat.not_lt_zero _)⟩
  linked h := absurd h Charts.leaf_empty

namespace Sound

theorem locate_ok (hs : t.Sound) (x y : UInt16) : ∃ found, t.locate x y = .ok found := by
  obtain ⟨address, hc, -⟩ := hs.charted
  exact hc.locate_ok x y

theorem locate_eq_some_iff (hs : t.Sound) {x y : UInt16} {id : LeafId} :
    t.locate x y = .ok (some id) ↔
      ∃ l, t.leaf id = .ok l ∧ l.x = blockStart x ∧ l.y = blockStart y := by
  obtain ⟨address, hc, -⟩ := hs.charted
  exact hc.locate_eq_some_iff

theorem blockStart_eq_of_locate (hs : t.Sound) {x y x' y' : UInt16} {id : LeafId}
    (h : t.locate x y = .ok (some id)) (h' : t.locate x' y' = .ok (some id)) :
    blockStart x = blockStart x' ∧ blockStart y = blockStart y' := by
  obtain ⟨l, hl, hx, hy⟩ := hs.locate_eq_some_iff.mp h
  obtain ⟨l', hl', hx', hy'⟩ := hs.locate_eq_some_iff.mp h'
  obtain rfl := Except.ok.inj (hl.symm.trans hl')
  exact ⟨hx.symm.trans hx', hy.symm.trans hy'⟩

theorem aligned (hs : t.Sound) {id : LeafId} {l : Leaf τ κ} (h : t.leaf id = .ok l) :
    blockStart l.x = l.x ∧ blockStart l.y = l.y := by
  obtain ⟨address, hc, -⟩ := hs.charted
  exact hc.aligned h

theorem leaves_size_le (hs : t.Sound) : t.leaves.size ≤ 4 ^ treeDepth := by
  obtain ⟨address, hc, -⟩ := hs.charted
  exact hc.leaves_size_le

theorem leaves_size_lt (hs : t.Sound) : t.leaves.size < UInt32.size := by
  obtain ⟨address, hc, -⟩ := hs.charted
  exact hc.leaves_size_lt

theorem locate_corner (hs : t.Sound) {id : LeafId} {l : Leaf τ κ} (h : t.leaf id = .ok l) :
    t.locate l.x l.y = .ok (some id) :=
  hs.locate_eq_some_iff.mpr ⟨l, h, (hs.aligned h).1.symm, (hs.aligned h).2.symm⟩

end Sound

/-! ### Neighbours

The four neighbours of a new leaf are looked up by block starts, one of which
may lie beyond the edge. Of such a lookup two things matter: a leaf is found
exactly at its own corner, and a new leaf changes the answer at its own corner
only. -/

section Neighbours

variable {address address₀ address₁ : Table → List Quadrant} {fresh : Leaf τ κ}

theorem Charts.locate?_eq_some_iff (hc : Charts t address) {id : LeafId} {x y : Option UInt16}
    (hx : AtStart x) (hy : AtStart y) :
    t.locate? x y = .ok (some id) ↔ ∃ l, t.leaf id = .ok l ∧ x = some l.x ∧ y = some l.y := by
  cases x with
  | none => simp [locate?]
  | some x =>
      cases y with
      | none => simp [locate?]
      | some y =>
          rw [locate?, hc.locate_eq_some_iff, hx x rfl, hy y rfl]
          simp only [Option.some.injEq, eq_comm (a := x), eq_comm (a := y)]

theorem Charts.locate?_eq_some_iff_of_leaf (hc : Charts t address) {id : LeafId} {l : Leaf τ κ}
    (hl : t.leaf id = .ok l) {x y : Option UInt16} (hx : AtStart x) (hy : AtStart y) :
    t.locate? x y = .ok (some id) ↔ x = some l.x ∧ y = some l.y := by
  rw [hc.locate?_eq_some_iff hx hy]
  constructor
  · rintro ⟨l', hl', hxy⟩
    obtain rfl := Except.ok.inj (hl.symm.trans hl')
    exact hxy
  · intro hxy
    exact ⟨l, hl, hxy⟩

theorem Charts.locate?_ok (hc : Charts t address) (x y : Option UInt16) :
    ∃ found, t.locate? x y = .ok found := by
  cases x with
  | none => exact ⟨none, rfl⟩
  | some x =>
      cases y with
      | none => exact ⟨none, rfl⟩
      | some y => exact hc.locate_ok x y

theorem Charts.lt_size_of_locate? (hc : Charts t address) {x y : Option UInt16}
    {found : Option LeafId} (h : t.locate? x y = .ok found) :
    ∀ id ∈ found, id.index < t.leaves.size := by
  rintro id rfl
  cases x with
  | none => cases h
  | some x =>
      cases y with
      | none => cases h
      | some y =>
          obtain ⟨l, hl, -⟩ := hc.locate_eq_some_iff.mp h
          exact lt_size_of_leaf hl

theorem Charts.locate_of_push (hc₀ : Charts t₀ address₀) (hc₁ : Charts t₁ address₁)
    (hpush : t₁.leaves = t₀.leaves.push fresh) (x y : UInt16) :
    t₁.locate x y =
      if blockStart x = fresh.x ∧ blockStart y = fresh.y then .ok (some (.ofIndex t₀.leaves.size))
      else t₀.locate x y := by
  have hleaf : ∀ {id : LeafId} {l : Leaf τ κ}, t₁.leaf id = .ok l ↔
      t₀.leaf id = .ok l ∨ id = .ofIndex t₀.leaves.size ∧ l = fresh :=
    leaf_iff_of_push hpush hc₀.leaves_size_lt
  split
  · rename_i hblock
    exact hc₁.locate_eq_some_iff.mpr ⟨fresh, hleaf.mpr (.inr ⟨rfl, rfl⟩), hblock.1.symm,
      hblock.2.symm⟩
  · rename_i hblock
    -- Both trees answer, so it is enough that they name the same leaf, if any.
    obtain ⟨found₀, h₀⟩ := hc₀.locate_ok x y
    obtain ⟨found₁, h₁⟩ := hc₁.locate_ok x y
    rw [h₀, h₁]
    congr 1
    ext id
    have hsome₀ : t₀.locate x y = .ok (some id) ↔ found₀ = some id := by rw [h₀]; simp
    have hsome₁ : t₁.locate x y = .ok (some id) ↔ found₁ = some id := by rw [h₁]; simp
    rw [← hsome₀, ← hsome₁, hc₀.locate_eq_some_iff, hc₁.locate_eq_some_iff]
    constructor
    · rintro ⟨l, hl, hx, hy⟩
      rcases hleaf.mp hl with hl | ⟨-, rfl⟩
      · exact ⟨l, hl, hx, hy⟩
      · exact absurd ⟨hx.symm, hy.symm⟩ hblock
    · rintro ⟨l, hl, hxy⟩
      exact ⟨l, hleaf.mpr (.inl hl), hxy⟩

theorem Charts.locate?_of_push (hc₀ : Charts t₀ address₀) (hc₁ : Charts t₁ address₁)
    (hpush : t₁.leaves = t₀.leaves.push fresh) {x y : Option UInt16}
    (hx : AtStart x) (hy : AtStart y) :
    t₁.locate? x y =
      if x = some fresh.x ∧ y = some fresh.y then .ok (some (.ofIndex t₀.leaves.size))
      else t₀.locate? x y := by
  cases x with
  | none => simp [locate?]
  | some x =>
      cases y with
      | none => simp [locate?]
      | some y =>
          simp only [locate?, hc₀.locate_of_push hc₁ hpush, hx x rfl, hy y rfl,
            Option.some.injEq]

theorem Charts.locate?_of_push_of_ne (hc₀ : Charts t₀ address₀) (hc₁ : Charts t₁ address₁)
    (hpush : t₁.leaves = t₀.leaves.push fresh) {x y : Option UInt16}
    (hx : AtStart x) (hy : AtStart y)
    (hne : ¬ (x = some fresh.x ∧ y = some fresh.y)) : t₀.locate? x y = t₁.locate? x y := by
  rw [hc₀.locate?_of_push hc₁ hpush hx hy, if_neg hne]

end Neighbours

/-! ### Wiring a new leaf -/

/-- What wiring the leaf `id` with its neighbours does to the leaf `j`. -/
def wire (id : LeafId) (north west south east : Option LeafId) (j : LeafId) (l : Leaf τ κ) :
    Leaf τ κ :=
  let l := if north = some j then l.setSouth (some id) else l
  let l := if west = some j then l.setEast (some id) else l
  if j = id then (l.setSouth south).setEast east else l

section Wire

variable {id j : LeafId} {north west south east : Option LeafId} {l : Leaf τ κ}

theorem place_wire : (wire id north west south east j l).x = l.x ∧
    (wire id north west south east j l).y = l.y := by
  unfold wire
  split_ifs <;> exact ⟨rfl, rfl⟩

@[simp] theorem unlinked_wire :
    (wire id north west south east j l).unlinked = l.unlinked := by
  unfold wire
  split_ifs <;> rfl

theorem south_wire_self : (wire id north west south east id l).south = south := by
  unfold wire
  rw [if_pos rfl]
  rfl

theorem east_wire_self : (wire id north west south east id l).east = east := by
  unfold wire
  rw [if_pos rfl]
  rfl

theorem south_wire_of_ne (h : j ≠ id) :
    (wire id north west south east j l).south = if north = some j then some id else l.south := by
  unfold wire
  rw [if_neg h]
  split_ifs <;> rfl

theorem east_wire_of_ne (h : j ≠ id) :
    (wire id north west south east j l).east = if west = some j then some id else l.east := by
  unfold wire
  rw [if_neg h]
  split_ifs <;> rfl

end Wire

theorem Charts.connect_ok {address : Table → List Quadrant} (hc : Charts t address) {id : LeafId}
    {l : Leaf τ κ} (hl : t.leaf id = .ok l) :
    ∃ north west south east t',
      t.locate? (some l.x) (previousBlock? l.y) = .ok north ∧
      t.locate? (previousBlock? l.x) (some l.y) = .ok west ∧
      t.locate? (some l.x) (nextBlock? l.y) = .ok south ∧
      t.locate? (nextBlock? l.x) (some l.y) = .ok east ∧
      t.connect id = .ok ⟨t', id,
        [.leafCreated id l.x l.y north.isSome west.isSome south.isSome east.isSome]⟩ ∧
      Rewrites t t' (wire id north west south east) := by
  obtain ⟨north, hnorth⟩ := hc.locate?_ok (some l.x) (previousBlock? l.y)
  obtain ⟨west, hwest⟩ := hc.locate?_ok (previousBlock? l.x) (some l.y)
  obtain ⟨south, hsouth⟩ := hc.locate?_ok (some l.x) (nextBlock? l.y)
  obtain ⟨east, heast⟩ := hc.locate?_ok (nextBlock? l.x) (some l.y)
  obtain ⟨t₁, ht₁, hr₁⟩ := modifyLeaf?_ok (hc.lt_size_of_locate? hnorth) (·.setSouth (some id))
  obtain ⟨t₂, ht₂, hr₂⟩ := modifyLeaf?_ok
    (fun j hj => hr₁.size ▸ hc.lt_size_of_locate? hwest j hj) (·.setEast (some id))
  obtain ⟨t₃, ht₃, hr₃⟩ := modifyLeaf_ok
    (hr₂.size.trans hr₁.size ▸ lt_size_of_leaf hl) fun l => (l.setSouth south).setEast east
  refine ⟨north, west, south, east, t₃, hnorth, hwest, hsouth, heast, ?_,
    (hr₁.trans hr₂).trans hr₃⟩
  rw [connect, hl]
  simp only [bind, Except.bind, hnorth, hwest, hsouth, heast, ht₁, ht₂, ht₃]
  rfl

/-- A new leaf that is wired completes the links. An old leaf either has the
new one for its neighbour, which is when the new leaf found it on the opposite
side, or has the neighbour it had. -/
theorem linked_of_wire {address₀ address₁ : Table → List Quadrant} {fresh : Leaf τ κ}
    (hlinked : t₀.Linked) (hc₀ : Charts t₀ address₀) (hc₁ : Charts t₁ address₁)
    (hpush : t₁.leaves = t₀.leaves.push fresh) {north west south east : Option LeafId}
    (hnorth : t₁.locate? (some fresh.x) (previousBlock? fresh.y) = .ok north)
    (hwest : t₁.locate? (previousBlock? fresh.x) (some fresh.y) = .ok west)
    (hsouth : t₁.locate? (some fresh.x) (nextBlock? fresh.y) = .ok south)
    (heast : t₁.locate? (nextBlock? fresh.x) (some fresh.y) = .ok east)
    (hr : Rewrites t₁ t' (wire (.ofIndex t₀.leaves.size) north west south east)) :
    t'.Linked := by
  have hleaf : ∀ {id : LeafId} {l : Leaf τ κ}, t₁.leaf id = .ok l ↔
      t₀.leaf id = .ok l ∨ id = .ofIndex t₀.leaves.size ∧ l = fresh :=
    leaf_iff_of_push hpush hc₀.leaves_size_lt
  have hfresh := hc₁.aligned (hleaf.mpr (.inr ⟨rfl, rfl⟩))
  intro id l' hl'
  obtain ⟨l, hl, rfl⟩ := hr.leaf_inv hl'
  rw [place_wire.1, place_wire.2, hr.locate?_eq, hr.locate?_eq]
  have hplace := hc₁.aligned hl
  -- Of the old leaves only those that the new one has found are wired; the new
  -- one takes over what it has found.
  rcases hleaf.mp hl with hold | ⟨rfl, rfl⟩
  · have hid : id ≠ .ofIndex t₀.leaves.size := by
      rintro rfl
      exact hc₀.leaf_next_ne hold
    obtain ⟨hlinkEast, hlinkSouth⟩ := hlinked hold
    constructor
    · have hfound : west = some id ↔ nextBlock? l.x = some fresh.x ∧ some l.y = some fresh.y := by
        rw [← previousBlock?_eq_some_iff_nextBlock?, eq_comm (a := some l.y),
          ← hc₁.locate?_eq_some_iff_of_leaf hl (atStart_previousBlock? hfresh.1)
            (atStart_some hfresh.2), hwest, Except.ok.injEq]
      rw [hc₀.locate?_of_push hc₁ hpush (atStart_nextBlock? hplace.1) (atStart_some hplace.2),
        hlinkEast, east_wire_of_ne hid]
      simp only [hfound]
      split_ifs <;> rfl
    · have hfound : north = some id ↔ some l.x = some fresh.x ∧ nextBlock? l.y = some fresh.y := by
        rw [← previousBlock?_eq_some_iff_nextBlock?, eq_comm (a := some l.x),
          ← hc₁.locate?_eq_some_iff_of_leaf hl (atStart_some hfresh.1)
            (atStart_previousBlock? hfresh.2), hnorth, Except.ok.injEq]
      rw [hc₀.locate?_of_push hc₁ hpush (atStart_some hplace.1) (atStart_nextBlock? hplace.2),
        hlinkSouth, south_wire_of_ne hid]
      simp only [hfound]
      split_ifs <;> rfl
  · rw [east_wire_self, south_wire_self]
    exact ⟨heast, hsouth⟩

/-! ### Planting -/

theorem plant_of_some {x y : UInt16} {id : LeafId} (h : t.locate x y = .ok (some id)) :
    t.plant x y = .ok ⟨t, id, []⟩ := by
  rw [plant, grow_of_descend_some _ h]
  rfl

/-- `Planted t t' x y` says that `t'` is `t` with a leaf for the block of a
point that had none. -/
structure Planted (t t' : Quadtree τ κ) (x y : UInt16) : Prop where
  sound : t'.Sound
  size : t'.leaves.size = t.leaves.size + 1
  /-- The new leaf gets the next name and is found from its block. -/
  locate (x' y' : UInt16) : t'.locate x' y' =
    if blockStart x' = blockStart x ∧ blockStart y' = blockStart y then
      .ok (some (.ofIndex t.leaves.size))
    else t.locate x' y'
  /-- Apart from its links the new leaf is a fresh one. -/
  fresh : ∃ l, t'.leaf (.ofIndex t.leaves.size) = .ok l ∧
    l.unlinked = Leaf.ofPoint x y
  /-- Apart from their links the old leaves stay as they are. -/
  old {id : LeafId} {l : Leaf τ κ} : t.leaf id = .ok l →
    ∃ l', t'.leaf id = .ok l' ∧ l'.unlinked = l.unlinked

/-- A block without a leaf gets one, wired with the neighbours that the old
tree has. -/
theorem Sound.plant_of_none (hs : t.Sound) {x y : UInt16} (hnone : t.locate x y = .ok none) :
    ∃ north west south east t',
      t.locate? (some (blockStart x)) (previousBlock? (blockStart y)) = .ok north ∧
      t.locate? (previousBlock? (blockStart x)) (some (blockStart y)) = .ok west ∧
      t.locate? (some (blockStart x)) (nextBlock? (blockStart y)) = .ok south ∧
      t.locate? (nextBlock? (blockStart x)) (some (blockStart y)) = .ok east ∧
      t.plant x y = .ok ⟨t', .ofIndex t.leaves.size,
        [.leafCreated (.ofIndex t.leaves.size) (blockStart x) (blockStart y) north.isSome
          west.isSome south.isSome east.isSome]⟩ ∧
      Planted t t' x y := by
  obtain ⟨address, hc, htrim⟩ := hs.charted
  have hfresh : blockStart (Leaf.ofPoint x y : Leaf τ κ).x = (Leaf.ofPoint x y : Leaf τ κ).x ∧
      blockStart (Leaf.ofPoint x y : Leaf τ κ).y = (Leaf.ofPoint x y : Leaf τ κ).y :=
    ⟨blockStart_blockStart x, blockStart_blockStart y⟩
  have haddr : address .root ++ (Path.ofPoint x y).toList =
      (Leaf.ofPoint x y : Leaf τ κ).address := by
    rw [hc.root, List.nil_append, Leaf.address, Path.toList_ofPoint_eq_iff, hfresh.1, hfresh.2]
    exact ⟨rfl, rfl⟩
  obtain ⟨t₁, address₁, hgrow, hc₁, hpush, htables⟩ :=
    hc.grow_of_descend_none hasTable_root haddr hfresh hnone
  have hsize := hc.leaves_size_lt
  have hleaf : ∀ {id : LeafId} {l : Leaf τ κ}, t₁.leaf id = .ok l ↔
      t.leaf id = .ok l ∨ id = .ofIndex t.leaves.size ∧ l = .ofPoint x y :=
    leaf_iff_of_push hpush hsize
  obtain ⟨north, west, south, east, t', hnorth, hwest, hsouth, heast, hconnect, hr⟩ :=
    hc₁.connect_ok (hleaf.mpr (.inr ⟨rfl, rfl⟩))
  have hc' := hr.charts hc₁ fun _ _ => place_wire
  have hx : AtStart (some (blockStart x)) := atStart_some hfresh.1
  have hy : AtStart (some (blockStart y)) := atStart_some hfresh.2
  -- The new leaf is no neighbour of its own, so the old tree has the same neighbours.
  refine ⟨north, west, south, east, t',
    (hc.locate?_of_push_of_ne hc₁ hpush hx (atStart_previousBlock? hfresh.2)
      fun h => previousBlock?_ne_self _ h.2).trans hnorth,
    (hc.locate?_of_push_of_ne hc₁ hpush (atStart_previousBlock? hfresh.1) hy
      fun h => previousBlock?_ne_self _ h.1).trans hwest,
    (hc.locate?_of_push_of_ne hc₁ hpush hx (atStart_nextBlock? hfresh.2)
      fun h => nextBlock?_ne_self _ h.2).trans hsouth,
    (hc.locate?_of_push_of_ne hc₁ hpush (atStart_nextBlock? hfresh.1) hy
      fun h => nextBlock?_ne_self _ h.1).trans heast, ?_, ?_⟩
  · rw [plant, hgrow]
    exact hconnect
  refine { sound := ⟨⟨address₁, hc', ?_⟩, ?_⟩, size := ?_, locate := ?_, fresh := ?_, old := ?_ }
  · -- Below an old branch there is still an old leaf, and below a new one the new leaf.
    intro b hb
    rw [hr.hasTable_iff] at hb
    rcases htables _ hb with ⟨hb, heq⟩ | hprefix
    · obtain ⟨id, l, hl, hprefix⟩ := htrim hb
      refine ⟨id, _, hr.leaf (hleaf.mpr (.inl hl)), ?_⟩
      rw [Leaf.address, place_wire.1, place_wire.2, heq]
      exact hprefix
    · refine ⟨_, _, hr.leaf (hleaf.mpr (.inr ⟨rfl, rfl⟩)), ?_⟩
      rw [Leaf.address, place_wire.1, place_wire.2]
      exact hprefix
  · exact linked_of_wire hs.linked hc hc₁ hpush hnorth hwest hsouth heast hr
  · rw [hr.size, hpush, Array.size_push]
  · intro x' y'
    rw [hr.locate_eq, hc.locate_of_push hc₁ hpush]
    rfl
  · exact ⟨_, hr.leaf (hleaf.mpr (.inr ⟨rfl, rfl⟩)), unlinked_wire⟩
  · intro id l hl
    exact ⟨_, hr.leaf (hleaf.mpr (.inl hl)), unlinked_wire⟩

/-- Planting goes through, whether or not the block has a leaf, and afterwards
it has one. -/
theorem Sound.plant_ok (hs : t.Sound) (x y : UInt16) :
    ∃ p, t.plant x y = .ok p ∧ p.tree.Sound ∧ p.tree.locate x y = .ok (some p.leaf) ∧
      (p.tree = t ∨ t.locate x y = .ok none ∧ Planted t p.tree x y) := by
  obtain ⟨found, hfound⟩ := hs.locate_ok x y
  cases found with
  | some id => exact ⟨_, plant_of_some hfound, hs, hfound, .inl rfl⟩
  | none =>
      obtain ⟨_, _, _, _, t', -, -, -, -, hplant, hp⟩ := hs.plant_of_none hfound
      refine ⟨_, hplant, hp.sound, ?_, .inr ⟨hfound, hp⟩⟩
      rw [hp.locate, if_pos ⟨rfl, rfl⟩]

theorem Sound.level_of_plant (hs : t.Sound) {x y : UInt16} {p : Planting τ κ}
    (h : t.plant x y = .ok p) : ∀ event ∈ p.events, event.level = .trace := by
  obtain ⟨found, hfound⟩ := hs.locate_ok x y
  cases found with
  | some id =>
      obtain rfl := Except.ok.inj ((plant_of_some hfound).symm.trans h)
      exact nofun
  | none =>
      obtain ⟨_, _, _, _, t', -, -, -, -, hplant, -⟩ := hs.plant_of_none hfound
      obtain rfl := Except.ok.inj (hplant.symm.trans h)
      intro event hevent
      rw [List.mem_singleton.mp hevent]
      rfl

end Quadtree

end TileAtlas
