import TileAtlas.Proofs.Quadtree.Chart
import TileAtlas.Quadtree.Growth

/-!
Trees that differ in their leaves only.

Once the path of a leaf exists, every edit is a change to some leaves that
leaves the tables and the coordinates alone: wiring links, storing a tile,
letting a creature in. `Rewrites t t' g` says that `t'` is `t` with every leaf
changed by `g`. Such changes compose, and one that keeps coordinates keeps the
chart and every answer of `locate`.
-/

namespace TileAtlas

namespace Quadtree

variable {τ κ : Type} {t t' t'' : Quadtree τ κ}

/-- `t'` is `t` with each leaf changed by `g`. -/
structure Rewrites (t t' : Quadtree τ κ) (g : LeafId → Leaf τ κ → Leaf τ κ) : Prop where
  root : t'.root = t.root
  branches : t'.branches = t.branches
  size : t'.leaves.size = t.leaves.size
  leaf {id : LeafId} {l : Leaf τ κ} : t.leaf id = .ok l → t'.leaf id = .ok (g id l)

theorem lt_size_of_leaf {id : LeafId} {l : Leaf τ κ} (h : t.leaf id = .ok l) :
    id.index < t.leaves.size := by
  rw [leaf_eq_ok_iff] at h
  exact (Array.getElem?_eq_some_iff.mp h).choose

theorem exists_leaf_of_lt_size {id : LeafId} (h : id.index < t.leaves.size) :
    ∃ l, t.leaf id = .ok l :=
  ⟨t.leaves[id.index], by rw [leaf_eq_ok_iff, Array.getElem?_eq_getElem h]⟩

namespace Rewrites

variable {g g' : LeafId → Leaf τ κ → Leaf τ κ}

theorem refl (t : Quadtree τ κ) : Rewrites t t fun _ l => l := ⟨rfl, rfl, rfl, id⟩

theorem trans (h : Rewrites t t' g) (h' : Rewrites t' t'' g') :
    Rewrites t t'' fun id l => g' id (g id l) where
  root := h'.root.trans h.root
  branches := h'.branches.trans h.branches
  size := h'.size.trans h.size
  leaf hl := h'.leaf (h.leaf hl)

theorem leaf_inv (h : Rewrites t t' g) {id : LeafId} {l' : Leaf τ κ} (hl' : t'.leaf id = .ok l') :
    ∃ l, t.leaf id = .ok l ∧ l' = g id l := by
  have hlt := lt_size_of_leaf hl'
  rw [h.size] at hlt
  obtain ⟨l, hl⟩ := exists_leaf_of_lt_size hlt
  exact ⟨l, hl, Except.ok.inj (hl'.symm.trans (h.leaf hl))⟩

theorem node_eq (h : Rewrites t t' g) (table : Table) : t'.node table = t.node table := by
  cases table with
  | root => rw [node, node, h.root]
  | branch b => rw [node, node, h.branches]

theorem slot_eq (h : Rewrites t t' g) (table : Table) (q : Quadrant) :
    t'.slot table q = t.slot table q := by
  rw [slot, slot, h.node_eq]

theorem hasTable_iff (h : Rewrites t t' g) {table : Table} :
    t'.HasTable table ↔ t.HasTable table := by
  rw [HasTable, HasTable, h.node_eq]

theorem descend_eq (h : Rewrites t t' g) (table : Table) (path : List Quadrant) :
    t'.descend table path = t.descend table path := by
  induction path generalizing table with
  | nil => rfl
  | cons q rest ih => simp only [descend, h.node_eq, ih]

theorem locate_eq (h : Rewrites t t' g) (x y : UInt16) : t'.locate x y = t.locate x y :=
  h.descend_eq _ _

theorem locate?_eq (h : Rewrites t t' g) (x y : Option UInt16) :
    t'.locate? x y = t.locate? x y := by
  cases x with
  | none => rfl
  | some x =>
      cases y with
      | none => rfl
      | some y => exact h.locate_eq x y

theorem charts (h : Rewrites t t' g) {address : Table → List Quadrant}
    (hc : Charts t address) (hg : ∀ id l, (g id l).x = l.x ∧ (g id l).y = l.y) :
    Charts t' address where
  root := hc.root
  branch hslot := by
    rw [h.slot_eq] at hslot
    rw [h.hasTable_iff]
    exact hc.branch hslot
  leaf hslot := by
    rw [h.slot_eq] at hslot
    obtain ⟨l, hl, haddr⟩ := hc.leaf hslot
    refine ⟨g _ l, h.leaf hl, ?_⟩
    rw [Leaf.address, (hg _ l).1, (hg _ l).2]
    exact haddr
  parent hb := by
    rw [h.hasTable_iff] at hb
    simp only [h.slot_eq]
    exact hc.parent hb
  holder hl' := by
    obtain ⟨l, hl, -⟩ := h.leaf_inv hl'
    simp only [h.slot_eq]
    exact hc.holder hl
  aligned hl' := by
    obtain ⟨l, hl, rfl⟩ := h.leaf_inv hl'
    rw [(hg _ l).1, (hg _ l).2]
    exact hc.aligned hl

end Rewrites

/-! ### Changing one leaf -/

theorem modifyLeaf_ok {id : LeafId} (h : id.index < t.leaves.size) (f : Leaf τ κ → Leaf τ κ) :
    ∃ t', t.modifyLeaf id f = .ok t' ∧ Rewrites t t' fun j l => if j = id then f l else l := by
  refine ⟨{ t with leaves := t.leaves.modify id.index f }, ?_, rfl, rfl, Array.size_modify, ?_⟩
  · rw [modifyLeaf, if_pos h]
  · intro j l hl
    rw [leaf_eq_ok_iff] at hl ⊢
    rw [Array.getElem?_modify, hl]
    by_cases hj : j = id
    · rw [if_pos (congrArg LeafId.index hj.symm), if_pos hj, Option.map_some]
    · rw [if_neg (fun heq => hj (LeafId.index_inj.mp heq.symm)), if_neg hj]

theorem modifyLeaf?_ok {id : Option LeafId} (h : ∀ j ∈ id, j.index < t.leaves.size)
    (f : Leaf τ κ → Leaf τ κ) :
    ∃ t', t.modifyLeaf? id f = .ok t' ∧
      Rewrites t t' fun j l => if id = some j then f l else l := by
  cases id with
  | none => exact ⟨t, rfl, .refl t⟩
  | some i =>
      obtain ⟨t', ht', hr⟩ := modifyLeaf_ok (h i rfl) f
      refine ⟨t', ht', ?_⟩
      simpa only [Option.some.injEq, eq_comm] using hr

end Quadtree

end TileAtlas
