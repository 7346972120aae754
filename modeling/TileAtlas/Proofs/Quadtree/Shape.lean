import TileAtlas.Proofs.Quadtree.Links

/-!
The shape of a tree.

Slots do not say how deep they are, and a slot may hold the name of anything.
Yet a descent relies on branches above and leaves at the bottom, and growth
relies on slots that are not shared. `Proper` says that this is so, without
any reference to points: depths are counted in slots from the root, and what
leads where is read off the slots alone. It follows from the chart of the tree,
where the depth of a table is the length of its address.
-/

namespace TileAtlas

namespace Quadtree

variable {τ κ : Type} {t : Quadtree τ κ} {table table' : Table} {q q' : Quadrant} {n : Nat}

/-- A table is found at a depth if slots lead to it from the root, which is at
depth one. -/
inductive AtDepth (t : Quadtree τ κ) : Table → Nat → Prop where
  | root : AtDepth t .root 1
  | branch {table : Table} {q : Quadrant} {b : BranchId} {n : Nat} :
      AtDepth t table n → t.slot table q = .branch b → AtDepth t (.branch b) (n + 1)

def Fits (t : Quadtree τ κ) (n : Nat) : Slot → Prop
  | .vacant => True
  | .branch b => n < treeDepth ∧ b.index < t.branches.size
  | .leaf id => n = treeDepth ∧ id.index < t.leaves.size

/-- The tables and leaves form a tree that is of the full depth everywhere. -/
structure Proper (t : Quadtree τ κ) : Prop where
  /-- Every table is reached from the root, at one depth only. -/
  depth {table : Table} : t.HasTable table → ∃! n, t.AtDepth table n
  depth_bounds {table : Table} {n : Nat} : t.AtDepth table n → 1 ≤ n ∧ n ≤ treeDepth
  fits {table : Table} {n : Nat} : t.AtDepth table n → ∀ q, t.Fits n (t.slot table q)
  /-- Every branch that is kept is in one slot of a table that is reached, and in no other slot. -/
  branch {i : Nat} : i < t.branches.size → ∃ b table q n, b.index = i ∧ t.AtDepth table n ∧
    t.slot table q = .branch b ∧
    ∀ {b' table' q'}, b'.index = i → t.slot table' q' = .branch b' → table' = table ∧ q' = q
  /-- Every leaf that is kept is in one slot of a table that is reached, and in no other slot. -/
  leaf {i : Nat} : i < t.leaves.size → ∃ id table q n, id.index = i ∧ t.AtDepth table n ∧
    t.slot table q = .leaf id ∧
    ∀ {id' table' q'}, id'.index = i → t.slot table' q' = .leaf id' → table' = table ∧ q' = q

namespace Charts

variable {address : Table → List Quadrant}

theorem atDepth_iff (hc : Charts t address) :
    t.AtDepth table n ↔ t.HasTable table ∧ n = (address table).length + 1 := by
  constructor
  · intro h
    induction h with
    | root => exact ⟨hasTable_root, by rw [hc.root]; rfl⟩
    | branch _ hslot ih =>
        obtain ⟨hb, haddr, -⟩ := hc.branch hslot
        exact ⟨hb, by rw [haddr, List.length_append, List.length_singleton, ih.2]⟩
  · rintro ⟨h, rfl⟩
    refine hc.table_induction (P := fun table => t.AtDepth table ((address table).length + 1))
      ?_ ?_ h
    · rw [hc.root]
      exact .root
    · intro parent q b _ hslot ih
      rw [(hc.branch hslot).2.1, List.length_append, List.length_singleton]
      exact .branch ih hslot

/-- Slots are told apart by the addresses of what they lead to. -/
theorem slot_unique (hc : Charts t address) (h : t.HasTable table) (h' : t.HasTable table')
    (heq : address table' ++ [q'] = address table ++ [q]) : table' = table ∧ q' = q := by
  obtain ⟨hinit, hlast⟩ := List.append_inj' heq rfl
  exact ⟨hc.eq_of_address_eq h' h hinit, List.singleton_inj.mp hlast⟩

theorem fits (hc : Charts t address) (table : Table) (q : Quadrant) :
    t.Fits ((address table).length + 1) (t.slot table q) := by
  cases hslot : t.slot table q with
  | vacant => trivial
  | branch b =>
      obtain ⟨hb, haddr, hlt⟩ := hc.branch hslot
      rw [haddr, List.length_append] at hlt
      exact ⟨hlt, hasTable_branch_iff.mp hb⟩
  | leaf id =>
      obtain ⟨l, hl, haddr⟩ := hc.leaf hslot
      have hlen := congrArg List.length haddr
      rw [Leaf.length_address, List.length_append] at hlen
      exact ⟨hlen.symm, lt_size_of_leaf hl⟩

theorem depth_le (hc : Charts t address) (h : t.HasTable table) :
    (address table).length + 1 ≤ treeDepth := by
  cases table with
  | root =>
      rw [hc.root]
      decide
  | branch b =>
      obtain ⟨parent, q, hslot⟩ := hc.parent h
      exact (hc.branch hslot).2.2

theorem exists_slot_of_branch (hc : Charts t address) {i : Nat} (hi : i < t.branches.size) :
    ∃ b table q n, b.index = i ∧ t.AtDepth table n ∧ t.slot table q = .branch b ∧
      ∀ {b' table' q'}, b'.index = i → t.slot table' q' = .branch b' →
        table' = table ∧ q' = q := by
  have hb : (BranchId.ofIndex i).index = i :=
    BranchId.index_ofIndex (Nat.lt_trans hi hc.branches_size_lt)
  obtain ⟨table, q, hslot⟩ := hc.parent (hasTable_branch_iff.mpr (by rwa [hb]))
  have htable := hasTable_of_branch hslot
  refine ⟨.ofIndex i, table, q, _, hb, hc.atDepth_iff.mpr ⟨htable, rfl⟩, hslot, ?_⟩
  intro b' table' q' hb' hslot'
  obtain rfl : b' = .ofIndex i := BranchId.index_inj.mp (hb'.trans hb.symm)
  exact hc.slot_unique htable (hasTable_of_branch hslot')
    ((hc.branch hslot').2.1.symm.trans (hc.branch hslot).2.1)

theorem exists_slot_of_leaf (hc : Charts t address) {i : Nat} (hi : i < t.leaves.size) :
    ∃ id table q n, id.index = i ∧ t.AtDepth table n ∧ t.slot table q = .leaf id ∧
      ∀ {id' table' q'}, id'.index = i → t.slot table' q' = .leaf id' →
        table' = table ∧ q' = q := by
  have hid : (LeafId.ofIndex i).index = i :=
    LeafId.index_ofIndex (Nat.lt_trans hi hc.leaves_size_lt)
  have hlt : (LeafId.ofIndex i).index < t.leaves.size := by rwa [hid]
  obtain ⟨l, hl⟩ := exists_leaf_of_lt_size hlt
  obtain ⟨table, q, hslot⟩ := hc.holder hl
  have htable := hasTable_of_leaf hslot
  refine ⟨.ofIndex i, table, q, _, hid, hc.atDepth_iff.mpr ⟨htable, rfl⟩, hslot, ?_⟩
  intro id' table' q' hid' hslot'
  obtain rfl : id' = .ofIndex i := LeafId.index_inj.mp (hid'.trans hid.symm)
  obtain ⟨k, hk, haddr⟩ := hc.leaf hslot
  obtain ⟨k', hk', haddr'⟩ := hc.leaf hslot'
  obtain rfl := Except.ok.inj (hk.symm.trans hk')
  exact hc.slot_unique htable (hasTable_of_leaf hslot') (haddr'.symm.trans haddr)

theorem proper (hc : Charts t address) : t.Proper where
  depth h := ⟨_, hc.atDepth_iff.mpr ⟨h, rfl⟩, fun _ hn => (hc.atDepth_iff.mp hn).2⟩
  depth_bounds hn := by
    obtain ⟨h, rfl⟩ := hc.atDepth_iff.mp hn
    exact ⟨Nat.le_add_left _ _, hc.depth_le h⟩
  fits hn := by
    rw [(hc.atDepth_iff.mp hn).2]
    exact hc.fits _
  branch := hc.exists_slot_of_branch
  leaf := hc.exists_slot_of_leaf

end Charts

theorem Sound.proper (hs : t.Sound) : t.Proper := by
  obtain ⟨address, hc, -⟩ := hs.charted
  exact hc.proper

end Quadtree

end TileAtlas
