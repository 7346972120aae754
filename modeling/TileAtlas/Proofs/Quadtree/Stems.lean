import Mathlib.Algebra.BigOperators.Group.Finset.Basic
import Mathlib.Algebra.Order.BigOperators.Group.Finset
import Mathlib.Data.Finset.Prod
import Mathlib.Data.Set.Card
import TileAtlas.Proofs.Quadtree.Leaves
import TileAtlas.Proofs.TileCount

/-!
Which branches a tree has.

A branch is made on the way to a leaf and shared by all leaves that come to lie
below it. So there is one branch for each stem, that is for each beginning of
a path to a leaf, the whole path and the empty one excepted, and it does not
matter in which order the leaves were made.

A stem of `n` quadrants stands for one of the squares that the map falls into
when either side of it is cut into `2 ^ n` parts. That makes the stems easy to
count: for each `n`, there are as many as there are squares with a leaf in
them.
-/

namespace TileAtlas

/-- The beginnings of the paths to some blocks, down to the last table. -/
def stems (blocks : List (UInt16 × UInt16)) : Set (List Quadrant) :=
  {p | p ≠ [] ∧ p.length < treeDepth ∧ ∃ c ∈ blocks, p <+: (Path.ofPoint c.1 c.2).toList}

theorem stems_congr {blocks blocks' : List (UInt16 × UInt16)}
    (h : ∀ c, c ∈ blocks ↔ c ∈ blocks') : stems blocks = stems blocks' := by
  ext p
  simp only [stems, h]

/-! ### Squares -/

/-- The squares in which some blocks lie, when either side of the map is cut
into `2 ^ n` parts. A square is given by its column and row. -/
def squares (n : Nat) (blocks : List (UInt16 × UInt16)) : Finset (Nat × Nat) :=
  (blocks.map fun c => (c.1.toNat >>> (coordBits - n), c.2.toNat >>> (coordBits - n))).toFinset

theorem card_squares_le_length (n : Nat) (blocks : List (UInt16 × UInt16)) :
    (squares n blocks).card ≤ blocks.length :=
  (List.toFinset_card_le _).trans_eq (List.length_map _)

theorem shiftRight_lt_two_pow (v : UInt16) {n : Nat} (hn : n ≤ coordBits) :
    v.toNat >>> (coordBits - n) < 2 ^ n := by
  rw [Nat.shiftRight_eq_div_pow]
  apply Nat.div_lt_of_lt_mul
  rw [← Nat.pow_add, Nat.sub_add_cancel hn]
  exact v.toNat_lt

theorem card_squares_le_four_pow {n : Nat} (hn : n ≤ coordBits) (blocks : List (UInt16 × UInt16)) :
    (squares n blocks).card ≤ 4 ^ n := by
  have hsubset : squares n blocks ⊆ Finset.range (2 ^ n) ×ˢ Finset.range (2 ^ n) := by
    intro s hs
    obtain ⟨c, -, rfl⟩ := List.mem_map.mp (List.mem_toFinset.mp hs)
    rw [Finset.mem_product, Finset.mem_range, Finset.mem_range]
    exact ⟨shiftRight_lt_two_pow c.1 hn, shiftRight_lt_two_pow c.2 hn⟩
  calc (squares n blocks).card
    _ ≤ (Finset.range (2 ^ n) ×ˢ Finset.range (2 ^ n)).card := Finset.card_le_card hsubset
    _ = 2 ^ n * 2 ^ n := by rw [Finset.card_product, Finset.card_range]
    _ = 4 ^ n := by rw [← Nat.mul_pow]

theorem card_toFinset_map_eq {α β γ : Type} [DecidableEq β] [DecidableEq γ] {f : α → β} {g : α → γ}
    (h : ∀ a b, f a = f b ↔ g a = g b) (l : List α) :
    (l.map f).toFinset.card = (l.map g).toFinset.card := by
  induction l with
  | nil => rfl
  | cons a l ih =>
      have hmem : f a ∈ (l.map f).toFinset ↔ g a ∈ (l.map g).toFinset := by
        simp only [List.mem_toFinset, List.mem_map, h]
      rw [List.map_cons, List.map_cons, List.toFinset_cons, List.toFinset_cons]
      by_cases hf : f a ∈ (l.map f).toFinset
      · rw [Finset.insert_eq_of_mem hf, Finset.insert_eq_of_mem (hmem.mp hf), ih]
      · rw [Finset.card_insert_of_notMem hf, Finset.card_insert_of_notMem (mt hmem.mpr hf), ih]

def stemsOfLength (n : Nat) (blocks : List (UInt16 × UInt16)) : Finset (List Quadrant) :=
  (blocks.map fun c => (Path.ofPoint c.1 c.2).toList.take n).toFinset

theorem mem_stemsOfLength_iff {n : Nat} (hn : n ≤ treeDepth) {blocks : List (UInt16 × UInt16)}
    {p : List Quadrant} :
    p ∈ stemsOfLength n blocks ↔
      p.length = n ∧ ∃ c ∈ blocks, p <+: (Path.ofPoint c.1 c.2).toList := by
  simp only [stemsOfLength, List.mem_toFinset, List.mem_map, List.prefix_iff_eq_take]
  constructor
  · rintro ⟨c, hc, rfl⟩
    have hlen : ((Path.ofPoint c.1 c.2).toList.take n).length = n := by
      rw [List.length_take, Path.length_toList]
      exact Nat.min_eq_left hn
    exact ⟨hlen, c, hc, by rw [hlen]⟩
  · rintro ⟨rfl, c, hc, hp⟩
    exact ⟨c, hc, hp.symm⟩

theorem card_stemsOfLength {n : Nat} (hn : n ≤ treeDepth) (blocks : List (UInt16 × UInt16)) :
    (stemsOfLength n blocks).card = (squares n blocks).card := by
  refine card_toFinset_map_eq (fun c d => ?_) blocks
  rw [Path.take_toList_eq_iff hn, Prod.mk.injEq]

theorem stems_eq_biUnion (blocks : List (UInt16 × UInt16)) :
    stems blocks = (Finset.Ico 1 treeDepth).biUnion fun n => stemsOfLength n blocks := by
  ext p
  simp only [Finset.coe_biUnion, Finset.coe_Ico, Set.mem_Ico, Set.mem_iUnion, Finset.mem_coe,
    exists_prop, stems, Set.mem_ofPred_eq]
  constructor
  · rintro ⟨hne, hlen, hp⟩
    exact ⟨p.length, ⟨List.length_pos_of_ne_nil hne, hlen⟩,
      (mem_stemsOfLength_iff (Nat.le_of_lt hlen)).mpr ⟨rfl, hp⟩⟩
  · rintro ⟨n, ⟨hpos, hlt⟩, hmem⟩
    obtain ⟨rfl, hp⟩ := (mem_stemsOfLength_iff (Nat.le_of_lt hlt)).mp hmem
    exact ⟨List.ne_nil_of_length_pos hpos, hlt, hp⟩

theorem encard_stems_eq_sum (blocks : List (UInt16 × UInt16)) :
    (stems blocks).encard = (∑ n ∈ Finset.Ico 1 treeDepth, (squares n blocks).card : Nat) := by
  have hle : ∀ {n}, n ∈ Finset.Ico 1 treeDepth → n ≤ treeDepth := fun hn =>
    Nat.le_of_lt (Finset.mem_Ico.mp hn).2
  rw [stems_eq_biUnion, Set.encard_coe_eq_coe_finsetCard, Finset.card_biUnion]
  · rw [Finset.sum_congr rfl fun n hn => card_stemsOfLength (hle hn) blocks]
  · intro m hm n hn hne
    rw [Function.onFun, Finset.disjoint_left]
    intro p hpm hpn
    exact hne (((mem_stemsOfLength_iff (hle hm)).mp hpm).1.symm.trans
      ((mem_stemsOfLength_iff (hle hn)).mp hpn).1)

namespace Quadtree

variable {τ κ : Type} {t : Quadtree τ κ}

/-! ### Branches -/

theorem Charts.exists_table_of_begins {address : Table → List Quadrant} (hc : Charts t address)
    {table : Table} (h : t.HasTable table) {p : List Quadrant} (hp : p <+: address table) :
    ∃ table', t.HasTable table' ∧ address table' = p := by
  refine hc.table_induction (P := fun table => p <+: address table →
    ∃ table', t.HasTable table' ∧ address table' = p) ?_ ?_ h hp
  · intro hp
    rw [hc.root, List.prefix_nil] at hp
    exact ⟨.root, hasTable_root, hc.root.trans hp.symm⟩
  · intro parent q b _ hslot ih hp
    obtain ⟨hb, haddr, -⟩ := hc.branch hslot
    rw [haddr, List.prefix_concat_iff] at hp
    rcases hp with rfl | hp
    · exact ⟨.branch b, hb, haddr⟩
    · exact ih hp

/-- The path to a leaf begins with the addresses of branches only. -/
theorem Charts.exists_branch_of_begins {address : Table → List Quadrant} (hc : Charts t address)
    {id : LeafId} {l : Leaf τ κ} (hl : t.leaf id = .ok l) {p : List Quadrant} (hne : p ≠ [])
    (hlen : p.length < treeDepth) (hp : p <+: l.address) :
    ∃ b, t.HasTable (.branch b) ∧ address (.branch b) = p := by
  obtain ⟨table, q, hslot⟩ := hc.holder hl
  obtain ⟨m, hm, haddr⟩ := hc.leaf hslot
  obtain rfl := Except.ok.inj (hl.symm.trans hm)
  rw [haddr, List.prefix_concat_iff, ← haddr] at hp
  rcases hp with rfl | hp
  · rw [Leaf.length_address] at hlen
    exact absurd hlen (Nat.lt_irrefl _)
  obtain ⟨table', htable', rfl⟩ := hc.exists_table_of_begins (hasTable_of_leaf hslot) hp
  cases table' with
  | root => exact absurd hc.root hne
  | branch b => exact ⟨b, htable', rfl⟩

/-- The addresses of the branches are the stems, each of them once. -/
theorem Sound.exists_bijOn_stems (hs : t.Sound) :
    ∃ address, Charts t address ∧
      Set.BijOn (fun i => address (.branch (.ofIndex i))) (Set.Iio t.branches.size)
        (stems t.corners) := by
  obtain ⟨address, hc, htrim⟩ := hs.charted
  have hword : ∀ {i}, i < t.branches.size → (BranchId.ofIndex i).index = i :=
    fun hi => BranchId.index_ofIndex (Nat.lt_trans hi hc.branches_size_lt)
  have htable : ∀ {i}, i < t.branches.size → t.HasTable (.branch (.ofIndex i)) := by
    intro i hi
    rw [hasTable_branch_iff, hword hi]
    exact hi
  refine ⟨address, hc, ?_, ?_, ?_⟩
  · intro i hi
    obtain ⟨table, q, hslot⟩ := hc.parent (htable hi)
    obtain ⟨id, l, hl, hp⟩ := htrim (htable hi)
    refine ⟨hc.address_branch_ne_nil (htable hi), (hc.branch hslot).2.2, (l.x, l.y), ?_, hp⟩
    exact List.mem_of_getElem? (corner_of_leaf hl)
  · intro i hi j hj heq
    have hname := Table.branch.inj (hc.eq_of_address_eq (htable hi) (htable hj) heq)
    rw [← hword hi, ← hword hj, hname]
  · rintro p ⟨hne, hlen, c, hmem, hp⟩
    obtain ⟨l, hl, rfl⟩ := List.mem_map.mp hmem
    obtain ⟨id, hid⟩ := hs.exists_leaf_of_mem_leaves hl
    obtain ⟨b, hb, rfl⟩ := hc.exists_branch_of_begins hid hne hlen hp
    have hlt := hasTable_branch_iff.mp hb
    refine ⟨b.index, hlt, ?_⟩
    show address (.branch (.ofIndex b.index)) = address (.branch b)
    rw [BranchId.index_inj.mp (hword hlt)]

theorem Sound.encard_stems (hs : t.Sound) : (stems t.corners).encard = t.branches.size := by
  obtain ⟨address, -, hbij⟩ := hs.exists_bijOn_stems
  rw [← hbij.image_eq, hbij.injOn.encard_image, ← Finset.coe_range,
    Set.encard_coe_eq_coe_finsetCard, Finset.card_range]

/-- There are as many branches as squares with a leaf in them, over all sizes
of squares between the map and a block. -/
theorem Sound.size_branches (hs : t.Sound) :
    t.branches.size = ∑ n ∈ Finset.Ico 1 treeDepth, (squares n t.corners).card := by
  have hstems := hs.encard_stems
  rw [encard_stems_eq_sum] at hstems
  exact (ENat.natCast_inj.mp hstems).symm

/-! ### The root table -/

theorem Sound.slot_root_ne_iff (hs : t.Sound) {q : Quadrant} :
    t.slot .root q ≠ .vacant ↔ [q] ∈ stemsOfLength 1 t.corners := by
  obtain ⟨address, hc, htrim⟩ := hs.charted
  have hcorner : ∀ {id : LeafId} {l : Leaf τ κ}, t.leaf id = .ok l → (l.x, l.y) ∈ t.corners :=
    fun hl => List.mem_of_getElem? (corner_of_leaf hl)
  rw [mem_stemsOfLength_iff (by decide), and_iff_right (List.length_singleton)]
  constructor
  · intro hne
    cases hslot : t.slot .root q with
    | vacant => exact absurd hslot hne
    | branch b =>
        obtain ⟨hb, haddr, -⟩ := hc.branch hslot
        obtain ⟨id, l, hl, hp⟩ := htrim hb
        rw [haddr, hc.root] at hp
        exact ⟨_, hcorner hl, hp⟩
    | leaf id =>
        obtain ⟨l, hl, haddr⟩ := hc.leaf hslot
        rw [hc.root, List.nil_append] at haddr
        exact ⟨_, hcorner hl, List.prefix_iff_eq_take.mpr (haddr ▸ rfl)⟩
  · rintro ⟨c, hmem, hp⟩
    obtain ⟨l, hl, rfl⟩ := List.mem_map.mp hmem
    obtain ⟨id, hid⟩ := hs.exists_leaf_of_mem_leaves hl
    have hlen : [q].length < treeDepth := List.length_singleton.trans_lt (by decide)
    obtain ⟨b, hb, haddr⟩ := hc.exists_branch_of_begins hid (List.cons_ne_nil q []) hlen hp
    obtain ⟨table, q', hslot⟩ := hc.parent hb
    have htable := hasTable_of_branch hslot
    rw [(hc.branch hslot).2.1, List.append_eq_singleton_iff] at haddr
    rcases haddr with ⟨hnil, hq⟩ | ⟨-, hq⟩
    · -- Only the root has the empty address, so the branch is in one of its slots.
      obtain rfl := hc.eq_of_address_eq htable hasTable_root (hnil.trans hc.root.symm)
      obtain rfl := List.singleton_inj.mp hq
      rw [hslot]
      exact Slot.noConfusion
    · cases hq

theorem Sound.countP_root (hs : t.Sound) :
    t.root.countP (· ≠ .vacant) = (squares 1 t.corners).card := by
  have himage : (Finset.univ.filter fun q : Quadrant => t.root[q] ≠ .vacant).image (fun q => [q]) =
      stemsOfLength 1 t.corners := by
    ext p
    simp only [Finset.mem_image, Finset.mem_filter, Finset.mem_univ, true_and]
    constructor
    · rintro ⟨q, hq, rfl⟩
      exact hs.slot_root_ne_iff.mp hq
    · intro hp
      obtain ⟨q, rfl⟩ := List.length_eq_one_iff.mp ((mem_stemsOfLength_iff (by decide)).mp hp).1
      exact ⟨q, hs.slot_root_ne_iff.mpr hp, rfl⟩
  rw [countP_eq_sum, ← card_stemsOfLength (by decide), ← himage,
    Finset.card_image_of_injective _ fun _ _ h => List.singleton_inj.mp h, Finset.card_filter]
  simp only [decide_eq_true_eq]

end Quadtree

end TileAtlas
