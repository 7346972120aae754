import Mathlib.Order.Interval.Finset.Nat
import TileAtlas.Proofs.Path
import TileAtlas.Quadtree.Basic

/-!
The shape of a tree.

A slot holds the name of what it leads to, so nothing in the data says that
two slots lead to different branches, that a branch is reached at all, or that
a leaf hangs where its coordinates say. `Charts` says all of it, slot by slot:
it gives every table an address, the quadrants read on the way from the root,
and asks of each slot only that what it leads to has the address one quadrant
longer. Growth changes one slot at a time, which makes the local form the one
to preserve; the global facts are consequences. A table is reached along its
address and no other, a leaf is found from exactly the points of its block,
and no branch or leaf is made so late that its name would not fit a word.
-/

namespace TileAtlas

/-- The path of the points of a leaf. -/
def Leaf.address {τ κ : Type} (l : Leaf τ κ) : List Quadrant := (Path.ofPoint l.x l.y).toList

@[simp] theorem Leaf.length_address {τ κ : Type} (l : Leaf τ κ) :
    l.address.length = treeDepth := by
  rw [Leaf.address, Path.length_toList]
  rfl

/-- A number for each address: its quadrants as digits in base four, after a
leading one that keeps addresses of different lengths apart. -/
def addressCode (address : List Quadrant) : ℕ :=
  address.foldl (fun n q => 4 * n + q.val) 1

theorem addressCode_concat (address : List Quadrant) (q : Quadrant) :
    addressCode (address ++ [q]) = 4 * addressCode address + q.val := by
  simp [addressCode]

theorem addressCode_bounds (address : List Quadrant) :
    4 ^ address.length ≤ addressCode address ∧
      addressCode address < 2 * 4 ^ address.length := by
  induction address using List.reverseRecOn with
  | nil => decide
  | append_singleton address q ih =>
      have hq := q.isLt
      rw [addressCode_concat, List.length_append, List.length_singleton, Nat.pow_succ]
      omega

theorem addressCode_injective : Function.Injective addressCode := by
  intro address
  induction address using List.reverseRecOn with
  | nil =>
      intro address' h
      induction address' using List.reverseRecOn with
      | nil => rfl
      | append_singleton address' q' _ =>
          have hpos := Nat.lt_of_lt_of_le (Nat.pow_pos (by decide)) (addressCode_bounds address').1
          rw [addressCode_concat, show addressCode [] = 1 from rfl] at h
          omega
  | append_singleton address q ih =>
      intro address' h
      have hq := q.isLt
      induction address' using List.reverseRecOn with
      | nil =>
          have hpos := Nat.lt_of_lt_of_le (Nat.pow_pos (by decide)) (addressCode_bounds address).1
          rw [addressCode_concat, show addressCode [] = 1 from rfl] at h
          omega
      | append_singleton address' q' _ =>
          -- Both are below four, so they are the remainders of the codes.
          have hq' := q'.isLt
          rw [addressCode_concat, addressCode_concat] at h
          rw [ih (show addressCode address = addressCode address' by omega),
            Fin.ext (show q.val = q'.val by omega)]

namespace Quadtree

variable {τ κ : Type} {t : Quadtree τ κ}

def HasTable (t : Quadtree τ κ) (table : Table) : Prop := ∃ node, t.node table = .ok node

/-- What a slot leads to. A table that does not exist counts as vacant. -/
def slot (t : Quadtree τ κ) (table : Table) (q : Quadrant) : Slot :=
  match t.node table with
  | .ok node => node.get q
  | .error _ => .vacant

theorem hasTable_root : t.HasTable .root := ⟨t.root, rfl⟩

theorem hasTable_branch_iff {b : BranchId} :
    t.HasTable (.branch b) ↔ b.index < t.branches.size := by
  constructor
  · rintro ⟨node, h⟩
    by_contra hb
    rw [Quadtree.node, Array.getElem?_eq_none (Nat.le_of_not_lt hb)] at h
    cases h
  · intro hb
    exact ⟨t.branches[b.index], by rw [Quadtree.node, Array.getElem?_eq_getElem hb]⟩

theorem hasTable_of_slot_ne {table : Table} {q : Quadrant} (h : t.slot table q ≠ .vacant) :
    t.HasTable table := by
  cases hnode : t.node table with
  | error fault => exact absurd (by rw [slot, hnode]) h
  | ok node => exact ⟨node, hnode⟩

theorem hasTable_of_branch {table : Table} {q : Quadrant} {b : BranchId}
    (h : t.slot table q = .branch b) : t.HasTable table :=
  hasTable_of_slot_ne (by rw [h]; exact Slot.noConfusion)

theorem hasTable_of_leaf {table : Table} {q : Quadrant} {id : LeafId}
    (h : t.slot table q = .leaf id) : t.HasTable table :=
  hasTable_of_slot_ne (by rw [h]; exact Slot.noConfusion)

theorem leaf_eq_ok_iff {id : LeafId} {l : Leaf τ κ} :
    t.leaf id = .ok l ↔ t.leaves[id.index]? = some l := by
  rw [Quadtree.leaf]
  cases t.leaves[id.index]? <;> simp

theorem descend_cons {table : Table} (h : t.HasTable table) (q : Quadrant)
    (rest : List Quadrant) :
    t.descend table (q :: rest) =
      match t.slot table q with
      | .vacant => .ok none
      | .branch b => t.descend (.branch b) rest
      | .leaf id => if rest.isEmpty then .ok (some id) else .error (.earlyLeaf id) := by
  obtain ⟨node, hnode⟩ := h
  rw [descend, hnode, slot, hnode]
  rfl

/-! ### Addresses -/

/-- `Charts t address` says that the tree hangs together and that `address`
gives each of its tables the quadrants that lead to it. -/
structure Charts (t : Quadtree τ κ) (address : Table → List Quadrant) : Prop where
  root : address .root = []
  /-- A slot that is not at the end of a path leads to a branch of the tree. -/
  branch {table : Table} {q : Quadrant} {b : BranchId} : t.slot table q = .branch b →
    t.HasTable (.branch b) ∧ address (.branch b) = address table ++ [q] ∧
      (address (.branch b)).length < treeDepth
  /-- A slot at the end of a path leads to the leaf of that path. -/
  leaf {table : Table} {q : Quadrant} {id : LeafId} : t.slot table q = .leaf id →
    ∃ l, t.leaf id = .ok l ∧ l.address = address table ++ [q]
  /-- Every branch is in some slot. -/
  parent {b : BranchId} : t.HasTable (.branch b) → ∃ table q, t.slot table q = .branch b
  /-- Every leaf is in some slot. -/
  holder {id : LeafId} {l : Leaf τ κ} : t.leaf id = .ok l → ∃ table q, t.slot table q = .leaf id
  /-- A leaf is kept at the start of its block. -/
  aligned {id : LeafId} {l : Leaf τ κ} :
    t.leaf id = .ok l → blockStart l.x = l.x ∧ blockStart l.y = l.y

namespace Charts

variable {address : Table → List Quadrant}

theorem slot_empty (table : Table) (q : Quadrant) :
    (∅ : Quadtree τ κ).slot table q = .vacant := by
  cases table with
  | root => exact Vector.getElem_replicate ..
  | branch b => rfl

theorem leaf_empty {id : LeafId} {l : Leaf τ κ} : (∅ : Quadtree τ κ).leaf id ≠ .ok l := by
  rw [Ne, leaf_eq_ok_iff]
  simp [EmptyCollection.emptyCollection]

theorem empty : Charts (∅ : Quadtree τ κ) fun _ => [] where
  root := rfl
  branch h := by rw [slot_empty] at h; cases h
  leaf h := by rw [slot_empty] at h; cases h
  parent h := absurd (hasTable_branch_iff.mp h) (Nat.not_lt_zero _)
  holder h := absurd h leaf_empty
  aligned h := absurd h leaf_empty

/-- Every table is reached from the root through slots of tables that are
reached, so what holds of the root and passes from a table to the branches in
its slots holds of every table. -/
theorem table_induction (hc : Charts t address) {P : Table → Prop} (root : P .root)
    (branch : ∀ {table q b}, t.HasTable table → t.slot table q = .branch b → P table →
      P (.branch b)) {table : Table} (h : t.HasTable table) : P table := by
  -- The parent of a table has the shorter address.
  induction hn : (address table).length using Nat.strong_induction_on generalizing table with
  | _ n ih =>
      cases table with
      | root => exact root
      | branch b =>
          obtain ⟨parent, q, hslot⟩ := hc.parent h
          have hparent := hasTable_of_branch hslot
          have hlen := congrArg List.length (hc.branch hslot).2.1
          rw [List.length_append, List.length_singleton] at hlen
          exact branch hparent hslot (ih _ (by omega) hparent rfl)

theorem address_branch_ne_nil (hc : Charts t address) {b : BranchId}
    (h : t.HasTable (.branch b)) : address (.branch b) ≠ [] := by
  obtain ⟨parent, q, hslot⟩ := hc.parent h
  rw [(hc.branch hslot).2.1]
  exact List.append_ne_nil_of_right_ne_nil _ (List.cons_ne_nil q [])

theorem eq_of_address_eq (hc : Charts t address) {table table' : Table}
    (h : t.HasTable table) (h' : t.HasTable table') (heq : address table = address table') :
    table = table' := by
  refine hc.table_induction (P := fun table => ∀ table', t.HasTable table' →
    address table = address table' → table = table') ?_ ?_ h table' h' heq
  · intro table' h' heq
    cases table' with
    | root => rfl
    | branch b => exact absurd (heq.symm.trans hc.root) (hc.address_branch_ne_nil h')
  · intro parent q b hparent hslot ih table' h' heq
    have hb := (hc.branch hslot).1
    cases table' with
    | root => exact absurd (heq.trans hc.root) (hc.address_branch_ne_nil hb)
    | branch b' =>
        obtain ⟨parent', q', hslot'⟩ := hc.parent h'
        rw [(hc.branch hslot).2.1, (hc.branch hslot').2.1] at heq
        obtain ⟨hinit, hlast⟩ := List.append_inj' heq rfl
        obtain rfl := ih parent' (hasTable_of_branch hslot') hinit
        obtain rfl := List.singleton_inj.mp hlast
        exact congrArg Table.branch (Slot.branch.inj (hslot.symm.trans hslot'))

theorem eq_of_leaf_address_eq (hc : Charts t address) {id id' : LeafId} {l l' : Leaf τ κ}
    (h : t.leaf id = .ok l) (h' : t.leaf id' = .ok l') (heq : l.address = l'.address) :
    id = id' := by
  obtain ⟨table, q, hslot⟩ := hc.holder h
  obtain ⟨table', q', hslot'⟩ := hc.holder h'
  obtain ⟨k, hk, haddr⟩ := hc.leaf hslot
  obtain ⟨k', hk', haddr'⟩ := hc.leaf hslot'
  obtain rfl : l = k := Except.ok.inj (h.symm.trans hk)
  obtain rfl : l' = k' := Except.ok.inj (h'.symm.trans hk')
  obtain ⟨hinit, hlast⟩ := List.append_inj' (haddr.symm.trans (heq.trans haddr')) rfl
  obtain rfl := hc.eq_of_address_eq (hasTable_of_leaf hslot) (hasTable_of_leaf hslot') hinit
  obtain rfl := List.singleton_inj.mp hlast
  exact Slot.leaf.inj (hslot.symm.trans hslot')

/-! ### Descents -/

theorem descend_root_append (hc : Charts t address) {table : Table} (h : t.HasTable table)
    (rest : List Quadrant) : t.descend .root (address table ++ rest) = t.descend table rest := by
  refine hc.table_induction (P := fun table => ∀ rest,
    t.descend .root (address table ++ rest) = t.descend table rest) ?_ ?_ h rest
  · intro rest
    rw [hc.root, List.nil_append]
  · intro parent q b hparent hslot ih rest
    rw [(hc.branch hslot).2.1, List.append_assoc, List.singleton_append, ih,
      descend_cons hparent, hslot]

/-- A descent comes to an end without a fault, and where it ends in a leaf it
has followed the path of that leaf. -/
theorem descend_ok (hc : Charts t address) {table : Table} (h : t.HasTable table)
    {rest : List Quadrant} (hrest : rest ≠ [])
    (hlen : (address table).length + rest.length = treeDepth) :
    ∃ found, t.descend table rest = .ok found ∧
      ∀ id ∈ found, ∃ l, t.leaf id = .ok l ∧ l.address = address table ++ rest := by
  induction rest generalizing table with
  | nil => exact absurd rfl hrest
  | cons q rest ih =>
      rw [descend_cons h]
      rw [List.length_cons] at hlen
      cases hslot : t.slot table q with
      | vacant => exact ⟨none, rfl, fun id hid => by cases hid⟩
      | branch b =>
          obtain ⟨hb, haddr, hlt⟩ := hc.branch hslot
          have hlen' := congrArg List.length haddr
          rw [List.length_append, List.length_singleton] at hlen'
          -- A branch has a short address, so there is some of the path left for it.
          have hne : rest ≠ [] := by
            rintro rfl
            rw [List.length_nil] at hlen
            omega
          obtain ⟨found, hfound, hleaf⟩ := ih hb hne (by omega)
          refine ⟨found, hfound, fun id hid => ?_⟩
          obtain ⟨l, hl, hpath⟩ := hleaf id hid
          exact ⟨l, hl, by rw [hpath, haddr, List.append_assoc, List.singleton_append]⟩
      | leaf id =>
          -- A leaf has a full address, so nothing is left of the path.
          obtain ⟨l, hl, haddr⟩ := hc.leaf hslot
          have hlen' := congrArg List.length haddr
          rw [Leaf.length_address, List.length_append, List.length_singleton] at hlen'
          obtain rfl : rest = [] := List.eq_nil_of_length_eq_zero (by omega)
          exact ⟨some id, rfl, fun _ hid => ⟨l, Option.some.inj hid ▸ hl, haddr⟩⟩

theorem locate_spec (hc : Charts t address) (x y : UInt16) :
    ∃ found, t.locate x y = .ok found ∧
      ∀ id ∈ found, ∃ l, t.leaf id = .ok l ∧ l.address = (Path.ofPoint x y).toList := by
  have hlen : (Path.ofPoint x y).toList.length = treeDepth := Path.length_toList _
  have hspec := hc.descend_ok hasTable_root (List.ne_nil_of_length_eq_add_one hlen)
    (by rw [hc.root, List.length_nil, Nat.zero_add, hlen])
  rwa [hc.root, List.nil_append] at hspec

theorem locate_ok (hc : Charts t address) (x y : UInt16) : ∃ found, t.locate x y = .ok found := by
  obtain ⟨found, hfound, -⟩ := hc.locate_spec x y
  exact ⟨found, hfound⟩

theorem locate_eq_some_iff (hc : Charts t address) {x y : UInt16} {id : LeafId} :
    t.locate x y = .ok (some id) ↔
      ∃ l, t.leaf id = .ok l ∧ l.x = blockStart x ∧ l.y = blockStart y := by
  constructor
  · intro hloc
    obtain ⟨found, hfound, hleaf⟩ := hc.locate_spec x y
    obtain rfl : found = some id := Except.ok.inj (hfound.symm.trans hloc)
    obtain ⟨l, hl, hpath⟩ := hleaf id rfl
    rw [Leaf.address, Path.toList_ofPoint_eq_iff, (hc.aligned hl).1, (hc.aligned hl).2] at hpath
    exact ⟨l, hl, hpath⟩
  · rintro ⟨l, hl, hx, hy⟩
    obtain ⟨table, q, hslot⟩ := hc.holder hl
    obtain ⟨k, hk, haddr⟩ := hc.leaf hslot
    obtain rfl : l = k := Except.ok.inj (hl.symm.trans hk)
    have hpath : (Path.ofPoint x y).toList = address table ++ [q] := by
      rw [← haddr, Leaf.address, Path.toList_ofPoint_eq_iff, hx, hy, blockStart_blockStart,
        blockStart_blockStart]
      exact ⟨rfl, rfl⟩
    have htable := hasTable_of_leaf hslot
    rw [locate, hpath, hc.descend_root_append htable, descend_cons htable, hslot]
    rfl

/-! ### Names

A name is a word, and a thing made too late would get the name of an earlier
one. The addresses are few enough that this never happens. -/

/-- Things that can be numbered injectively by the `bound` numbers from `least`
on are no more than `bound`, even if only those whose place fits a word are
known to be numbered so. -/
theorem size_le_of_injOn {n bound : ℕ} (least : ℕ) (hbound : bound < UInt32.size) (code : ℕ → ℕ)
    (hmem : ∀ i < n, i < UInt32.size → least ≤ code i ∧ code i < least + bound)
    (hinj : ∀ i < n, ∀ j < n, i < UInt32.size → j < UInt32.size → code i = code j → i = j) :
    n ≤ bound := by
  by_contra hn
  -- Already the first `bound + 1` of them, whose places fit a word, are too many.
  have hmaps : ∀ i ∈ Finset.range (bound + 1), code i ∈ Finset.Ico least (least + bound) := by
    intro i hi
    rw [Finset.mem_range] at hi
    rw [Finset.mem_Ico]
    exact hmem i (by omega) (by omega)
  have hcard := Finset.card_le_card_of_injOn code hmaps (by
    intro i hi j hj heq
    rw [Finset.mem_coe, Finset.mem_range] at hi hj
    exact hinj i (by omega) j (by omega) (by omega) (by omega) heq)
  rw [Finset.card_range, Nat.card_Ico] at hcard
  omega

theorem branches_size_lt (hc : Charts t address) : t.branches.size < UInt32.size := by
  suffices hle : t.branches.size ≤ 4 ^ treeDepth from Nat.lt_of_le_of_lt hle (by decide)
  have hhas : ∀ i < t.branches.size, i < UInt32.size → t.HasTable (.branch (.ofIndex i)) := by
    intro i hi hword
    rw [hasTable_branch_iff, BranchId.index_ofIndex hword]
    exact hi
  refine size_le_of_injOn 0 (by decide)
    (fun i => addressCode (address (.branch (.ofIndex i)))) ?_ ?_
  · intro i hi hword
    obtain ⟨table, q, hslot⟩ := hc.parent (hhas i hi hword)
    have hlen : (address (.branch (.ofIndex i))).length ≤ 12 :=
      Nat.le_of_lt_succ (hc.branch hslot).2.2
    refine ⟨Nat.zero_le _, ?_⟩
    calc addressCode (address (.branch (.ofIndex i)))
        < 2 * 4 ^ (address (.branch (.ofIndex i))).length := (addressCode_bounds _).2
      _ ≤ 2 * 4 ^ 12 := Nat.mul_le_mul_left _ (Nat.pow_le_pow_right (by decide) hlen)
      _ ≤ 0 + 4 ^ treeDepth := by decide
  · intro i hi j hj hi' hj' heq
    have htable := hc.eq_of_address_eq (hhas i hi hi') (hhas j hj hj') (addressCode_injective heq)
    have hindex := congrArg BranchId.index (Table.branch.inj htable)
    rwa [BranchId.index_ofIndex hi', BranchId.index_ofIndex hj'] at hindex

theorem leaves_size_le (hc : Charts t address) : t.leaves.size ≤ 4 ^ treeDepth := by
  have hleaf : ∀ {i} (hi : i < t.leaves.size), i < UInt32.size →
      t.leaf (.ofIndex i) = .ok t.leaves[i] := by
    intro i hi hword
    rw [leaf_eq_ok_iff, LeafId.index_ofIndex hword, Array.getElem?_eq_getElem hi]
  refine size_le_of_injOn (4 ^ treeDepth) (by decide)
    (fun i => t.leaves[i]?.elim 0 fun l => addressCode l.address) ?_ ?_
  · intro i hi _
    have hcode := addressCode_bounds t.leaves[i].address
    rw [Leaf.length_address, Nat.two_mul] at hcode
    rwa [Array.getElem?_eq_getElem hi]
  · intro i hi j hj hi' hj' heq
    rw [Array.getElem?_eq_getElem hi, Array.getElem?_eq_getElem hj] at heq
    have hname := hc.eq_of_leaf_address_eq (hleaf hi hi') (hleaf hj hj')
      (addressCode_injective heq)
    have hindex := congrArg LeafId.index hname
    rwa [LeafId.index_ofIndex hi', LeafId.index_ofIndex hj'] at hindex

theorem leaves_size_lt (hc : Charts t address) : t.leaves.size < UInt32.size :=
  Nat.lt_of_le_of_lt hc.leaves_size_le (by decide)

end Charts

end Quadtree

end TileAtlas
