import Mathlib.Logic.Function.Basic
import TileAtlas.Proofs.Quadtree.Chart
import TileAtlas.Quadtree.Growth

/-!
Growth keeps a tree charted.

Growing along a path changes the tree by two kinds of steps: a vacant slot is
given a new branch (`addBranch`), or, at the end of the path, a new leaf
(`addLeaf`). Either step extends the chart by the address of what is new, and
since a table that does not exist counts as vacant, a new branch changes no
slot but the one it is put into. A path that a descent can follow to its end
is not grown at all.

The trees on the way are charted as well, so the names which they give to what
they make are as good as those that they have given before.
-/

namespace TileAtlas

namespace Quadtree

variable {τ κ : Type} {t : Quadtree τ κ} {table : Table} {q : Quadrant}

def addBranch (t : Quadtree τ κ) (table : Table) (q : Quadrant) : Quadtree τ κ :=
  let t' := t.setSlot table q (.branch (.ofIndex t.branches.size))
  { t' with branches := t'.branches.push Node.vacant }

def addLeaf (t : Quadtree τ κ) (fresh : Leaf τ κ) (table : Table) (q : Quadrant) :
    Quadtree τ κ :=
  let t' := t.setSlot table q (.leaf (.ofIndex t.leaves.size))
  { t' with leaves := t'.leaves.push fresh }

theorem grow_cons (fresh : Leaf τ κ) (h : t.HasTable table) (q : Quadrant)
    (rest : List Quadrant) :
    t.grow fresh table (q :: rest) =
      match t.slot table q with
      | .branch b => t.grow fresh (.branch b) rest
      | .leaf id => if rest.isEmpty then .ok ⟨t, id, false⟩ else .error (.earlyLeaf id)
      | .vacant =>
        if rest.isEmpty then .ok ⟨t.addLeaf fresh table q, .ofIndex t.leaves.size, true⟩
        else (t.addBranch table q).grow fresh (.branch (.ofIndex t.branches.size)) rest := by
  obtain ⟨node, hnode⟩ := h
  have hleaves : ∀ slot, (t.setSlot table q slot).leaves = t.leaves := by
    intro slot
    cases table <;> rfl
  rw [grow, hnode, slot, hnode, addLeaf, addBranch]
  simp only [hleaves]
  rfl

/-! ### What a step of growth changes -/

@[simp] theorem leaves_setSlot (slot : Slot) : (t.setSlot table q slot).leaves = t.leaves := by
  cases table <;> rfl

@[simp] theorem size_branches_setSlot (slot : Slot) :
    (t.setSlot table q slot).branches.size = t.branches.size := by
  cases table with
  | root => rfl
  | branch b => exact Array.size_modify

theorem get_set_node (node : Node) {q q' : Quadrant} (hq : q.val < 4) (s : Slot) :
    Vector.get (node.set q.val s hq) q' = if q' = q then s else node.get q' := by
  have hval : q.val = q'.val ↔ q' = q := by rw [← Fin.ext_iff]; exact eq_comm
  show (node.set q.val s hq)[q'.val] = if q' = q then s else node[q'.val]
  simp only [Vector.getElem_set, hval]

theorem slot_setSlot (h : t.HasTable table) (s : Slot) (table' : Table) (q' : Quadrant) :
    (t.setSlot table q s).slot table' q' =
      if table' = table ∧ q' = q then s else t.slot table' q' := by
  cases table with
  | root =>
      cases table' with
      | root => simp only [setSlot, slot, node, get_set_node, true_and]
      | branch b' => simp [setSlot, slot, node]
  | branch b =>
      have hb := hasTable_branch_iff.mp h
      cases table' with
      | root => simp [setSlot, slot, node]
      | branch b' =>
          simp only [setSlot, slot, node, Array.getElem?_modify, BranchId.index_inj,
            Table.branch.injEq]
          by_cases hbb : b = b'
          · subst hbb
            simp only [if_true, Array.getElem?_eq_getElem hb, Option.map_some, get_set_node,
              true_and]
          · simp only [if_neg hbb, Ne.symm hbb, false_and, if_false]

theorem slot_push_vacant (table : Table) (q : Quadrant) :
    { t with branches := t.branches.push Node.vacant }.slot table q = t.slot table q := by
  cases table with
  | root => rfl
  | branch b =>
      simp only [slot, node, Array.getElem?_push]
      by_cases hb : b.index = t.branches.size
      · rw [if_pos hb, Array.getElem?_eq_none (Nat.le_of_eq hb.symm)]
        exact Vector.getElem_replicate ..
      · rw [if_neg hb]

theorem slot_addBranch (h : t.HasTable table) (table' : Table) (q' : Quadrant) :
    (t.addBranch table q).slot table' q' =
      if table' = table ∧ q' = q then .branch (.ofIndex t.branches.size)
      else t.slot table' q' := by
  rw [addBranch, slot_push_vacant, slot_setSlot h]

theorem slot_addLeaf (h : t.HasTable table) (fresh : Leaf τ κ) (table' : Table)
    (q' : Quadrant) :
    (t.addLeaf fresh table q).slot table' q' =
      if table' = table ∧ q' = q then .leaf (.ofIndex t.leaves.size) else t.slot table' q' := by
  rw [← slot_setSlot h]
  cases table' <;> rfl

/-- Growth fills vacant slots only: what leads somewhere goes on leading there. -/
theorem slot_addBranch_of_taken (h : t.HasTable table) (hvacant : t.slot table q = .vacant)
    {table' : Table} {q' : Quadrant} {s : Slot} (hslot : t.slot table' q' = s)
    (hs : s ≠ .vacant) : (t.addBranch table q).slot table' q' = s := by
  rw [slot_addBranch h, if_neg, hslot]
  rintro ⟨rfl, rfl⟩
  exact hs (hslot.symm.trans hvacant)

theorem slot_addLeaf_of_taken (h : t.HasTable table) (hvacant : t.slot table q = .vacant)
    {fresh : Leaf τ κ} {table' : Table} {q' : Quadrant} {s : Slot}
    (hslot : t.slot table' q' = s) (hs : s ≠ .vacant) :
    (t.addLeaf fresh table q).slot table' q' = s := by
  rw [slot_addLeaf h, if_neg, hslot]
  rintro ⟨rfl, rfl⟩
  exact hs (hslot.symm.trans hvacant)

theorem hasTable_addBranch_iff (hsize : t.branches.size < UInt32.size) {table' : Table} :
    (t.addBranch table q).HasTable table' ↔
      t.HasTable table' ∨ table' = .branch (.ofIndex t.branches.size) := by
  cases table' with
  | root => simp [hasTable_root]
  | branch b =>
      rw [hasTable_branch_iff, hasTable_branch_iff, Table.branch.injEq, ← BranchId.index_inj,
        BranchId.index_ofIndex hsize, addBranch, Array.size_push, size_branches_setSlot]
      omega

theorem hasTable_addLeaf_iff {fresh : Leaf τ κ} {table' : Table} :
    (t.addLeaf fresh table q).HasTable table' ↔ t.HasTable table' := by
  cases table' with
  | root => simp [hasTable_root]
  | branch b =>
      rw [hasTable_branch_iff, hasTable_branch_iff, addLeaf, size_branches_setSlot]

theorem leaf_addBranch (id : LeafId) : (t.addBranch table q).leaf id = t.leaf id := by
  rw [leaf, leaf, addBranch, leaves_setSlot]

theorem leaf_iff_of_push {t' : Quadtree τ κ} {fresh l : Leaf τ κ} {id : LeafId}
    (hpush : t'.leaves = t.leaves.push fresh) (hsize : t.leaves.size < UInt32.size) :
    t'.leaf id = .ok l ↔ t.leaf id = .ok l ∨ id = .ofIndex t.leaves.size ∧ l = fresh := by
  rw [leaf_eq_ok_iff, leaf_eq_ok_iff, hpush, Array.getElem?_push, ← LeafId.index_inj,
    LeafId.index_ofIndex hsize]
  split
  · rename_i hid
    rw [Array.getElem?_eq_none (Nat.le_of_eq hid.symm)]
    simp [hid, eq_comm]
  · rename_i hid
    simp [hid]

theorem leaves_addLeaf (fresh : Leaf τ κ) :
    (t.addLeaf fresh table q).leaves = t.leaves.push fresh := by
  rw [addLeaf, leaves_setSlot]

theorem grow_of_descend_some (fresh : Leaf τ κ) {rest : List Quadrant} {id : LeafId}
    (h : t.descend table rest = .ok (some id)) :
    t.grow fresh table rest = .ok ⟨t, id, false⟩ := by
  induction rest generalizing table with
  | nil => cases h
  | cons q rest ih =>
      have htable : t.HasTable table := by
        cases hnode : t.node table with
        | error fault =>
            rw [descend, hnode] at h
            cases h
        | ok node => exact ⟨node, hnode⟩
      rw [descend_cons htable] at h
      rw [grow_cons fresh htable]
      cases hslot : t.slot table q with
      | vacant =>
          rw [hslot] at h
          cases h
      | branch b =>
          rw [hslot] at h
          exact ih h
      | leaf id' =>
          rw [hslot] at h
          dsimp only at h ⊢
          split at h
          · rename_i hempty
            obtain rfl := Option.some.inj (Except.ok.inj h)
            exact if_pos hempty
          · cases h

/-! ### The chart of a grown tree -/

namespace Charts

variable {address : Table → List Quadrant} {fresh : Leaf τ κ}

theorem not_hasTable_next (hc : Charts t address) :
    ¬ t.HasTable (.branch (.ofIndex t.branches.size)) := by
  rw [hasTable_branch_iff, BranchId.index_ofIndex hc.branches_size_lt]
  exact Nat.lt_irrefl _

theorem leaf_next_ne (hc : Charts t address) {l : Leaf τ κ} :
    t.leaf (.ofIndex t.leaves.size) ≠ .ok l := by
  rw [Ne, leaf_eq_ok_iff, LeafId.index_ofIndex hc.leaves_size_lt,
    Array.getElem?_eq_none (Nat.le_refl _)]
  exact nofun

theorem addBranch (hc : Charts t address) (h : t.HasTable table)
    (hvacant : t.slot table q = .vacant) (hlen : (address table).length + 1 < treeDepth) :
    Charts (t.addBranch table q)
      (Function.update address (.branch (.ofIndex t.branches.size)) (address table ++ [q])) := by
  have hnew := hc.not_hasTable_next
  have hsize := hc.branches_size_lt
  generalize hb₀ : Table.branch (.ofIndex t.branches.size) = new at hnew
  -- Tables of the old tree keep their addresses.
  have hold : ∀ {table'}, t.HasTable table' →
      Function.update address new (address table ++ [q]) table' = address table' := by
    intro table' h'
    exact Function.update_of_ne (fun heq => hnew (by rwa [heq] at h')) _ _
  have hhas : ∀ {table'}, (t.addBranch table q).HasTable table' ↔
      t.HasTable table' ∨ table' = new := by
    intro table'
    rw [hasTable_addBranch_iff hsize, hb₀]
  constructor
  case root => rw [hold hasTable_root, hc.root]
  case branch =>
    intro table' q' b hslot
    rw [slot_addBranch h] at hslot
    split at hslot
    · rename_i heq
      obtain ⟨rfl, rfl⟩ := heq
      obtain rfl := Slot.branch.inj hslot
      rw [hb₀, Function.update_self, hold h, List.length_append, List.length_singleton]
      exact ⟨hhas.mpr (.inr rfl), rfl, hlen⟩
    · obtain ⟨hb, haddr, hlt⟩ := hc.branch hslot
      rw [hold hb, hold (hasTable_of_branch hslot)]
      exact ⟨hhas.mpr (.inl hb), haddr, hlt⟩
  case leaf =>
    intro table' q' id hslot
    rw [slot_addBranch h] at hslot
    split at hslot
    · cases hslot
    · rw [hold (hasTable_of_leaf hslot), leaf_addBranch]
      exact hc.leaf hslot
  case parent =>
    intro b hb
    rcases hhas.mp hb with hb | hb
    · obtain ⟨table', q', hslot⟩ := hc.parent hb
      exact ⟨table', q', slot_addBranch_of_taken h hvacant hslot Slot.noConfusion⟩
    · obtain rfl := Table.branch.inj (hb.trans hb₀.symm)
      exact ⟨table, q, by rw [slot_addBranch h, if_pos ⟨rfl, rfl⟩]⟩
  case holder =>
    intro id l hl
    rw [leaf_addBranch] at hl
    obtain ⟨table', q', hslot⟩ := hc.holder hl
    exact ⟨table', q', slot_addBranch_of_taken h hvacant hslot Slot.noConfusion⟩
  case aligned =>
    intro id l hl
    rw [leaf_addBranch] at hl
    exact hc.aligned hl

theorem addLeaf (hc : Charts t address) (h : t.HasTable table)
    (hvacant : t.slot table q = .vacant) (haddr : fresh.address = address table ++ [q])
    (hfresh : blockStart fresh.x = fresh.x ∧ blockStart fresh.y = fresh.y) :
    Charts (t.addLeaf fresh table q) address := by
  have hsize := hc.leaves_size_lt
  constructor
  case root => exact hc.root
  case branch =>
    intro table' q' b hslot
    rw [slot_addLeaf h] at hslot
    split at hslot
    · cases hslot
    · rw [hasTable_addLeaf_iff]
      exact hc.branch hslot
  case leaf =>
    intro table' q' id hslot
    simp only [leaf_iff_of_push (leaves_addLeaf fresh) hsize]
    rw [slot_addLeaf h] at hslot
    split at hslot
    · rename_i heq
      obtain ⟨rfl, rfl⟩ := heq
      exact ⟨fresh, .inr ⟨(Slot.leaf.inj hslot).symm, rfl⟩, haddr⟩
    · obtain ⟨l, hl, hpath⟩ := hc.leaf hslot
      exact ⟨l, .inl hl, hpath⟩
  case parent =>
    intro b hb
    rw [hasTable_addLeaf_iff] at hb
    obtain ⟨table', q', hslot⟩ := hc.parent hb
    exact ⟨table', q', slot_addLeaf_of_taken h hvacant hslot Slot.noConfusion⟩
  case holder =>
    intro id l hl
    rcases (leaf_iff_of_push (leaves_addLeaf fresh) hsize).mp hl with hl | ⟨rfl, rfl⟩
    · obtain ⟨table', q', hslot⟩ := hc.holder hl
      exact ⟨table', q', slot_addLeaf_of_taken h hvacant hslot Slot.noConfusion⟩
    · exact ⟨table, q, by rw [slot_addLeaf h, if_pos ⟨rfl, rfl⟩]⟩
  case aligned =>
    intro id l hl
    rcases (leaf_iff_of_push (leaves_addLeaf fresh) hsize).mp hl with hl | ⟨-, rfl⟩
    · exact hc.aligned hl
    · exact hfresh

theorem slot_next (hc : Charts t address) (q : Quadrant) :
    t.slot (.branch (.ofIndex t.branches.size)) q = .vacant := by
  by_contra hne
  exact hc.not_hasTable_next (hasTable_of_slot_ne hne)

/-- Where a descent finds nothing, growth makes the leaf, and branches only on
the way to it. -/
theorem grow_of_descend_none (hc : Charts t address) (h : t.HasTable table)
    {rest : List Quadrant} (haddr : address table ++ rest = fresh.address)
    (hfresh : blockStart fresh.x = fresh.x ∧ blockStart fresh.y = fresh.y)
    (hnone : t.descend table rest = .ok none) :
    ∃ t' address', t.grow fresh table rest = .ok ⟨t', .ofIndex t.leaves.size, true⟩ ∧
      Charts t' address' ∧ t'.leaves = t.leaves.push fresh ∧
      ∀ table', t'.HasTable table' →
        t.HasTable table' ∧ address' table' = address table' ∨
          address' table' <+: fresh.address := by
  induction rest generalizing t address table with
  | nil => cases hnone
  | cons q rest ih =>
      have hlen := congrArg List.length haddr
      rw [List.length_append, List.length_cons, Leaf.length_address] at hlen
      rw [descend_cons h] at hnone
      rw [grow_cons fresh h]
      cases hslot : t.slot table q with
      | leaf id =>
          rw [hslot] at hnone
          dsimp only at hnone
          split at hnone <;> cases hnone
      | branch b =>
          rw [hslot] at hnone
          obtain ⟨hb, hbaddr, -⟩ := hc.branch hslot
          refine ih hc hb ?_ hnone
          rw [hbaddr, List.append_assoc, List.singleton_append, haddr]
      | vacant =>
          cases rest with
          | nil =>
              exact ⟨_, address, rfl, hc.addLeaf h hslot haddr.symm hfresh, leaves_addLeaf fresh,
                fun table' h' => .inl ⟨hasTable_addLeaf_iff.mp h', rfl⟩⟩
          | cons q' rest =>
              rw [List.length_cons] at hlen
              have hc' := hc.addBranch h hslot (by omega)
              have hnew : (t.addBranch table q).HasTable (.branch (.ofIndex t.branches.size)) :=
                (hasTable_addBranch_iff hc.branches_size_lt).mpr (.inr rfl)
              have hpath : Function.update address (.branch (.ofIndex t.branches.size))
                  (address table ++ [q]) (.branch (.ofIndex t.branches.size)) ++ q' :: rest =
                    fresh.address := by
                rw [Function.update_self, List.append_assoc, List.singleton_append, haddr]
              -- The branch just made is vacant, so below it there is nothing to be found.
              have hnone' : (t.addBranch table q).descend (.branch (.ofIndex t.branches.size))
                  (q' :: rest) = .ok none := by
                rw [descend_cons hnew, slot_addBranch h, if_neg, hc.slot_next]
                rintro ⟨rfl, -⟩
                exact hc.not_hasTable_next h
              have hleaves : (t.addBranch table q).leaves = t.leaves := leaves_setSlot _
              obtain ⟨t', address', hgrow, hc'', hpush, htables⟩ := ih hc' hnew hpath hnone'
              rw [hleaves] at hgrow hpush
              refine ⟨t', address', hgrow, hc'', hpush, fun table' h' => ?_⟩
              rcases htables table' h' with ⟨hold, heq⟩ | hprefix
              · rcases (hasTable_addBranch_iff hc.branches_size_lt).mp hold with hold | rfl
                · refine .inl ⟨hold, heq.trans (Function.update_of_ne ?_ _ _)⟩
                  rintro rfl
                  exact hc.not_hasTable_next hold
                · exact .inr ⟨q' :: rest, by rw [heq, hpath]⟩
              · exact .inr hprefix

end Charts

/-! ### On the way -/

/-- Growth along a path passes through a tree, a table which it has come to and
what is left of the path. -/
inductive Passes (t : Quadtree τ κ) (table : Table) (path : List Quadrant) :
    Quadtree τ κ → Table → List Quadrant → Prop
  | start : Passes t table path t table path
  /-- A branch that is there is followed. -/
  | follow {t' : Quadtree τ κ} {table' : Table} {q : Quadrant} {rest : List Quadrant}
      {b : BranchId} : Passes t table path t' table' (q :: rest) → t'.slot table' q = .branch b →
      Passes t table path t' (.branch b) rest
  /-- A branch that is missing is made, unless the path is at its end. -/
  | make {t' : Quadtree τ κ} {table' : Table} {q : Quadrant} {rest : List Quadrant} :
      Passes t table path t' table' (q :: rest) → t'.slot table' q = .vacant → rest ≠ [] →
      Passes t table path (t'.addBranch table' q) (.branch (.ofIndex t'.branches.size)) rest

/-- Whatever growth passes through is charted, and leads to the same end. -/
theorem Charts.of_passes {address : Table → List Quadrant} (hc : Charts t address)
    (h : t.HasTable table) {path : List Quadrant}
    (hlen : (address table).length + path.length = treeDepth) {t' : Quadtree τ κ} {table' : Table}
    {rest : List Quadrant} (hpasses : Passes t table path t' table' rest) :
    t'.HasTable table' ∧ (∀ fresh, t.grow fresh table path = t'.grow fresh table' rest) ∧
      ∃ address', Charts t' address' ∧ (address' table').length + rest.length = treeDepth := by
  induction hpasses with
  | start => exact ⟨h, fun _ => rfl, address, hc, hlen⟩
  | follow _ hslot ih =>
      obtain ⟨htable, hgrow, address', hc', hlen'⟩ := ih
      obtain ⟨hb, haddr, -⟩ := hc'.branch hslot
      rw [List.length_cons] at hlen'
      refine ⟨hb, fun fresh => ?_, address', hc', ?_⟩
      · rw [hgrow, grow_cons fresh htable, hslot]
      · rw [haddr, List.length_append, List.length_singleton]
        omega
  | make _ hslot hrest ih =>
      obtain ⟨htable, hgrow, address', hc', hlen'⟩ := ih
      have hpos := List.length_pos_of_ne_nil hrest
      rw [List.length_cons] at hlen'
      refine ⟨(hasTable_addBranch_iff hc'.branches_size_lt).mpr (.inr rfl), fun fresh => ?_, _,
        hc'.addBranch htable hslot (by omega), ?_⟩
      · rw [hgrow, grow_cons fresh htable, hslot]
        exact if_neg (mt List.isEmpty_iff.mp hrest)
      · rw [Function.update_self, List.length_append, List.length_singleton]
        omega

end Quadtree

end TileAtlas
