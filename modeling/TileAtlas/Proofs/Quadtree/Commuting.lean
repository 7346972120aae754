import TileAtlas.Proofs.Quadtree.Contents

/-!
Planting and letting go in either order.

Two changes to a tree are often made one after the other, and often it does not
matter which comes first. Here it is shown of the two that a move is made of.
Planting reads tables and corners and writes links; who is in a leaf is neither
read nor written by it. So a leaf that is there already can be given another
roster before or after something is planted. The trees that come out are equal
in every respect, names and all.
-/

namespace TileAtlas

/-! ### Arrays -/

section Arrays

variable {α : Type} {xs : Array α} {i j : Nat} {f g : α → α}

theorem modify_push (h : i < xs.size) (a : α) :
    (xs.modify i f).push a = (xs.push a).modify i f := by
  apply Array.ext_getElem?
  intro k
  simp only [Array.getElem?_push, Array.getElem?_modify, Array.size_modify]
  by_cases hk : k = xs.size
  · have hik : i ≠ k := by omega
    rw [if_pos hk, if_neg hik, if_pos hk]
  · rw [if_neg hk, if_neg hk]

theorem modify_comm (h : ∀ a, f (g a) = g (f a)) :
    (xs.modify i f).modify j g = (xs.modify j g).modify i f := by
  apply Array.ext_getElem?
  intro k
  simp only [Array.getElem?_modify]
  split_ifs <;> simp [Option.map_map, Function.comp_def, h]

theorem modify_modify : (xs.modify i f).modify i g = xs.modify i fun a => g (f a) := by
  apply Array.ext_getElem?
  intro k
  simp only [Array.getElem?_modify]
  split <;> simp [Option.map_map, Function.comp_def]

theorem modify_of_eq {a : α} (h : xs[i]? = some a) (hf : f a = a) : xs.modify i f = xs := by
  apply Array.ext_getElem?
  intro k
  rw [Array.getElem?_modify]
  split
  · rename_i hk
    rw [← hk, h, Option.map_some, hf]
  · rfl

end Arrays

/-! ### Programs

Two programs with the same steps end in related results if their steps are
related one by one. -/

section Programs

variable {ε α α' β β' : Type} {x : Except ε α} {f : α → Except ε β} {m : β → β'}

theorem map_bind_eq_map {k : α → α'} {f' : α' → Except ε β'} (h : ∀ a, f' (k a) = (f a).map m) :
    (x.map k >>= f') = (x >>= f).map m := by
  cases x with
  | error e => rfl
  | ok a => exact h a

theorem bind_eq_map {f' : α → Except ε β'} (h : ∀ a, f' a = (f a).map m) :
    (x >>= f') = (x >>= f).map m := by
  cases x with
  | error e => rfl
  | ok a => exact h a

end Programs

namespace Quadtree

variable {τ κ : Type} {t : Quadtree τ κ} {id : LeafId} {r : Roster κ}

def reroster (t : Quadtree τ κ) (id : LeafId) (r : Roster κ) : Quadtree τ κ :=
  { t with leaves := t.leaves.modify id.index (·.setRoster r) }

theorem modifyLeaf_setRoster (h : id.index < t.leaves.size) :
    t.modifyLeaf id (·.setRoster r) = .ok (t.reroster id r) := if_pos h

@[simp] theorem size_reroster : (t.reroster id r).leaves.size = t.leaves.size :=
  Array.size_modify

@[simp] theorem node_reroster (table : Table) : (t.reroster id r).node table = t.node table := by
  cases table <;> rfl

theorem reroster_reroster (r' : Roster κ) :
    (t.reroster id r).reroster id r' = t.reroster id r' := by
  rw [reroster, reroster, reroster, modify_modify]
  rfl

theorem reroster_self {l : Leaf τ κ} (hl : t.leaf id = .ok l) : t.reroster id l.roster = t := by
  rw [reroster, modify_of_eq (leaf_eq_ok_iff.mp hl) rfl]

theorem descend_reroster (table : Table) (path : List Quadrant) :
    (t.reroster id r).descend table path = t.descend table path := by
  induction path generalizing table with
  | nil => rfl
  | cons q rest ih => simp only [descend, node_reroster, ih]

theorem locate?_reroster (x y : Option UInt16) :
    (t.reroster id r).locate? x y = t.locate? x y := by
  cases x with
  | none => rfl
  | some x =>
      cases y with
      | none => rfl
      | some y => exact descend_reroster _ _

/-! ### Planting -/

theorem slot_reroster (table : Table) (q : Quadrant) :
    (t.reroster id r).slot table q = t.slot table q := by
  rw [slot, slot, node_reroster]

theorem addBranch_reroster (table : Table) (q : Quadrant) :
    (t.reroster id r).addBranch table q = (t.addBranch table q).reroster id r := by
  cases table <;> rfl

theorem addLeaf_reroster (hid : id.index < t.leaves.size) (fresh : Leaf τ κ) (table : Table)
    (q : Quadrant) :
    (t.reroster id r).addLeaf fresh table q = (t.addLeaf fresh table q).reroster id r := by
  have hpush := modify_push (f := (·.setRoster r)) hid fresh
  cases table <;> simp only [addLeaf, reroster, setSlot, Array.size_modify, hpush]

theorem grow_reroster (hid : id.index < t.leaves.size) (fresh : Leaf τ κ) (table : Table)
    (path : List Quadrant) :
    (t.reroster id r).grow fresh table path =
      (t.grow fresh table path).map fun g => { g with tree := g.tree.reroster id r } := by
  induction path generalizing t table with
  | nil => rfl
  | cons q rest ih =>
      cases hnode : t.node table with
      | error fault =>
          rw [grow, grow, node_reroster, hnode]
          rfl
      | ok node =>
          have htable : t.HasTable table := ⟨node, hnode⟩
          have htable' : (t.reroster id r).HasTable table := ⟨node, (node_reroster _).trans hnode⟩
          rw [grow_cons fresh htable, grow_cons fresh htable', slot_reroster]
          cases t.slot table q with
          | branch b => exact ih hid (.branch b)
          | leaf id' =>
              dsimp only
              split <;> rfl
          | vacant =>
              dsimp only
              rw [addLeaf_reroster hid, addBranch_reroster, size_reroster]
              split
              · rfl
              · refine ih ?_ _
                rwa [addBranch, leaves_setSlot]

theorem modifyLeaf_reroster (j : LeafId) {f : Leaf τ κ → Leaf τ κ}
    (hf : ∀ l, f (l.setRoster r) = (f l).setRoster r) :
    (t.reroster id r).modifyLeaf j f = (t.modifyLeaf j f).map (·.reroster id r) := by
  rw [modifyLeaf, modifyLeaf, size_reroster]
  split
  · have hcomm : (t.reroster id r).leaves.modify j.index f =
        (t.leaves.modify j.index f).modify id.index (·.setRoster r) :=
      modify_comm fun l => (hf l).symm
    rw [hcomm]
    rfl
  · rfl

theorem modifyLeaf?_reroster (j : Option LeafId) {f : Leaf τ κ → Leaf τ κ}
    (hf : ∀ l, f (l.setRoster r) = (f l).setRoster r) :
    (t.reroster id r).modifyLeaf? j f = (t.modifyLeaf? j f).map (·.reroster id r) := by
  cases j with
  | none => rfl
  | some j => exact modifyLeaf_reroster j hf

theorem leaf_reroster (j : LeafId) :
    (t.reroster id r).leaf j = (t.leaf j).map fun l => if j = id then l.setRoster r else l := by
  have hget : (t.reroster id r).leaves[j.index]? =
      t.leaves[j.index]?.map fun l => if j = id then l.setRoster r else l := by
    simp only [reroster, Array.getElem?_modify, LeafId.index_inj, eq_comm (a := id)]
    split
    · rfl
    · exact Option.map_id'.symm
  rw [leaf, leaf, hget]
  cases t.leaves[j.index]? <;> rfl

theorem connect_reroster (j : LeafId) :
    (t.reroster id r).connect j =
      (t.connect j).map fun p => { p with tree := p.tree.reroster id r } := by
  rw [connect, connect, leaf_reroster]
  refine map_bind_eq_map fun l => ?_
  have hx : (if j = id then l.setRoster r else l).x = l.x := by split <;> rfl
  have hy : (if j = id then l.setRoster r else l).y = l.y := by split <;> rfl
  rw [hx, hy]
  simp only [locate?_reroster]
  refine bind_eq_map fun north => bind_eq_map fun west => bind_eq_map fun south =>
    bind_eq_map fun east => ?_
  rw [modifyLeaf?_reroster north fun _ => rfl]
  refine map_bind_eq_map fun t₁ => ?_
  rw [modifyLeaf?_reroster west fun _ => rfl]
  refine map_bind_eq_map fun t₂ => ?_
  rw [modifyLeaf_reroster j fun _ => rfl]
  exact map_bind_eq_map fun t₃ => rfl

/-- It does not matter whether a leaf gets another roster before something is
planted or after. -/
theorem plant_reroster (hid : id.index < t.leaves.size) (x y : UInt16) :
    (t.reroster id r).plant x y =
      (t.plant x y).map fun p => { p with tree := p.tree.reroster id r } := by
  rw [plant, plant, grow_reroster hid]
  refine map_bind_eq_map fun g => ?_
  dsimp only
  split
  · exact connect_reroster g.leaf
  · rfl

end Quadtree

end TileAtlas
