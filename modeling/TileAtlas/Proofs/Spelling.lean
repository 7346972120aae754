import Mathlib.Algebra.Order.Ring.Nat
import Mathlib.Data.List.Induction
import Mathlib.Logic.ExistsUnique
import TileAtlas.Location
import TileAtlas.Proofs.Path

/-!
Points written out as paths.

Two numbers are written side by side in a path, one bit of each in a quadrant
and the highest bits first. Read back (`spell`), they are the numbers of the
block that the path leads to, so with the position inside the block they give
the point. Nothing else can be written: any thirteen quadrants and any position
come from exactly one point (`lossless`). A path that is read from the front
loses the quadrants that were read and no others, and gives nothing once they
are used up.
-/

namespace TileAtlas

theorem testBit_bitPair (x y : UInt16) (k : Nat) :
    (bitPair x y k).val.testBit 0 = x.toNat.testBit k ∧
      (bitPair x y k).val.testBit 1 = y.toNat.testBit k := by
  show ((x.toNat.testBit k).toNat + 2 * (y.toNat.testBit k).toNat).testBit 0 = _ ∧
    ((x.toNat.testBit k).toNat + 2 * (y.toNat.testBit k).toNat).testBit 1 = _
  cases x.toNat.testBit k <;> cases y.toNat.testBit k <;> decide

theorem val_eq_testBit (q : Quadrant) :
    q.val = (q.val.testBit 0).toNat + 2 * (q.val.testBit 1).toNat := by
  revert q
  decide

namespace Path

/-! ### Spelling -/

/-- The number spelled by the bits at place `i` of quadrants, the highest first. -/
def spell (i : Nat) (path : List Quadrant) : Nat :=
  path.foldl (fun n q => 2 * n + (q.val.testBit i).toNat) 0

variable {i : Nat} {path path' : List Quadrant}

theorem spell_concat (q : Quadrant) :
    spell i (path ++ [q]) = 2 * spell i path + (q.val.testBit i).toNat := by
  rw [spell, List.foldl_append]
  rfl

theorem spell_lt : spell i path < 2 ^ path.length := by
  induction path using List.reverseRecOn with
  | nil => exact Nat.one_pos
  | append_singleton path q ih =>
      have hbit := (q.val.testBit i).toNat_lt
      rw [spell_concat, List.length_append, List.length_singleton, Nat.pow_succ]
      omega

/-- As many quadrants that spell the same two numbers are the same quadrants. -/
theorem eq_of_spell_eq (hlen : path.length = path'.length) (h0 : spell 0 path = spell 0 path')
    (h1 : spell 1 path = spell 1 path') : path = path' := by
  induction path using List.reverseRecOn generalizing path' with
  | nil => exact (List.length_eq_zero_iff.mp hlen.symm).symm
  | append_singleton path q ih =>
      cases path' using List.reverseRecOn with
      | nil => simp at hlen
      | append_singleton path' q' =>
          rw [List.length_append, List.length_append, List.length_singleton,
            List.length_singleton] at hlen
          rw [spell_concat, spell_concat] at h0 h1
          -- The last bits of the two numbers are those of the last quadrant.
          have hbit (q : Quadrant) (i : Nat) : (q.val.testBit i).toNat < 2 := Bool.toNat_lt _
          have hq0 := hbit q 0
          have hq1 := hbit q 1
          have hq0' := hbit q' 0
          have hq1' := hbit q' 1
          have hlast : q = q' := by
            refine Fin.ext ?_
            rw [val_eq_testBit q, val_eq_testBit q']
            omega
          have hfirst : path = path' := ih (by omega) (by omega) (by omega)
          rw [hlast, hfirst]

/-- Quadrants made of the high bits of a coordinate spell the number of these. -/
theorem spell_map_range {v : UInt16} {f : Nat → Quadrant}
    (hf : ∀ k, (f k).val.testBit i = v.toNat.testBit (15 - k)) {n : Nat} (hn : n ≤ 16) :
    spell i ((List.range n).map f) = v.toNat / 2 ^ (16 - n) := by
  induction n with
  | zero => exact (Nat.div_eq_of_lt v.toNat_lt).symm
  | succ n ih =>
      have hdiv : v.toNat / 2 ^ (16 - n) = v.toNat / 2 ^ (15 - n) / 2 := by
        rw [Nat.div_div_eq_div_mul, ← Nat.pow_succ, Nat.succ_eq_add_one,
          show 15 - n + 1 = 16 - n by omega]
      rw [List.range_succ, List.map_append, List.map_singleton, spell_concat, ih (by omega), hf,
        Nat.toNat_testBit, hdiv, show 16 - (n + 1) = 15 - n by omega]
      omega

theorem spell_toList (x y : UInt16) : spell 0 (ofPoint x y).toList = x.toNat / 8 ∧
    spell 1 (ofPoint x y).toList = y.toNat / 8 := by
  rw [toList_eq_map_bitPair]
  exact ⟨spell_map_range (fun k => (testBit_bitPair x y (15 - k)).1) (n := treeDepth) (by decide),
    spell_map_range (fun k => (testBit_bitPair x y (15 - k)).2) (n := treeDepth) (by decide)⟩

theorem toNat_eq_of_spell (x y : UInt16) :
    x.toNat = 8 * spell 0 (ofPoint x y).toList + (offset x).toNat ∧
      y.toNat = 8 * spell 1 (ofPoint x y).toList + (offset y).toNat := by
  rw [(spell_toList x y).1, (spell_toList x y).2, toNat_offset, toNat_offset]
  omega

theorem exists_spelled (h : path.length = treeDepth) {m : Nat} (hm : m < 8) :
    ∃ v : UInt16, v.toNat / 8 = spell i path ∧ (offset v).toNat = m := by
  have hlt : spell i path < 2 ^ 13 := Nat.lt_of_lt_of_eq spell_lt (by rw [h]; rfl)
  have hv : (UInt16.ofNat (8 * spell i path + m)).toNat = 8 * spell i path + m :=
    UInt16.toNat_ofNat_of_lt' (by simp only [UInt16.size]; omega)
  refine ⟨UInt16.ofNat (8 * spell i path + m), ?_, ?_⟩
  · rw [hv]
    omega
  · rw [toNat_offset, hv]
    omega

/-- Any thirteen quadrants and any position in a block come from exactly one point. -/
theorem existsUnique_point (h : path.length = treeDepth) {m n : Nat} (hm : m < 8) (hn : n < 8) :
    ∃! p : UInt16 × UInt16, (ofPoint p.1 p.2).toList = path ∧ (offset p.1).toNat = m ∧
      (offset p.2).toNat = n := by
  obtain ⟨x, hx, hxm⟩ := exists_spelled (i := 0) h hm
  obtain ⟨y, hy, hyn⟩ := exists_spelled (i := 1) h hn
  obtain ⟨hx', hy'⟩ := spell_toList x y
  refine ⟨(x, y), ⟨eq_of_spell_eq ?_ (hx'.trans hx) (hy'.trans hy), hxm, hyn⟩, ?_⟩
  · exact (length_toList _).trans h.symm
  · rintro ⟨u, v⟩ ⟨hpath, hum, hvn⟩
    dsimp only at hpath hum hvn
    obtain ⟨hu, hv⟩ := spell_toList u v
    rw [hpath, ← hx, eq_comm, ← blockStart_eq_iff] at hu
    rw [hpath, ← hy, eq_comm, ← blockStart_eq_iff] at hv
    have hum' : offset u = offset x := UInt16.toNat_inj.mp (hum.trans hxm.symm)
    have hvn' : offset v = offset y := UInt16.toNat_inj.mp (hvn.trans hyn.symm)
    rw [eq_of_blockStart_eq_of_offset_eq hu hum', eq_of_blockStart_eq_of_offset_eq hv hvn']

/-! ### Reading -/

theorem toList_rest (p : Path) : p.rest.toList = p.toList.drop 1 ∧
    p.rest.remaining = p.remaining - 1 := by
  obtain ⟨x, y, n⟩ := p
  cases n <;> exact ⟨rfl, rfl⟩

theorem map_next? (p : Path) : p.next?.map Prod.fst = p.toList[0]? := by
  obtain ⟨x, y, n⟩ := p
  cases n <;> rfl

theorem next?_eq_none_iff {p : Path} : p.next? = none ↔ p.remaining = 0 := by
  obtain ⟨x, y, n⟩ := p
  cases n <;> simp [next?]

/-- A number of reads give that many quadrants from the front, and nothing after the last. -/
theorem read_eq (p : Path) (n : Nat) :
    (p.read n).1 = (List.range n).map (fun k => (p.toList[k]?, p.remaining - (k + 1))) ∧
      (p.read n).2.toList = p.toList.drop n ∧ (p.read n).2.remaining = p.remaining - n := by
  induction n generalizing p with
  | zero => exact ⟨rfl, rfl, rfl⟩
  | succ n ih =>
      obtain ⟨hreads, hlist, hremaining⟩ := ih p.rest
      obtain ⟨hrest, hless⟩ := toList_rest p
      refine ⟨?_, ?_, ?_⟩
      · show (p.next?.map Prod.fst, p.rest.remaining) :: (p.rest.read n).1 = _
        rw [hreads, map_next?, hless, hrest, List.range_succ_eq_map, List.map_cons, List.map_map]
        congr 1
        refine List.map_congr_left fun k _ => ?_
        rw [Function.comp_apply, List.getElem?_drop, Nat.add_comm 1 k, Nat.sub_sub,
          Nat.add_comm 1 (k + 1)]
      · show (p.rest.read n).2.toList = _
        rw [hlist, hrest, List.drop_drop, Nat.add_comm 1 n]
      · show (p.rest.read n).2.remaining = _
        rw [hremaining, hless]
        omega

/-! ### Points and paths -/

/-- What the path of a point tells of the point, and how it is read. -/
structure Transcribes (p : Path) (x y : UInt16) : Prop where
  length : p.toList.length = treeDepth
  /-- The quadrant read after `k` others has bit `15 - k` of `x` for its bit 0 and that of `y` for
  its bit 1. -/
  bit {k : Nat} : k < treeDepth → ∃ q, p.toList[k]? = some q ∧
    q.val.testBit 0 = x.toNat.testBit (15 - k) ∧ q.val.testBit 1 = y.toNat.testBit (15 - k)
  column : x.toNat = 8 * spell 0 p.toList + (offset x).toNat
  row : y.toNat = 8 * spell 1 p.toList + (offset y).toNat
  /-- What each of a number of reads gives, and how many quadrants are left after it. -/
  reads (n : Nat) : (p.read n).1 =
    (List.range n).map fun k => (p.toList[k]?, treeDepth - min (k + 1) treeDepth)
  /-- The path that a number of reads leave. -/
  rest (n : Nat) : (p.read n).2.remaining = treeDepth - min n treeDepth ∧
    (p.read n).2.toList = p.toList.drop n
  /-- A path that is used up stays so. -/
  spent (n : Nat) : (p.read n).2.next? = none ↔ treeDepth ≤ n

theorem transcribes_ofPoint (x y : UInt16) : (ofPoint x y).Transcribes x y where
  length := length_toList _
  bit {k} hk := by
    refine ⟨bitPair x y (15 - k), ?_, testBit_bitPair x y (15 - k)⟩
    rw [toList_eq_map_bitPair, List.getElem?_map, List.getElem?_range hk]
    rfl
  column := (toNat_eq_of_spell x y).1
  row := (toNat_eq_of_spell x y).2
  reads n := by
    rw [(read_eq _ n).1]
    refine List.map_congr_left fun k _ => ?_
    have hleft : treeDepth - (k + 1) = treeDepth - min (k + 1) treeDepth := by omega
    exact congrArg (Prod.mk _) hleft
  rest n := by
    have hleft : treeDepth - n = treeDepth - min n treeDepth := by omega
    exact ⟨(read_eq _ n).2.2.trans hleft, (read_eq _ n).2.1⟩
  spent n := by
    rw [next?_eq_none_iff, (read_eq _ n).2.2]
    exact Nat.sub_eq_zero_iff_le

/-- Paths and positions are another way of writing the points of the map. -/
theorem lossless :
    (∀ x y, (ofPoint x y).Transcribes x y) ∧
      (∀ (path : List Quadrant) (m n : Nat), path.length = treeDepth → m < 8 → n < 8 →
        ∃! p : UInt16 × UInt16, (ofPoint p.1 p.2).toList = path ∧ (offset p.1).toNat = m ∧
          (offset p.2).toNat = n) ∧
      ∀ p q : Location, (ofPoint p.x p.y).toList = (ofPoint q.x q.y).toList ↔ p.SameBlock q :=
  ⟨transcribes_ofPoint, fun _ _ _ h hm hn => existsUnique_point h hm hn,
    fun _ _ => toList_ofPoint_eq_iff⟩

end Path

end TileAtlas
