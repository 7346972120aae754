import TileAtlas.Coordinate

/-!
Arithmetic of blocks. Everything that is known about a block start follows
from one equation, `toNat_blockStart_eq`: it is eight times the number of the
block. The links of a leaf are wired with `previousBlock?` and read with
`nextBlock?`, so the two being inverse to each other is what makes a link
found from one side the same as the link found from the other.
-/

namespace TileAtlas

theorem toNat_blockStart_eq (v : UInt16) : (blockStart v).toNat = 8 * (v.toNat / 8) := by
  rw [toNat_blockStart]
  omega

theorem blockStart_eq_iff {v w : UInt16} :
    blockStart v = blockStart w ↔ v.toNat / 8 = w.toNat / 8 := by
  rw [← UInt16.toNat_inj, toNat_blockStart_eq, toNat_blockStart_eq]
  omega

theorem blockStart_eq_self_iff {v : UInt16} : blockStart v = v ↔ v.toNat % 8 = 0 := by
  rw [← UInt16.toNat_inj, toNat_blockStart_eq]
  omega

@[simp] theorem blockStart_blockStart (v : UInt16) :
    blockStart (blockStart v) = blockStart v := by
  rw [blockStart_eq_self_iff, toNat_blockStart_eq]
  omega

theorem blockStart_mono {v w : UInt16} (h : v ≤ w) : blockStart v ≤ blockStart w := by
  rw [UInt16.le_iff_toNat_le] at h ⊢
  rw [toNat_blockStart_eq, toNat_blockStart_eq]
  omega

theorem blockStart_eq_iff_of_start {v w : UInt16} (hw : blockStart w = w) :
    blockStart v = w ↔ w.toNat ≤ v.toNat ∧ v.toNat < w.toNat + 8 := by
  rw [blockStart_eq_self_iff] at hw
  rw [← UInt16.toNat_inj, toNat_blockStart_eq]
  omega

/-! ### Positions in a block -/

theorem eq_of_blockStart_eq_of_offset_eq {v w : UInt16} (hblock : blockStart v = blockStart w)
    (hoffset : offset v = offset w) : v = w := by
  rw [blockStart_eq_iff] at hblock
  rw [← UInt16.toNat_inj, toNat_offset, toNat_offset] at hoffset
  rw [← UInt16.toNat_inj]
  omega

theorem exists_of_blockStart_of_offset {b : UInt16} (hb : blockStart b = b) (v : UInt16) :
    ∃ w, blockStart w = b ∧ offset w = offset v := by
  have hlt := b.toNat_lt
  rw [blockStart_eq_self_iff] at hb
  have hw : (UInt16.ofNat (b.toNat + v.toNat % 8)).toNat = b.toNat + v.toNat % 8 :=
    UInt16.toNat_ofNat_of_lt' (by simp only [UInt16.size]; omega)
  refine ⟨UInt16.ofNat (b.toNat + v.toNat % 8), ?_, ?_⟩
  · rw [← UInt16.toNat_inj, toNat_blockStart_eq, hw]
    omega
  · rw [← UInt16.toNat_inj, toNat_offset, toNat_offset, hw]
    omega

/-! ### Neighbouring blocks -/

theorem nextBlock?_eq (v : UInt16) :
    nextBlock? v = if v.toNat + 8 < UInt16.size then some (v + 8) else none := rfl

theorem nextBlock?_eq_some_iff {v w : UInt16} :
    nextBlock? v = some w ↔ w.toNat = v.toNat + 8 := by
  have hv := v.toNat_lt
  have hw := w.toNat_lt
  by_cases h : v.toNat + blockSide.toNat < UInt16.size
  · rw [nextBlock?, if_pos h, Option.some.injEq, ← UInt16.toNat_inj, UInt16.toNat_add]
    rw [toNat_blockSide] at h ⊢
    simp only [UInt16.size] at h
    omega
  · rw [nextBlock?, if_neg h]
    simp only [toNat_blockSide, UInt16.size] at h
    simp only [reduceCtorEq, false_iff]
    omega

theorem previousBlock?_eq_some_iff {v w : UInt16} :
    previousBlock? v = some w ↔ v.toNat = w.toNat + 8 := by
  have hv := v.toNat_lt
  by_cases h : blockSide ≤ v
  · rw [previousBlock?, if_pos h, Option.some.injEq, ← UInt16.toNat_inj,
      UInt16.toNat_sub_of_le _ _ h, toNat_blockSide]
    rw [UInt16.le_iff_toNat_le, toNat_blockSide] at h
    omega
  · rw [previousBlock?, if_neg h]
    rw [UInt16.le_iff_toNat_le, toNat_blockSide] at h
    simp only [reduceCtorEq, false_iff]
    omega

theorem nextBlock?_ne_self (v : UInt16) : nextBlock? v ≠ some v := by
  rw [Ne, nextBlock?_eq_some_iff]
  omega

theorem previousBlock?_ne_self (v : UInt16) : previousBlock? v ≠ some v := by
  rw [Ne, previousBlock?_eq_some_iff]
  omega

theorem previousBlock?_eq_some_iff_nextBlock? {v w : UInt16} :
    previousBlock? v = some w ↔ nextBlock? w = some v := by
  rw [previousBlock?_eq_some_iff, nextBlock?_eq_some_iff]

/-- A coordinate is the start of a block, if there is one at all. -/
def AtStart (v : Option UInt16) : Prop := ∀ w ∈ v, blockStart w = w

theorem atStart_some {v : UInt16} (h : blockStart v = v) : AtStart (some v) := by
  rintro w ⟨⟩
  exact h

theorem atStart_nextBlock? {v : UInt16} (hv : blockStart v = v) : AtStart (nextBlock? v) := by
  intro w hw
  rw [Option.mem_def, nextBlock?_eq_some_iff] at hw
  rw [blockStart_eq_self_iff] at hv ⊢
  omega

theorem atStart_previousBlock? {v : UInt16} (hv : blockStart v = v) :
    AtStart (previousBlock? v) := by
  intro w hw
  rw [Option.mem_def, previousBlock?_eq_some_iff] at hw
  rw [blockStart_eq_self_iff] at hv ⊢
  omega

end TileAtlas
