/-!
Names of branches and leaves. A tree keeps its branches and its leaves in two arrays, in the order
in which they were made; a name is a place in such an array, kept in a word of 32 bits.
-/

namespace TileAtlas

/-- The name of a branch: its place among the branches. -/
structure BranchId where
  word : UInt32
  deriving DecidableEq, Repr

/-- The name of a leaf: its place among the leaves, in the order in which they were made. -/
structure LeafId where
  word : UInt32
  deriving DecidableEq, Ord, Repr

namespace BranchId

def ofIndex (i : Nat) : BranchId := ⟨UInt32.ofNat i⟩

def index (id : BranchId) : Nat := id.word.toNat

theorem index_ofIndex {i : Nat} (h : i < UInt32.size) : (ofIndex i).index = i :=
  UInt32.toNat_ofNat_of_lt' h

theorem index_inj {a b : BranchId} : a.index = b.index ↔ a = b := by
  rw [BranchId.mk.injEq]
  exact UInt32.toNat_inj

end BranchId

namespace LeafId

def ofIndex (i : Nat) : LeafId := ⟨UInt32.ofNat i⟩

def index (id : LeafId) : Nat := id.word.toNat

theorem index_ofIndex {i : Nat} (h : i < UInt32.size) : (ofIndex i).index = i :=
  UInt32.toNat_ofNat_of_lt' h

theorem index_inj {a b : LeafId} : a.index = b.index ↔ a = b := by
  rw [LeafId.mk.injEq]
  exact UInt32.toNat_inj

end LeafId

end TileAtlas
