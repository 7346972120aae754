/-!
Sets kept as lists in increasing order.

Two elements that compare as equal count as the same element, even where they are different values:
of the two the set keeps the one that came first.
-/

namespace TileAtlas

/-- A set of elements, listed in increasing order. -/
structure SortedSet (α : Type) where
  toList : List α
  deriving DecidableEq, Repr

namespace SortedSet

variable {α : Type}

instance : EmptyCollection (SortedSet α) := ⟨⟨[]⟩⟩

instance : Inhabited (SortedSet α) := ⟨∅⟩

def size (s : SortedSet α) : Nat := s.toList.length

variable [Ord α]

/-- An element belongs to a set when the set lists one that compares as equal to it. -/
instance : Membership α (SortedSet α) where
  mem s a := ∃ b ∈ s.toList, compare a b = .eq

instance (a : α) (s : SortedSet α) : Decidable (a ∈ s) :=
  inferInstanceAs (Decidable (∃ b ∈ s.toList, compare a b = .eq))

/-- The set with `a` in its place, unless an equal element is there already. -/
def insert (s : SortedSet α) (a : α) : SortedSet α := ⟨go s.toList⟩
where
  go : List α → List α
    | [] => [a]
    | b :: l =>
      match compare a b with
      | .lt => a :: b :: l
      | .eq => b :: l
      | .gt => b :: go l

/-- The set without the element that is equal to `a`. -/
def erase (s : SortedSet α) (a : α) : SortedSet α := ⟨go s.toList⟩
where
  go : List α → List α
    | [] => []
    | b :: l =>
      match compare a b with
      | .lt => b :: l
      | .eq => l
      | .gt => b :: go l

theorem mem_iff {a : α} {s : SortedSet α} : a ∈ s ↔ ∃ b ∈ s.toList, compare a b = .eq := Iff.rfl

@[simp] theorem toList_insert (s : SortedSet α) (a : α) :
    (s.insert a).toList = insert.go a s.toList := rfl

@[simp] theorem toList_erase (s : SortedSet α) (a : α) :
    (s.erase a).toList = erase.go a s.toList := rfl

def Ordered (s : SortedSet α) : Prop := s.toList.Pairwise fun a b => compare a b = .lt

theorem ordered_empty : (∅ : SortedSet α).Ordered := List.Pairwise.nil

end SortedSet

end TileAtlas
