import TileAtlas.Creature
import TileAtlas.SortedSet

/-!
The creatures of one block: all of them in one set, and those of each kind in a set of their own.

The set of all creatures decides whether someone is present. The sets by kind follow it: whenever
a handle enters or leaves, the set of that handle's kind changes with it. With orders that take
handles of different kinds for the same creature, a handle that leaves may therefore be of another
kind than the one that was stored, and the stored one then stays behind in its own kind's set.
-/

namespace TileAtlas

/-- Sets of creatures: everyone, and everyone of each kind. -/
structure Roster (κ : Type) where
  creatures : SortedSet κ := ∅
  players : SortedSet κ := ∅
  monsters : SortedSet κ := ∅
  npcs : SortedSet κ := ∅
  deriving DecidableEq, Repr, Inhabited

namespace Roster

variable {κ : Type}

def ofKind (r : Roster κ) : Kind → SortedSet κ
  | .player => r.players
  | .monster => r.monsters
  | .npc => r.npcs

def modifyKind (r : Roster κ) (k : Kind) (f : SortedSet κ → SortedSet κ) : Roster κ :=
  match k with
  | .player => { r with players := f r.players }
  | .monster => { r with monsters := f r.monsters }
  | .npc => { r with npcs := f r.npcs }

@[simp] theorem creatures_modifyKind (r : Roster κ) (k : Kind) (f : SortedSet κ → SortedSet κ) :
    (r.modifyKind k f).creatures = r.creatures := by
  cases k <;> rfl

@[simp] theorem ofKind_modifyKind_self (r : Roster κ) (k : Kind)
    (f : SortedSet κ → SortedSet κ) : (r.modifyKind k f).ofKind k = f (r.ofKind k) := by
  cases k <;> rfl

theorem ofKind_modifyKind_of_ne (r : Roster κ) {j k : Kind} (h : j ≠ k)
    (f : SortedSet κ → SortedSet κ) : (r.modifyKind k f).ofKind j = r.ofKind j := by
  cases j <;> cases k <;> simp_all [ofKind, modifyKind]

/-- The creatures of the chosen kinds. When every kind is chosen they come in the order of their
handles; otherwise kind by kind, and in the order of their handles within a kind. -/
def members (r : Roster κ) (kinds : KindSet) : List κ :=
  if KindSet.all ⊆ kinds then r.creatures.toList
  else kinds.kinds.flatMap fun k => (r.ofKind k).toList

variable [Creature κ]

/-- The roster with one more creature, unless an equal handle is present. -/
def insert? (r : Roster κ) (c : κ) : Option (Roster κ) :=
  if c ∈ r.creatures then none
  else
    some ({ r with creatures := r.creatures.insert c }.modifyKind (Creature.kind c) (·.insert c))

def erase? (r : Roster κ) (c : κ) : Option (Roster κ) :=
  if c ∈ r.creatures then
    some ({ r with creatures := r.creatures.erase c }.modifyKind (Creature.kind c) (·.erase c))
  else none

end Roster

end TileAtlas
