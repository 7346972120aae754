import TileAtlas.Text.Record

/-!
Kinds of creatures, and sets of kinds.

A set of kinds is a byte with one bit for each kind. The five other bits mean nothing to a search
but are kept, and shown, as they were given.
-/

namespace TileAtlas

inductive Kind where
  | player
  | monster
  | npc
  deriving DecidableEq, Ord, Repr

namespace Kind

def all : List Kind := [player, monster, npc]

/-- The kinds taken in turn, over and over. -/
def ofIndex (i : Nat) : Kind :=
  match i % 3 with
  | 0 => player
  | 1 => monster
  | _ => npc

def flag : Kind → UInt8
  | player => 1
  | monster => 2
  | npc => 4

def flagName : Kind → String
  | player => "PLAYERS"
  | monster => "MONSTERS"
  | npc => "NPCS"

def text : Kind → String
  | player => "Player"
  | monster => "Monster"
  | npc => "Npc"

end Kind

/-- A set of kinds, one bit for each. -/
structure KindSet where
  bits : UInt8
  deriving DecidableEq, Repr

namespace KindSet

def single (k : Kind) : KindSet := ⟨k.flag⟩

def all : KindSet := ⟨7⟩

instance : Inhabited KindSet := ⟨all⟩

instance : EmptyCollection KindSet := ⟨⟨0⟩⟩

instance : Union KindSet := ⟨fun a b => ⟨a.bits ||| b.bits⟩⟩

instance : Inter KindSet := ⟨fun a b => ⟨a.bits &&& b.bits⟩⟩

instance : SDiff KindSet := ⟨fun a b => ⟨a.bits &&& ~~~b.bits⟩⟩

instance : XorOp KindSet := ⟨fun a b => ⟨a.bits ^^^ b.bits⟩⟩

instance : Complement KindSet := ⟨fun a => ⟨~~~a.bits &&& all.bits⟩⟩

instance : HasSubset KindSet := ⟨fun a b => a ∩ b = a⟩

instance (a b : KindSet) : Decidable (a ⊆ b) := inferInstanceAs (Decidable (_ = _))

instance : Membership Kind KindSet := ⟨fun s k => single k ⊆ s⟩

instance (k : Kind) (s : KindSet) : Decidable (k ∈ s) := inferInstanceAs (Decidable (single k ⊆ s))

/-- The part of the set that means something. -/
def known (s : KindSet) : KindSet := s ∩ all

/-- The bits of the set that stand for no kind. -/
def unknown (s : KindSet) : KindSet := s \ all

/-- The set with exactly these bits, unless one of them stands for no kind. -/
def ofBits? (bits : UInt8) : Option KindSet :=
  if ⟨bits⟩ ⊆ all then some ⟨bits⟩ else none

def ofName? (name : String) : Option KindSet :=
  (Kind.all.find? fun k => k.flagName == name).map single

def kinds (s : KindSet) : List Kind := Kind.all.filter (· ∈ s)

/-- Sets of one kind each, and one more for the bits that stand for no kind, which make up the
set. -/
def parts (s : KindSet) : List KindSet :=
  s.kinds.map single ++ if s.unknown = ∅ then [] else [s.unknown]

/-- The names of the kinds in the set, with bars between them; bits that stand for no kind follow
in base sixteen. -/
def text (s : KindSet) : String :=
  let names := s.kinds.map Kind.flagName
  let rest := if s.unknown = ∅ then [] else [Text.hex s.unknown.bits.toNat]
  Text.wrapped "KindSet" <|
    if s = ∅ then Text.hex 0 else String.intercalate " | " (names ++ rest)

end KindSet

end TileAtlas
