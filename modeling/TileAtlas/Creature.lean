import TileAtlas.Kind

/-!
Creatures as an atlas sees them: handles with an order and a kind.

The order decides which handles count as the same creature. `Handle` is a handle made of a kind
and a number, under one of three orders; the third of them compares numbers only and so takes
handles of different kinds for the same creature.
-/

namespace TileAtlas

class Creature (κ : Type) extends Ord κ where
  kind : κ → Kind

inductive HandleOrder where
  | kindId
  | idKind
  | idOnly
  deriving DecidableEq, Repr

/-- A kind and a number, compared as `order` says. -/
structure Handle (order : HandleOrder) where
  kind : Kind
  id : UInt32
  deriving DecidableEq, Repr

namespace Handle

variable {order : HandleOrder}

def compare (a b : Handle order) : Ordering :=
  match order with
  | .kindId => (Ord.compare a.kind b.kind).then (Ord.compare a.id b.id)
  | .idKind => (Ord.compare a.id b.id).then (Ord.compare a.kind b.kind)
  | .idOnly => Ord.compare a.id b.id

instance : Creature (Handle order) where
  compare := compare
  kind := Handle.kind

def text (h : Handle order) : String :=
  (match h.kind with
    | .player => "p"
    | .monster => "m"
    | .npc => "n") ++ toString h.id.toNat

end Handle

end TileAtlas
