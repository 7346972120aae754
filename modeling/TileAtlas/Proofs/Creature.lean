import TileAtlas.Creature

/-!
The orders of handles.

All three orders are total, so sets of handles work with each of them. Two of
them tell any two handles apart; the one by number alone does not, and not
even handles of different kinds.
-/

namespace TileAtlas

instance : Std.OrientedOrd Kind where
  eq_swap {a b} := by cases a <;> cases b <;> rfl

instance : Std.TransOrd Kind where
  isLE_trans {a b c} := by cases a <;> cases b <;> cases c <;> decide

instance : Std.LawfulEqOrd Kind where
  eq_of_compare {a b} := by cases a <;> cases b <;> decide

namespace Handle

instance : Std.TransOrd (Handle .kindId) :=
  inferInstanceAs (Std.TransCmp (compareLex (compareOn kind) (compareOn id)))

instance : Std.TransOrd (Handle .idKind) :=
  inferInstanceAs (Std.TransCmp (compareLex (compareOn id) (compareOn kind)))

instance : Std.TransOrd (Handle .idOnly) :=
  inferInstanceAs (Std.TransCmp (compareOn id))

theorem eq_of_kind_of_id {order : HandleOrder} {a b : Handle order} (hkind : a.kind = b.kind)
    (hid : a.id = b.id) : a = b := by
  cases a
  cases b
  rw [mk.injEq]
  exact ⟨hkind, hid⟩

instance : Std.LawfulEqOrd (Handle .kindId) where
  eq_of_compare {a b} h := by
    obtain ⟨hkind, hid⟩ := Ordering.then_eq_eq.mp h
    exact eq_of_kind_of_id (Std.LawfulEqOrd.eq_of_compare hkind)
      (Std.LawfulEqOrd.eq_of_compare hid)

instance : Std.LawfulEqOrd (Handle .idKind) where
  eq_of_compare {a b} h := by
    obtain ⟨hid, hkind⟩ := Ordering.then_eq_eq.mp h
    exact eq_of_kind_of_id (Std.LawfulEqOrd.eq_of_compare hkind)
      (Std.LawfulEqOrd.eq_of_compare hid)

end Handle

end TileAtlas
