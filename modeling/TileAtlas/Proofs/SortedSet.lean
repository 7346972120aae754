import Mathlib.Data.List.Sort
import TileAtlas.SortedSet

/-!
What insertion and removal do to the list of a sorted set.

The order may take different values for the same element, so two notions of
membership are kept apart: an element that is listed, and an element that is
equal to a listed one. Insertion and removal look for the second and change
the first.
-/

namespace TileAtlas

namespace SortedSet

variable {α : Type} [Ord α] [Std.TransOrd α] {a b : α} {l : List α} {s : SortedSet α}

/-! ### Lists in order -/

instance : Std.Irrefl fun a b : α => compare a b = .lt where
  irrefl a hlt := by
    rw [Std.ReflOrd.compare_self] at hlt
    cases hlt

instance : Std.Antisymm fun a b : α => compare a b = .lt where
  antisymm a b hab hba := by
    rw [Std.OrientedCmp.gt_of_lt hab] at hba
    cases hba

theorem lt_of_lt_head {d : α} (hlt : compare a d = .lt) (hd : ∀ c ∈ l, compare d c = .lt) :
    ∀ c ∈ d :: l, compare a c = .lt := by
  intro c hc
  rcases List.mem_cons.mp hc with rfl | hc
  · exact hlt
  · exact Std.TransCmp.lt_trans hlt (hd c hc)

theorem mem_insertGo_iff (hl : l.Pairwise fun a b => compare a b = .lt) :
    b ∈ insert.go a l ↔ b ∈ l ∨ b = a ∧ ∀ c ∈ l, compare a c ≠ .eq := by
  induction l with
  | nil => simp [insert.go]
  | cons d l ih =>
      obtain ⟨hd, hl⟩ := List.pairwise_cons.mp hl
      cases hcmp : compare a d with
      | lt =>
          have hfar : ∀ c ∈ d :: l, compare a c ≠ .eq := by
            intro c hc
            rw [lt_of_lt_head hcmp hd c hc]
            exact nofun
          rw [insert.go, hcmp, List.mem_cons, or_comm]
          exact or_congr Iff.rfl (and_iff_left hfar).symm
      | eq =>
          rw [insert.go, hcmp]
          simp [hcmp]
      | gt =>
          rw [insert.go, hcmp, List.mem_cons, ih hl]
          simp [hcmp, or_assoc]

theorem pairwise_insertGo (hl : l.Pairwise fun a b => compare a b = .lt) :
    (insert.go a l).Pairwise fun a b => compare a b = .lt := by
  induction l with
  | nil => exact List.pairwise_singleton _ a
  | cons d l ih =>
      obtain ⟨hd, hl'⟩ := List.pairwise_cons.mp hl
      cases hcmp : compare a d with
      | lt =>
          rw [insert.go, hcmp]
          exact List.pairwise_cons.mpr ⟨lt_of_lt_head hcmp hd, hl⟩
      | eq =>
          rw [insert.go, hcmp]
          exact hl
      | gt =>
          rw [insert.go, hcmp]
          refine List.pairwise_cons.mpr ⟨fun c hc => ?_, ih hl'⟩
          rcases (mem_insertGo_iff hl').mp hc with hc | ⟨rfl, -⟩
          · exact hd c hc
          · exact Std.OrientedCmp.lt_of_gt hcmp

theorem mem_eraseGo_iff (hl : l.Pairwise fun a b => compare a b = .lt) :
    b ∈ erase.go a l ↔ b ∈ l ∧ compare a b ≠ .eq := by
  induction l with
  | nil => simp [erase.go]
  | cons d l ih =>
      obtain ⟨hd, hl⟩ := List.pairwise_cons.mp hl
      cases hcmp : compare a d with
      | lt =>
          rw [erase.go, hcmp]
          refine (and_iff_left_of_imp fun hb => ?_).symm
          rw [lt_of_lt_head hcmp hd b hb]
          exact nofun
      | eq =>
          have hfar : b ∈ l → compare a b ≠ .eq := by
            intro hb
            rw [Std.TransCmp.lt_of_eq_of_lt hcmp (hd b hb)]
            exact nofun
          rw [erase.go, hcmp, List.mem_cons]
          constructor
          · intro hb
            exact ⟨.inr hb, hfar hb⟩
          · rintro ⟨rfl | hb, hne⟩
            · exact absurd hcmp hne
            · exact hb
      | gt =>
          have hne : b = d → compare a b ≠ .eq := by
            rintro rfl
            rw [hcmp]
            exact nofun
          rw [erase.go, hcmp, List.mem_cons, ih hl, List.mem_cons, or_and_right,
            and_iff_left_of_imp hne]

omit [Std.TransOrd α] in
theorem eraseGo_sublist (a : α) (l : List α) : (erase.go a l).Sublist l := by
  induction l with
  | nil => exact List.Sublist.refl _
  | cons d l ih =>
      cases hcmp : compare a d with
      | lt => simp [erase.go, hcmp]
      | eq => simp [erase.go, hcmp]
      | gt =>
          rw [erase.go, hcmp]
          exact ih.cons_cons d

omit [Std.TransOrd α] in
theorem length_insertGo (h : ∀ c ∈ l, compare a c ≠ .eq) :
    (insert.go a l).length = l.length + 1 := by
  induction l with
  | nil => rfl
  | cons d l ih =>
      obtain ⟨hd, hl⟩ := List.forall_mem_cons.mp h
      cases hcmp : compare a d with
      | lt => simp [insert.go, hcmp]
      | eq => exact absurd hcmp hd
      | gt => simp [insert.go, hcmp, ih hl]

theorem length_eraseGo (hl : l.Pairwise fun a b => compare a b = .lt)
    (h : ∃ c ∈ l, compare a c = .eq) : (erase.go a l).length + 1 = l.length := by
  induction l with
  | nil => simp at h
  | cons d l ih =>
      obtain ⟨hd, hl⟩ := List.pairwise_cons.mp hl
      obtain ⟨c, hc, heq⟩ := h
      cases hcmp : compare a d with
      | lt =>
          -- Everything in the list is greater, so nothing in it is equal.
          rw [lt_of_lt_head hcmp hd c hc] at heq
          cases heq
      | eq => simp [erase.go, hcmp]
      | gt =>
          rcases List.mem_cons.mp hc with rfl | hc
          · rw [hcmp] at heq
            cases heq
          · simp [erase.go, hcmp, ih hl ⟨c, hc, heq⟩]

/-! ### Sets -/

theorem mem_of_mem_toList (h : a ∈ s.toList) : a ∈ s := ⟨a, h, Std.ReflCmp.compare_self⟩

theorem mem_iff_mem_toList [Std.LawfulEqOrd α] : a ∈ s ↔ a ∈ s.toList := by
  constructor
  · rintro ⟨b, hb, heq⟩
    rw [Std.LawfulEqOrd.eq_of_compare heq]
    exact hb
  · exact mem_of_mem_toList

/-- Insertion lists the new element, unless an equal one is there. -/
theorem Ordered.mem_insert_iff (h : s.Ordered) :
    b ∈ (s.insert a).toList ↔ b ∈ s.toList ∨ b = a ∧ a ∉ s := by
  rw [toList_insert, mem_insertGo_iff h, mem_iff]
  simp only [not_exists, not_and, ne_eq]

/-- Removal strikes out whatever is equal to the element. -/
theorem Ordered.mem_erase_iff (h : s.Ordered) :
    b ∈ (s.erase a).toList ↔ b ∈ s.toList ∧ compare a b ≠ .eq := by
  rw [toList_erase, mem_eraseGo_iff h]

/-! Membership, which does not tell equal elements apart, is simpler. -/

theorem mem_congr (h : compare a b = .eq) : a ∈ s ↔ b ∈ s := by
  constructor
  · rintro ⟨c, hc, heq⟩
    exact ⟨c, hc, Std.TransCmp.eq_trans (Std.OrientedCmp.eq_symm h) heq⟩
  · rintro ⟨c, hc, heq⟩
    exact ⟨c, hc, Std.TransCmp.eq_trans h heq⟩

theorem Ordered.mem_insert_self (h : s.Ordered) (a : α) : a ∈ s.insert a := by
  by_cases ha : a ∈ s
  · obtain ⟨b, hb, heq⟩ := ha
    exact ⟨b, h.mem_insert_iff.mpr (.inl hb), heq⟩
  · exact mem_of_mem_toList (h.mem_insert_iff.mpr (.inr ⟨rfl, ha⟩))

theorem Ordered.mem_insert_of_mem (h : s.Ordered) (hb : b ∈ s) : b ∈ s.insert a := by
  obtain ⟨c, hc, heq⟩ := hb
  exact ⟨c, h.mem_insert_iff.mpr (.inl hc), heq⟩

theorem Ordered.mem_erase_of_mem (h : s.Ordered) (hb : b ∈ s) (hne : compare a b ≠ .eq) :
    b ∈ s.erase a := by
  obtain ⟨c, hc, heq⟩ := hb
  refine ⟨c, h.mem_erase_iff.mpr ⟨hc, fun hac => hne ?_⟩, heq⟩
  exact Std.TransCmp.eq_trans hac (Std.OrientedCmp.eq_symm heq)

theorem Ordered.not_mem_erase_self (h : s.Ordered) (a : α) : a ∉ s.erase a := by
  rintro ⟨b, hb, heq⟩
  exact (h.mem_erase_iff.mp hb).2 heq

theorem Ordered.insert (h : s.Ordered) (a : α) : (s.insert a).Ordered := pairwise_insertGo h

omit [Std.TransOrd α] in
theorem Ordered.erase (h : s.Ordered) (a : α) : (s.erase a).Ordered :=
  h.sublist (eraseGo_sublist a s.toList)

omit [Std.TransOrd α] in
theorem size_insert (h : a ∉ s) : (s.insert a).size = s.size + 1 :=
  length_insertGo fun c hc heq => h ⟨c, hc, heq⟩

theorem Ordered.size_erase (hs : s.Ordered) (h : a ∈ s) : (s.erase a).size + 1 = s.size :=
  length_eraseGo hs h

theorem Ordered.nodup (h : s.Ordered) : s.toList.Nodup := List.Pairwise.nodup h

theorem Ordered.eq {s' : SortedSet α} (h : s.Ordered) (h' : s'.Ordered)
    (hmem : ∀ a, a ∈ s.toList ↔ a ∈ s'.toList) : s = s' :=
  congrArg SortedSet.mk (List.Pairwise.eq_of_mem_iff h h' hmem)

end SortedSet

end TileAtlas
