import TileAtlas.Event
import TileAtlas.Proofs.Quadtree.Leaves
import TileAtlas.Proofs.Side

/-!
The log of new leaves.

The making of a leaf is reported once, with a flag for each side on which there
was a neighbour. `Log` says which notices there must be for a list of blocks,
block by block. Neighbours are linked when the later of them is made, so it is
the later one that knows of the link, and tells of it in the flag on the side
of the other. That is why the flags of a log are as many as the pairs of
neighbours.
-/

namespace TileAtlas

/-! ### Notices -/

structure Notice where
  leaf : LeafId
  x : UInt16
  y : UInt16
  north : Bool
  west : Bool
  south : Bool
  east : Bool

def Notice.event (n : Notice) : Event :=
  .leafCreated n.leaf n.x n.y n.north n.west n.south n.east

def Event.notice? : Event → Option Notice
  | .leafCreated leaf x y north west south east => some { leaf, x, y, north, west, south, east }
  | _ => none

namespace Notice

def corner (n : Notice) : UInt16 × UInt16 := (n.x, n.y)

def flag (n : Notice) : Side → Bool
  | .north => n.north
  | .west => n.west
  | .south => n.south
  | .east => n.east

def flags (n : Notice) : Nat := n.north.toNat + n.west.toNat + n.south.toNat + n.east.toNat

/-- The notices that there should be when a block is to have a leaf and these
blocks have theirs. -/
def Due (blocks : List (UInt16 × UInt16)) (block : UInt16 × UInt16) (notices : List Notice) :
    Prop :=
  block ∈ blocks ∧ notices = [] ∨
    block ∉ blocks ∧ ∃ n, notices = [n] ∧ n.leaf = .ofIndex blocks.length ∧ n.corner = block ∧
      ∀ s, n.flag s = true ↔ ∃ d ∈ blocks, s.Ahead 1 block d

theorem Due.length_le {blocks : List (UInt16 × UInt16)} {block : UInt16 × UInt16}
    {notices : List Notice} (h : Due blocks block notices) : notices.length ≤ 1 := by
  rcases h with ⟨-, rfl⟩ | ⟨-, n, rfl, -⟩
  · exact Nat.zero_le 1
  · exact Nat.le_refl 1

end Notice

theorem Event.filterMap_notice? (notices : List Notice) :
    (notices.map Notice.event).filterMap Event.notice? = notices := by
  rw [List.filterMap_map]
  exact List.filterMap_some

/-! ### Counting -/

section Counting

variable {α : Type} {p q : α → Bool} {l : List α}

theorem countP_cons_eq_add (a : α) : (a :: l).countP p = (p a).toNat + l.countP p := by
  rw [List.countP_cons, Nat.add_comm]
  cases p a <;> rfl

theorem countP_or (h : ∀ a ∈ l, ¬ (p a = true ∧ q a = true)) :
    l.countP (fun a => p a || q a) = l.countP p + l.countP q := by
  induction l with
  | nil => rfl
  | cons a l ih =>
      have hboth := h a List.mem_cons_self
      have hadd : (p a || q a).toNat = (p a).toNat + (q a).toNat := by
        cases hp : p a with
        | true =>
            rw [Bool.eq_false_iff.mpr fun hq => hboth ⟨hp, hq⟩]
            rfl
        | false =>
            rw [Bool.false_or]
            exact (Nat.zero_add _).symm
      rw [countP_cons_eq_add, countP_cons_eq_add, countP_cons_eq_add, hadd,
        ih fun b hb => h b (List.mem_cons_of_mem a hb)]
      omega

theorem countP_eq_toNat_any (hl : l.Nodup)
    (h : ∀ a ∈ l, ∀ b ∈ l, p a = true → p b = true → a = b) : l.countP p = (l.any p).toNat := by
  induction l with
  | nil => rfl
  | cons a l ih =>
      obtain ⟨ha, hl⟩ := List.nodup_cons.mp hl
      rw [countP_cons_eq_add, List.any_cons]
      cases hp : p a with
      | true =>
          have hnone : l.countP p = 0 := by
            rw [List.countP_eq_zero]
            intro b hb hpb
            have heq := h a List.mem_cons_self b (List.mem_cons_of_mem a hb) hp hpb
            exact ha (heq ▸ hb)
          rw [hnone]
          rfl
      | false =>
          rw [ih hl fun b hb c hc => h b (List.mem_cons_of_mem a hb) c (List.mem_cons_of_mem a hc)]
          exact Nat.zero_add _

end Counting

/-! ### Logs -/

/-- The notices of leaves that were made for these blocks, one after another. -/
inductive Log : List (UInt16 × UInt16) → List Notice → Prop
  | empty : Log [] []
  | note {blocks : List (UInt16 × UInt16)} {notices : List Notice} {n : Notice} :
      Log blocks notices → n.leaf = .ofIndex blocks.length →
      (∀ s, n.flag s = true ↔ ∃ d ∈ blocks, s.Ahead 1 n.corner d) →
      Log (blocks ++ [n.corner]) (notices ++ [n])

theorem Log.settle {blocks : List (UInt16 × UInt16)} {notices new : List Notice}
    {block : UInt16 × UInt16} (h : Log blocks notices) (hnew : Notice.Due blocks block new) :
    Log (settle blocks block) (notices ++ new) := by
  rcases hnew with ⟨hmem, rfl⟩ | ⟨hmem, n, rfl, hleaf, rfl, hflag⟩
  · rw [settle_of_mem hmem, List.append_nil]
    exact h
  · rw [settle_of_not_mem hmem]
    exact .note h hleaf hflag

namespace Log

variable {blocks : List (UInt16 × UInt16)} {notices : List Notice} {n : Notice} {i : Nat}

theorem map_corner (h : Log blocks notices) : notices.map Notice.corner = blocks := by
  induction h with
  | empty => rfl
  | note _ _ _ ih => rw [List.map_append, ih, List.map_singleton]

theorem length_eq (h : Log blocks notices) : notices.length = blocks.length := by
  rw [← h.map_corner, List.length_map]

theorem leaf_eq (h : Log blocks notices) (hn : notices[i]? = some n) : n.leaf = .ofIndex i := by
  induction h with
  | empty => cases hn
  | note h hleaf _ ih =>
      rw [List.getElem?_append] at hn
      split at hn
      · exact ih hn
      · rename_i hi
        rw [List.getElem?_singleton] at hn
        split at hn
        · obtain rfl := Option.some.inj hn
          rw [hleaf, ← h.length_eq]
          congr 1
          omega
        · cases hn

theorem flag_iff (h : Log blocks notices) (hn : notices[i]? = some n) (s : Side) :
    n.flag s = true ↔ ∃ m ∈ notices.take i, s.Ahead 1 n.corner m.corner := by
  induction h with
  | empty => cases hn
  | note h _ hflag ih =>
      rw [List.getElem?_append] at hn
      split at hn
      · rename_i hi
        rw [List.take_append_of_le_length (Nat.le_of_lt hi)]
        exact ih hn
      · rename_i hi
        rw [List.getElem?_singleton] at hn
        split at hn
        · rename_i hlast
          obtain rfl := Option.some.inj hn
          rw [hflag, ← h.map_corner, List.take_append_of_le_length (by omega),
            List.take_of_length_le (by omega)]
          simp only [List.mem_map, exists_exists_and_eq_and]
        · cases hn

theorem flag_of_ahead (h : Log blocks notices) {m : Notice} {j : Nat}
    (hn : notices[i]? = some n) (hm : notices[j]? = some m) {s : Side}
    (hahead : s.Ahead 1 n.corner m.corner) :
    (if i < j then m.flag s.opposite else n.flag s) = true := by
  have hearlier : ∀ {i j : Nat} {m : Notice}, j < i → notices[j]? = some m →
      m ∈ notices.take i := fun hlt hm =>
    List.mem_of_getElem? ((List.getElem?_take_of_lt hlt).trans hm)
  rcases Nat.lt_trichotomy i j with hlt | rfl | hlt
  · rw [if_pos hlt, h.flag_iff hm]
    exact ⟨n, hearlier hlt hn, Side.ahead_opposite_iff.mpr hahead⟩
  · obtain rfl := Option.some.inj (hn.symm.trans hm)
    exact absurd hahead Side.not_ahead_one_self
  · rw [if_neg (Nat.lt_asymm hlt), h.flag_iff hn]
    exact ⟨m, hearlier hlt hm, hahead⟩

/-- Neighbours tell of each other once. The blocks that have a neighbour on one
side are counted by the flags of those that came after the neighbour, and by
the opposite flags of the neighbours that came after them. -/
theorem countP_ahead (h : Log blocks notices) (hnodup : blocks.Nodup) (s : Side) :
    blocks.countP (fun c => ∃ d ∈ blocks, s.Ahead 1 c d) =
      notices.countP (·.flag s) + notices.countP (·.flag s.opposite) := by
  induction h with
  | empty => rfl
  | @note blocks notices n h _ hflag ih =>
      obtain ⟨hnodup, -, hdisjoint⟩ := List.nodup_append.mp hnodup
      have hnew : n.corner ∉ blocks := fun hmem =>
        hdisjoint _ hmem _ (List.mem_singleton_self _) rfl
      -- An old block has a new neighbour only where it had none.
      have hold : blocks.countP (fun c => ∃ d ∈ blocks ++ [n.corner], s.Ahead 1 c d) =
          blocks.countP (fun c => ∃ d ∈ blocks, s.Ahead 1 c d) +
            blocks.countP (fun c => s.Ahead 1 c n.corner) := by
        rw [← countP_or]
        · refine List.countP_congr fun c _ => ?_
          simp [or_and_right, exists_or]
        · rintro c - ⟨hc, hc'⟩
          obtain ⟨d, hd, hahead⟩ := of_decide_eq_true hc
          rw [hahead.unique (of_decide_eq_true hc')] at hd
          exact hnew hd
      have hback : blocks.any (fun c => s.Ahead 1 c n.corner) = n.flag s.opposite := by
        rw [Bool.eq_iff_iff, hflag, List.any_eq_true]
        simp only [decide_eq_true_eq, Side.ahead_opposite_iff]
      have hself : decide (∃ d ∈ blocks ++ [n.corner], s.Ahead 1 n.corner d) = n.flag s := by
        rw [Bool.eq_iff_iff, hflag, decide_eq_true_eq]
        simp [or_and_right, exists_or, Side.not_ahead_one_self]
      have hunique : ∀ c ∈ blocks, ∀ d ∈ blocks, decide (s.Ahead 1 c n.corner) = true →
          decide (s.Ahead 1 d n.corner) = true → c = d := by
        intro c _ d _ hc hd
        rw [decide_eq_true_eq, ← Side.ahead_opposite_iff] at hc hd
        exact hc.unique hd
      simp only [List.countP_append, hold, ih hnodup, countP_eq_toNat_any hnodup hunique, hback,
        countP_cons_eq_add, hself, List.countP_nil]
      omega

end Log

theorem Notice.sum_flags (notices : List Notice) :
    (notices.map flags).sum =
      (notices.countP (·.flag .south) + notices.countP (·.flag .north)) +
        (notices.countP (·.flag .east) + notices.countP (·.flag .west)) := by
  induction notices with
  | nil => rfl
  | cons n notices ih =>
      rw [List.map_cons, List.sum_cons, ih]
      simp only [countP_cons_eq_add, flags, flag]
      omega

end TileAtlas
