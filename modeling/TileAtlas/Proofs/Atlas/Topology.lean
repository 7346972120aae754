import TileAtlas.Proofs.Atlas.Effect
import TileAtlas.Proofs.Side

/-!
Where the leaves of an atlas lie, and how they hang together.

Two records of the same thing are kept apart in an atlas: the path by which a
leaf is found, and the corner which the leaf has stored. The links between
leaves are a third. They agree after every run of edits, in whatever order
the leaves were made.
-/

namespace TileAtlas

namespace Atlas

variable {τ κ : Type} {a : Atlas τ κ}

theorem leaf?_eq_some_iff {id : LeafId} {l : Leaf τ κ} :
    a.leaf? id = some l ↔ a.tree.leaf id = .ok l :=
  Quadtree.leaf_eq_ok_iff.symm

theorem lt_leaves_of_leaf? {id : LeafId} {l : Leaf τ κ} (h : a.leaf? id = some l) :
    id.index < a.counts.leaves :=
  Quadtree.lt_size_of_leaf (leaf?_eq_some_iff.mp h)

theorem roster_of_leaf? {P : Roster κ → Prop} (hs : a.tree.Sound)
    (hroster : ∀ u v, P (a.tree.body u v).roster) {id : LeafId} {l : Leaf τ κ}
    (hl : a.leaf? id = some l) : P l.roster := by
  have hleaf := leaf?_eq_some_iff.mp hl
  have hbody := hroster l.x l.y
  rwa [Quadtree.body_of_some (hs.locate_corner hleaf) hleaf] at hbody

/-! ### Blocks and their leaves -/

/-- The leaves of an atlas share out the map between them: each has its own
block of eight by eight points, and is found from these points and from
nowhere else. -/
structure Partitioned (a : Atlas τ κ) : Prop where
  answers (x y : UInt16) : ∃ found, a.leafAt? x y = .ok found
  reaches_iff (x y : UInt16) (id : LeafId) : a.leafAt? x y = .ok (some id) ↔
    id.index < a.counts.leaves ∧
      ∃ l, a.leaf? id = some l ∧ l.x = blockStart x ∧ l.y = blockStart y
  /-- The corner of a leaf is at a multiple of eight, so its block fits on the map. -/
  corner (id : LeafId) (l : Leaf τ κ) : a.leaf? id = some l →
    (8 ∣ l.x.toNat ∧ l.x.toNat + 8 ≤ UInt16.size) ∧ 8 ∣ l.y.toNat ∧ l.y.toNat + 8 ≤ UInt16.size
  block_iff (id : LeafId) (l : Leaf τ κ) (x y : UInt16) : a.leaf? id = some l →
    (a.leafAt? x y = .ok (some id) ↔
      (∃ i < 8, x.toNat = l.x.toNat + i) ∧ ∃ j < 8, y.toNat = l.y.toNat + j)
  distinct (i j : LeafId) (l m : Leaf τ κ) : a.leaf? i = some l → a.leaf? j = some m →
    i ≠ j → (l.x, l.y) ≠ (m.x, m.y)
  shares_iff (p q : Location) :
    (∃ id, a.leafAt? p.x p.y = .ok (some id) ∧ a.leafAt? q.x q.y = .ok (some id)) ↔
      (∃ id, a.leafAt? p.x p.y = .ok (some id)) ∧ p.SameBlock q

theorem reaches_iff_of_sound (hs : a.tree.Sound) {x y : UInt16} {id : LeafId} :
    a.leafAt? x y = .ok (some id) ↔
      ∃ l, a.leaf? id = some l ∧ l.x = blockStart x ∧ l.y = blockStart y := by
  rw [leafAt?, hs.locate_eq_some_iff]
  simp only [leaf?_eq_some_iff]

theorem blockStart_corner (hs : a.tree.Sound) {id : LeafId} {l : Leaf τ κ}
    (h : a.leaf? id = some l) : blockStart l.x = l.x ∧ blockStart l.y = l.y :=
  hs.aligned (leaf?_eq_some_iff.mp h)

theorem eq_of_corner_eq (hs : a.tree.Sound) {i j : LeafId} {l m : Leaf τ κ}
    (hl : a.leaf? i = some l) (hm : a.leaf? j = some m) (hx : l.x = m.x) (hy : l.y = m.y) :
    i = j := by
  have hi := hs.locate_corner (leaf?_eq_some_iff.mp hl)
  have hj := hs.locate_corner (leaf?_eq_some_iff.mp hm)
  rw [hx, hy, hj, Except.ok.injEq, Option.some.injEq] at hi
  exact hi.symm

theorem partitioned_of_sound (hs : a.tree.Sound) : a.Partitioned where
  answers x y := hs.locate_ok x y
  reaches_iff x y id := by
    rw [reaches_iff_of_sound hs]
    constructor
    · rintro ⟨l, hl, hxy⟩
      exact ⟨lt_leaves_of_leaf? hl, l, hl, hxy⟩
    · rintro ⟨-, hreached⟩
      exact hreached
  corner id l h := by
    obtain ⟨hx, hy⟩ := blockStart_corner hs h
    rw [blockStart_eq_self_iff] at hx hy
    have hxlt := l.x.toNat_lt
    have hylt := l.y.toNat_lt
    refine ⟨⟨Nat.dvd_of_mod_eq_zero hx, ?_⟩, Nat.dvd_of_mod_eq_zero hy, ?_⟩
    · simp only [UInt16.size]
      omega
    · simp only [UInt16.size]
      omega
  block_iff id l x y h := by
    obtain ⟨hx, hy⟩ := blockStart_corner hs h
    have hreached : a.leafAt? x y = .ok (some id) ↔ blockStart x = l.x ∧ blockStart y = l.y := by
      rw [reaches_iff_of_sound hs, h]
      simp only [Option.some.injEq, exists_eq_left', eq_comm]
    rw [hreached, blockStart_eq_iff_of_start hx, blockStart_eq_iff_of_start hy]
    refine and_congr ?_ ?_
    · exact ⟨fun h => ⟨x.toNat - l.x.toNat, by omega, by omega⟩, fun ⟨i, hi, h⟩ => by omega⟩
    · exact ⟨fun h => ⟨y.toNat - l.y.toNat, by omega, by omega⟩, fun ⟨j, hj, h⟩ => by omega⟩
  distinct i j l m hl hm hne := by
    intro hcorner
    obtain ⟨hx, hy⟩ := Prod.mk.inj hcorner
    exact hne (eq_of_corner_eq hs hl hm hx hy)
  shares_iff p q := by
    constructor
    · rintro ⟨id, hp, hq⟩
      exact ⟨⟨id, hp⟩, hs.blockStart_eq_of_locate hp hq⟩
    · rintro ⟨⟨id, hp⟩, hblock⟩
      exact ⟨id, hp, (Quadtree.locate_congr hblock.1.symm hblock.2.symm).trans hp⟩

/-- After every run of edits the leaves lie where their corners say. -/
theorem replay_partitioned [Creature κ] (edits : List (Edit τ κ)) :
    ∃ h, ({} : History τ κ).replay edits = .ok h ∧ h.atlas.Partitioned := by
  obtain ⟨h, hreplay, hs⟩ := History.replay_sound edits
  exact ⟨h, hreplay, partitioned_of_sound hs⟩

/-! ### Links

A chain of links is as good as a walk: it leads exactly as far as there are
leaves without a gap, and a link counts for one block. -/

/-- A side on which leaves are linked. -/
structure Heading where
  side : Side
  linked : side = .south ∨ side = .east

def Heading.south : Heading := ⟨.south, .inl rfl⟩

def Heading.east : Heading := ⟨.east, .inr rfl⟩

def Heading.link (w : Heading) (l : Leaf τ κ) : Option LeafId :=
  if w.side = .south then l.south else l.east

theorem locate?_next? (hs : a.tree.Sound) {id : LeafId} {l : Leaf τ κ} (hl : a.leaf? id = some l)
    (w : Heading) :
    a.tree.locate? (w.side.next? (l.x, l.y)).1 (w.side.next? (l.x, l.y)).2 = .ok (w.link l) := by
  obtain ⟨heast, hsouth⟩ := hs.linked (leaf?_eq_some_iff.mp hl)
  obtain ⟨side, rfl | rfl⟩ := w
  · exact hsouth
  · exact heast

def follow (a : Atlas τ κ) (w : Heading) : Nat → LeafId → Option LeafId
  | 0, id => some id
  | k + 1, id => (a.leaf? id).bind w.link >>= a.follow w k

/-- The links of an atlas are what a descent from the root would find: a leaf
is linked with every neighbour that it has to the east and to the south, and
with nothing else. -/
structure Stitched (a : Atlas τ κ) : Prop where
  east (id : LeafId) (l : Leaf τ κ) : a.leaf? id = some l →
    if l.x.toNat + 8 < UInt16.size then a.leafAt? (l.x + 8) l.y = .ok l.east else l.east = none
  south (id : LeafId) (l : Leaf τ κ) : a.leaf? id = some l →
    if l.y.toNat + 8 < UInt16.size then a.leafAt? l.x (l.y + 8) = .ok l.south else l.south = none
  link_iff (w : Heading) (i j : LeafId) (l : Leaf τ κ) : a.leaf? i = some l →
    (w.link l = some j ↔ ∃ m, a.leaf? j = some m ∧ w.side.Ahead 1 (l.x, l.y) (m.x, m.y))
  follow_iff (w : Heading) (k : Nat) (i j : LeafId) (l : Leaf τ κ) : a.leaf? i = some l →
    (a.follow w k i = some j ↔ (∃ m, a.leaf? j = some m ∧ w.side.Ahead k (l.x, l.y) (m.x, m.y)) ∧
      ∀ n < k, ∃ id m, a.leaf? id = some m ∧ w.side.Ahead n (l.x, l.y) (m.x, m.y))

theorem link_eq_some_iff (hs : a.tree.Sound) {w : Heading} {i j : LeafId} {l : Leaf τ κ}
    (hl : a.leaf? i = some l) :
    w.link l = some j ↔ ∃ m, a.leaf? j = some m ∧ w.side.Ahead 1 (l.x, l.y) (m.x, m.y) := by
  obtain ⟨address, hc, -⟩ := hs.charted
  obtain ⟨hx, hy⟩ := blockStart_corner hs hl
  obtain ⟨hu, hv⟩ := Side.atStart_next? hx hy w.side
  have hfound : w.link l = some j ↔
      a.tree.locate? (w.side.next? (l.x, l.y)).1 (w.side.next? (l.x, l.y)).2 = .ok (some j) := by
    rw [locate?_next? hs hl w, Except.ok.injEq]
  rw [hfound, hc.locate?_eq_some_iff hu hv]
  simp only [leaf?_eq_some_iff, ← Side.next?_eq_some_iff]

theorem follow_succ_eq_some_iff {w : Heading} {k : Nat} {i j : LeafId} {l : Leaf τ κ}
    (hl : a.leaf? i = some l) :
    a.follow w (k + 1) i = some j ↔ ∃ i', w.link l = some i' ∧ a.follow w k i' = some j := by
  rw [follow, hl]
  exact Option.bind_eq_some_iff

/-- A chain of links leads to the leaf as many blocks further, and needs all
the leaves in between. -/
theorem follow_eq_some_iff (hs : a.tree.Sound) {w : Heading} {k : Nat} {i j : LeafId}
    {l : Leaf τ κ} (hl : a.leaf? i = some l) :
    a.follow w k i = some j ↔ (∃ m, a.leaf? j = some m ∧ w.side.Ahead k (l.x, l.y) (m.x, m.y)) ∧
      ∀ n < k, ∃ id m, a.leaf? id = some m ∧ w.side.Ahead n (l.x, l.y) (m.x, m.y) := by
  induction k generalizing i l with
  | zero =>
      rw [follow, Option.some.injEq]
      constructor
      · rintro rfl
        exact ⟨⟨l, hl, Side.ahead_zero_iff.mpr rfl⟩, nofun⟩
      · rintro ⟨⟨m, hm, hlm⟩, -⟩
        obtain ⟨hx, hy⟩ := Prod.mk.inj (Side.ahead_zero_iff.mp hlm)
        exact eq_of_corner_eq hs hl hm hx.symm hy.symm
  | succ k ih =>
      rw [follow_succ_eq_some_iff hl]
      constructor
      · rintro ⟨i', hlink, hfollow⟩
        obtain ⟨m, hm, hlm⟩ := (link_eq_some_iff hs hl).mp hlink
        obtain ⟨⟨n, hn, hmn⟩, hbetween⟩ := (ih hm).mp hfollow
        refine ⟨⟨n, hn, ?_⟩, fun d hd => ?_⟩
        · rw [Nat.add_comm]
          exact (Side.ahead_add_iff hlm).mpr hmn
        cases d with
        | zero => exact ⟨i, l, hl, Side.ahead_zero_iff.mpr rfl⟩
        | succ d =>
            obtain ⟨id, o, ho, hmo⟩ := hbetween d (Nat.lt_of_succ_lt_succ hd)
            refine ⟨id, o, ho, ?_⟩
            rw [Nat.add_comm]
            exact (Side.ahead_add_iff hlm).mpr hmo
      · rintro ⟨⟨n, hn, hln⟩, hbetween⟩
        -- The first link leads to a leaf in between, or straight to the last one.
        have hnear : ∃ i' m, a.leaf? i' = some m ∧ w.side.Ahead 1 (l.x, l.y) (m.x, m.y) := by
          cases k with
          | zero => exact ⟨j, n, hn, hln⟩
          | succ k => exact hbetween 1 (by omega)
        obtain ⟨i', m, hm, hlm⟩ := hnear
        refine ⟨i', (link_eq_some_iff hs hl).mpr ⟨m, hm, hlm⟩, (ih hm).mpr ⟨⟨n, hn, ?_⟩, ?_⟩⟩
        · rw [Nat.add_comm] at hln
          exact (Side.ahead_add_iff hlm).mp hln
        · intro d hd
          obtain ⟨id, o, ho, hlo⟩ := hbetween (d + 1) (Nat.succ_lt_succ hd)
          rw [Nat.add_comm] at hlo
          exact ⟨id, o, ho, (Side.ahead_add_iff hlm).mp hlo⟩

theorem stitched_of_sound (hs : a.tree.Sound) : a.Stitched where
  east id l hl := by
    have heast := (hs.linked (leaf?_eq_some_iff.mp hl)).1
    rw [nextBlock?_eq] at heast
    split_ifs at heast ⊢
    · exact heast
    · exact (Except.ok.inj heast).symm
  south id l hl := by
    have hsouth := (hs.linked (leaf?_eq_some_iff.mp hl)).2
    rw [nextBlock?_eq] at hsouth
    split_ifs at hsouth ⊢
    · exact hsouth
    · exact (Except.ok.inj hsouth).symm
  link_iff _ _ _ _ hl := link_eq_some_iff hs hl
  follow_iff _ _ _ _ _ hl := follow_eq_some_iff hs hl

/-- After every run of edits all links are there, and lead where they should. -/
theorem replay_stitched [Creature κ] (edits : List (Edit τ κ)) :
    ∃ h, ({} : History τ κ).replay edits = .ok h ∧ h.atlas.Stitched := by
  obtain ⟨h, hreplay, hs⟩ := History.replay_sound edits
  exact ⟨h, hreplay, stitched_of_sound hs⟩

end Atlas

end TileAtlas
