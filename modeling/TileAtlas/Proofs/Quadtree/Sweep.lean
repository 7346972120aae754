import TileAtlas.Proofs.Area
import TileAtlas.Proofs.Quadtree.Contents
import TileAtlas.Quadtree.Sweep

/-!
The sweep stops where a descent from the root would lead.

At each stop the next leaf comes from one of three places: a link to the east,
a link to the south from the first stop of a row, or a descent. The invariant
is that the name carried to a stop is the one a descent would find there, as
long as the stop lies inside the area; beyond it the name may be anything, and
is not used. The numbers of stops in a row and of rows are the recursion
arguments.
-/

namespace TileAtlas

namespace Quadtree

variable {τ κ : Type} {t : Quadtree τ κ}

/-- The leaves of the blocks that an area touches, each looked up from the
root. -/
def survey (t : Quadtree τ κ) (area : Area) : Except Fault (List (LeafId × Leaf τ κ)) := do
  let found ← area.blocks.mapM fun (x, y) => t.locate x y
  (found.filterMap id).mapM fun id => return (id, ← t.leaf id)

/-- The leaves that the blocks of an area have, with their names. -/
def entries (t : Quadtree τ κ) (area : Area) : List (LeafId × Leaf τ κ) :=
  area.blocks.filterMap fun p => t.lookup? p.1 p.2

/-! ### Stops -/

/-- The name of the leaf of a block, given by the numbers of its start. -/
def nameAt (t : Quadtree τ κ) (x y : Nat) : Option LeafId :=
  (t.lookup? (UInt16.ofNat x) (UInt16.ofNat y)).map Prod.fst

def hopAt (t : Quadtree τ κ) (x y : Nat) : Hop := { x, y, leaf := t.nameAt x y }

namespace Sound

theorem locateWide_ok (hs : t.Sound) {x y : Nat} (hx : x < UInt16.size) (hy : y < UInt16.size) :
    t.locateWide x y = .ok (t.nameAt x y) := by
  rw [locateWide, if_pos ⟨hx, hy⟩, hs.locate_eq, nameAt]

theorem leaf_of_nameAt (hs : t.Sound) {x y : Nat} (hx : x < UInt16.size) (hy : y < UInt16.size)
    (hx8 : x % 8 = 0) (hy8 : y % 8 = 0) {id : LeafId} (h : t.nameAt x y = some id) :
    ∃ l, t.leaf id = .ok l ∧ l.x.toNat = x ∧ l.y.toNat = y := by
  obtain ⟨⟨_, l⟩, hentry, rfl⟩ := Option.map_eq_some_iff.mp h
  obtain ⟨hl, hlx, hly⟩ := hs.lookup?_eq_some_iff.mp hentry
  refine ⟨l, hl, ?_, ?_⟩
  · rw [hlx, toNat_blockStart_eq, UInt16.toNat_ofNat_of_lt' hx]
    omega
  · rw [hly, toNat_blockStart_eq, UInt16.toNat_ofNat_of_lt' hy]
    omega

/-- Links carry the name of the next block along, as far as there is one. -/
theorem links_eq_nameAt (hs : t.Sound) {id : LeafId} {l : Leaf τ κ} (hl : t.leaf id = .ok l) :
    (l.x.toNat + 8 < UInt16.size → l.east = t.nameAt (l.x.toNat + 8) l.y.toNat) ∧
      (l.y.toNat + 8 < UInt16.size → l.south = t.nameAt l.x.toNat (l.y.toNat + 8)) := by
  obtain ⟨heast, hsouth⟩ := hs.linked hl
  constructor
  · intro hx
    have hnext : nextBlock? l.x = some (UInt16.ofNat (l.x.toNat + 8)) := by
      rw [nextBlock?_eq_some_iff, UInt16.toNat_ofNat_of_lt' hx]
    rw [hnext, locate?, hs.locate_eq, Except.ok.injEq] at heast
    rw [nameAt, UInt16.ofNat_toNat, heast]
  · intro hy
    have hnext : nextBlock? l.y = some (UInt16.ofNat (l.y.toNat + 8)) := by
      rw [nextBlock?_eq_some_iff, UInt16.toNat_ofNat_of_lt' hy]
    rw [hnext, locate?, hs.locate_eq, Except.ok.injEq] at hsouth
    rw [nameAt, UInt16.ofNat_toNat, hsouth]

theorem eastOf_ok (hs : t.Sound) {x y last : Nat} (hlast : last < UInt16.size) (hx : x ≤ last)
    (hy : y < UInt16.size) (hx8 : x % 8 = 0) (hy8 : y % 8 = 0) :
    ∃ leaf, t.eastOf last (t.hopAt x y) = .ok leaf ∧
      (x + 8 ≤ last → leaf = t.nameAt (x + 8) y) := by
  cases hname : t.nameAt x y with
  | none =>
      by_cases hnext : x + 8 ≤ last
      · refine ⟨t.nameAt (x + 8) y, ?_, fun _ => rfl⟩
        rw [eastOf, hopAt, hname]
        exact (if_pos hnext).trans (hs.locateWide_ok (Nat.lt_of_le_of_lt hnext hlast) hy)
      · refine ⟨none, ?_, fun h => absurd h hnext⟩
        rw [eastOf, hopAt, hname]
        exact if_neg hnext
  | some id =>
      obtain ⟨l, hl, rfl, rfl⟩ := hs.leaf_of_nameAt (by omega) hy hx8 hy8 hname
      refine ⟨l.east, ?_, fun hnext => (hs.links_eq_nameAt hl).1 (by omega)⟩
      rw [eastOf, hopAt, hname]
      simp only [hl, bind, Except.bind]
      rfl

theorem southOf_ok (hs : t.Sound) {x y last : Nat} (hlast : last < UInt16.size) (hy : y ≤ last)
    (hx : x < UInt16.size) (hx8 : x % 8 = 0) (hy8 : y % 8 = 0) :
    ∃ leaf, t.southOf last (t.hopAt x y) = .ok leaf ∧
      (y + 8 ≤ last → leaf = t.nameAt x (y + 8)) := by
  cases hname : t.nameAt x y with
  | none =>
      by_cases hnext : y + 8 ≤ last
      · refine ⟨t.nameAt x (y + 8), ?_, fun _ => rfl⟩
        rw [southOf, hopAt, hname]
        exact (if_pos hnext).trans (hs.locateWide_ok hx (Nat.lt_of_le_of_lt hnext hlast))
      · refine ⟨none, ?_, fun h => absurd h hnext⟩
        rw [southOf, hopAt, hname]
        exact if_neg hnext
  | some id =>
      obtain ⟨l, hl, rfl, rfl⟩ := hs.leaf_of_nameAt hx (by omega) hx8 hy8 hname
      refine ⟨l.south, ?_, fun hnext => (hs.links_eq_nameAt hl).2 (by omega)⟩
      rw [southOf, hopAt, hname]
      simp only [hl, bind, Except.bind]
      rfl

/-! ### Rows and areas -/

/-- A row has one stop at each block, and each stop has the leaf that is there. -/
theorem sweepRow_ok (hs : t.Sound) {y last n : Nat} (hlast : last < UInt16.size)
    (hy : y < UInt16.size) (hy8 : y % 8 = 0) {x : Nat} (hx8 : x % 8 = 0)
    (hn : (last + 8 - x) / 8 = n) {leaf : Option LeafId}
    (hleaf : x ≤ last → leaf = t.nameAt x y) :
    t.sweepRow last { x, y, leaf } = .ok ((List.range' x n 8).map fun x => t.hopAt x y) := by
  induction n generalizing x leaf with
  | zero =>
      have hx : ¬ x ≤ last := by omega
      rw [sweepRow, if_neg hx]
      rfl
  | succ n ih =>
      have hx : x ≤ last := by omega
      obtain ⟨next, heast, hnext⟩ := hs.eastOf_ok hlast hx hy hx8 hy8
      have hhop : ({ x, y, leaf } : Hop) = t.hopAt x y := by rw [hopAt, hleaf hx]
      have hrest : t.sweepRow last
          { x := (t.hopAt x y).x + blockSide.toNat, y := (t.hopAt x y).y, leaf := next } = .ok _ :=
        ih (x := x + 8) (by omega) (by omega) hnext
      rw [hhop, sweepRow]
      refine (if_pos hx).trans ?_
      simp only [heast, hrest, bind, Except.bind]
      rfl

theorem sweepRows_ok (hs : t.Sound) {x lastX lastY m n : Nat} (hlastX : lastX < UInt16.size)
    (hlastY : lastY < UInt16.size) (hx : x < UInt16.size) (hx8 : x % 8 = 0)
    (hn : (lastX + 8 - x) / 8 = n) {y : Nat} (hy8 : y % 8 = 0) (hm : (lastY + 8 - y) / 8 = m)
    {leaf : Option LeafId} (hleaf : y ≤ lastY → leaf = t.nameAt x y) :
    t.sweepRows lastX lastY { x, y, leaf } =
      .ok ((List.range' y m 8).flatMap fun y =>
        (List.range' x n 8).map fun x => t.hopAt x y) := by
  induction m generalizing y leaf with
  | zero =>
      have hy : ¬ y ≤ lastY := by omega
      rw [sweepRows, if_neg hy]
      rfl
  | succ m ih =>
      have hy : y ≤ lastY := by omega
      obtain ⟨next, hsouth, hnext⟩ := hs.southOf_ok hlastY hy hx hx8 hy8
      have hhop : ({ x, y, leaf } : Hop) = t.hopAt x y := by rw [hopAt, hleaf hy]
      have hrow : t.sweepRow lastX (t.hopAt x y) =
          .ok ((List.range' x n 8).map fun x => t.hopAt x y) :=
        hs.sweepRow_ok hlastX (Nat.lt_of_le_of_lt hy hlastY) hy8 hx8 hn fun _ => rfl
      have hrest : t.sweepRows lastX lastY
          { x := (t.hopAt x y).x, y := (t.hopAt x y).y + blockSide.toNat, leaf := next } = .ok _ :=
        ih (y := y + 8) (by omega) (by omega) hnext
      rw [hhop, sweepRows]
      refine (if_pos hy).trans ?_
      simp only [hrow, hsouth, hrest, bind, Except.bind]
      rfl

/-- The sweep over an area stops once at each block that the area touches. -/
theorem sweep_ok (hs : t.Sound) (area : Area) :
    t.sweep area = .ok (area.blocks.map fun p => t.hopAt p.1.toNat p.2.toNat) := by
  -- Emptiness is tested on the area as given: aligned it may no longer be empty.
  by_cases hempty : area.IsEmpty
  · rw [sweep, if_pos hempty, Area.blocks, if_pos hempty]
    rfl
  obtain ⟨hx, hy⟩ := Area.edges_le hempty
  have hcount : ∀ {first last : UInt16}, first ≤ last →
      ((blockStart last).toNat + 8 - (blockStart first).toNat) / 8 =
        ((blockStart last).toNat - (blockStart first).toNat) / 8 + 1 := by
    intro first last hle
    have hstarts := UInt16.le_iff_toNat_le.mp (blockStart_mono hle)
    omega
  have hstart : ∀ v : UInt16, (blockStart v).toNat % 8 = 0 := by
    intro v
    exact blockStart_eq_self_iff.mp (blockStart_blockStart v)
  have hlocate : t.locate (blockStart area.west) (blockStart area.north) =
      .ok (t.nameAt (blockStart area.west).toNat (blockStart area.north).toNat) := by
    rw [hs.locate_eq, nameAt, UInt16.ofNat_toNat, UInt16.ofNat_toNat]
  rw [sweep, if_neg hempty, Area.map_blocks hempty t.hopAt]
  dsimp only [Area.aligned]
  rw [hlocate]
  exact hs.sweepRows_ok (blockStart area.east).toNat_lt (blockStart area.south).toNat_lt
    (blockStart area.west).toNat_lt (hstart _) (hcount hx) (hstart _) (hcount hy) fun _ => rfl

/-! ### What is come across -/

theorem mapM_leaf_ok (hs : t.Sound) (ps : List (UInt16 × UInt16)) :
    (ps.filterMap fun p => (t.lookup? p.1 p.2).map Prod.fst).mapM
        (fun id => do return (id, ← t.leaf id)) =
      .ok (ps.filterMap fun p => t.lookup? p.1 p.2) := by
  induction ps with
  | nil => rfl
  | cons p ps ih =>
      cases hentry : t.lookup? p.1 p.2 with
      | none =>
          simp only [List.filterMap_cons, hentry, Option.map_none]
          exact ih
      | some e =>
          have hleaf : t.leaf e.1 = .ok e.2 := (hs.lookup?_eq_some_iff.mp hentry).1
          simp only [List.filterMap_cons, hentry, Option.map_some]
          rw [List.mapM_cons, ih, hleaf]
          rfl

theorem visit_ok (hs : t.Sound) (area : Area) : t.visit area = .ok (t.entries area) := by
  have hnames : (area.blocks.map fun p => t.hopAt p.1.toNat p.2.toNat).filterMap Hop.leaf =
      area.blocks.filterMap fun p => (t.lookup? p.1 p.2).map Prod.fst := by
    rw [List.filterMap_map]
    refine List.filterMap_congr fun p _ => ?_
    rw [Function.comp_apply, hopAt, nameAt, UInt16.ofNat_toNat, UInt16.ofNat_toNat]
  rw [visit, hs.sweep_ok]
  simp only [bind, Except.bind]
  rw [hnames]
  exact hs.mapM_leaf_ok area.blocks

theorem survey_ok (hs : t.Sound) (area : Area) : t.survey area = .ok (t.entries area) := by
  have hlocate : area.blocks.mapM (fun (x, y) => t.locate x y) =
      .ok (area.blocks.map fun p => (t.lookup? p.1 p.2).map Prod.fst) := by
    simp only [hs.locate_eq]
    exact List.mapM_pure
  have hnames : (area.blocks.map fun p => (t.lookup? p.1 p.2).map Prod.fst).filterMap id =
      area.blocks.filterMap fun p => (t.lookup? p.1 p.2).map Prod.fst := by
    rw [List.filterMap_map, Function.id_comp]
  rw [survey, hlocate]
  simp only [bind, Except.bind]
  rw [hnames]
  exact hs.mapM_leaf_ok area.blocks

theorem mem_entries_iff (hs : t.Sound) {area : Area} {id : LeafId} {l : Leaf τ κ} :
    (id, l) ∈ t.entries area ↔ t.leaf id = .ok l ∧
      ∃ x y, (x, y) ∈ area ∧ blockStart x = l.x ∧ blockStart y = l.y := by
  rw [entries, List.mem_filterMap]
  constructor
  · rintro ⟨⟨u, v⟩, hblock, hentry⟩
    obtain ⟨x, y, hmem, rfl, rfl⟩ := Area.mem_blocks_iff.mp hblock
    obtain ⟨hl, hx, hy⟩ := hs.lookup?_eq_some_iff.mp hentry
    rw [blockStart_blockStart] at hx hy
    exact ⟨hl, x, y, hmem, hx.symm, hy.symm⟩
  · rintro ⟨hl, hmem⟩
    refine ⟨(l.x, l.y), Area.mem_blocks_iff.mpr hmem, hs.lookup?_eq_some_iff.mpr ⟨hl, ?_⟩⟩
    exact ⟨(hs.aligned hl).1.symm, (hs.aligned hl).2.symm⟩

theorem pairwise_entries (hs : t.Sound) (area : Area) :
    (t.entries area).Pairwise fun e f => Area.Before (e.2.x, e.2.y) (f.2.x, f.2.y) := by
  have hcorner : ∀ {p : UInt16 × UInt16} {e : LeafId × Leaf τ κ}, p ∈ area.blocks →
      t.lookup? p.1 p.2 = some e → e.2.x = p.1 ∧ e.2.y = p.2 := by
    rintro ⟨u, v⟩ e hblock hentry
    obtain ⟨x, y, -, rfl, rfl⟩ := Area.mem_blocks_iff.mp hblock
    obtain ⟨-, hx, hy⟩ := hs.lookup?_eq_some_iff.mp hentry
    rw [blockStart_blockStart] at hx hy
    exact ⟨hx, hy⟩
  rw [entries, List.pairwise_filterMap]
  refine (Area.pairwise_blocks area).imp_of_mem fun {p q} hp hq hpq e he f hf => ?_
  rw [(hcorner hp he).1, (hcorner hp he).2, (hcorner hq hf).1, (hcorner hq hf).2]
  exact hpq

theorem nodup_entries (hs : t.Sound) (area : Area) : (t.entries area).Nodup := by
  refine (hs.pairwise_entries area).imp fun {e f} hlt heq => ?_
  rw [heq] at hlt
  exact irrefl _ hlt

end Sound

end Quadtree

end TileAtlas
