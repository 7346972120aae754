import TileAtlas.Proofs.Atlas.Coherence
import TileAtlas.Proofs.Atlas.Finding
import TileAtlas.Proofs.Members

/-!
Searching for some kinds of creatures only.

A caller who is interested in monsters could as well search for creatures of
all kinds and pass over the others. Both searches ask about the same creatures,
and equally often. What may differ is the order in which they are asked about
within a leaf, and a test that remembers what it has seen can tell.
-/

namespace TileAtlas

/-- `Asked test s calls s'` says that the test, starting from the state `s`,
was asked about one creature after another, that `calls` are the creatures
with the answers, and that it ended in the state `s'`. -/
inductive Asked {σ κ : Type} (test : κ → StateM σ Bool) : σ → List (κ × Bool) → σ → Prop where
  | done {s : σ} : Asked test s [] s
  | next {s s₁ s' : σ} {c : κ} {answer : Bool} {calls : List (κ × Bool)} :
      (test c).run s = (answer, s₁) → Asked test s₁ calls s' →
      Asked test s ((c, answer) :: calls) s'

theorem filterAuxM_asked {σ κ : Type} (test : κ → StateM σ Bool) (l acc : List κ) (s : σ) :
    ∃ calls s', Asked test s calls s' ∧ calls.map Prod.fst = l ∧
      (l.filterAuxM test acc).run s =
        (((calls.filter Prod.snd).map Prod.fst).reverse ++ acc, s') := by
  induction l generalizing acc s with
  | nil => exact ⟨[], s, .done, rfl, rfl⟩
  | cons c l ih =>
      rcases hask : (test c).run s with ⟨answer, s₁⟩
      obtain ⟨calls, s', hasked, hcalls, hrun⟩ := ih (bif answer then c :: acc else acc) s₁
      refine ⟨(c, answer) :: calls, s', .next hask hasked, congrArg (c :: ·) hcalls, ?_⟩
      calc ((c :: l).filterAuxM test acc).run s
        _ = (l.filterAuxM test (bif answer then c :: acc else acc)).run s₁ := by
          rw [List.filterAuxM, StateT.run_bind, hask]
          rfl
        _ = (((calls.filter Prod.snd).map Prod.fst).reverse ++
              (bif answer then c :: acc else acc), s') := hrun
        _ = ((((c, answer) :: calls).filter Prod.snd |>.map Prod.fst).reverse ++ acc, s') := by
          cases answer with
          | false => rfl
          | true => simp

namespace View

variable {τ κ : Type} {v : View τ κ}

/-- Whatever the test remembers, it is asked once about each creature that is
offered, in order, and those are found about whom it said yes. -/
theorem collect_asked {found : List κ} (h : v.offered = .ok found) {σ : Type}
    (test : κ → StateM σ Bool) (s : σ) :
    ∃ search calls s', v.collect test = .ok search ∧ Asked test s calls s' ∧
      calls.map Prod.fst = found ∧
      search.run s = ((calls.filter Prod.snd).map Prod.fst, s') := by
  obtain ⟨calls, s', hasked, hcalls, hrun⟩ := filterAuxM_asked test found [] s
  refine ⟨found.filterM test, calls, s', ?_, hasked, hcalls, ?_⟩
  · rw [collect, h]
    rfl
  · rw [List.filterM, StateT.run_bind, hrun, List.append_nil]
    show (List.reverse (List.reverse _), s') = _
    rw [List.reverse_reverse]

theorem offered_known : { v with kinds := v.kinds.known }.offered = v.offered := by
  rw [offered, offered]
  simp only [Roster.members_known]
  rfl

theorem collect_known {m : Type → Type} [Monad m] (test : κ → m Bool) :
    { v with kinds := v.kinds.known }.collect test = v.collect test := by
  rw [collect, collect, offered_known]

def members (visited : List (LeafId × Leaf τ κ)) (kinds : KindSet) : List κ :=
  visited.flatMap fun e => e.2.roster.members kinds

variable [Creature κ]

/-- A search for some kinds that visits these leaves, compared with a search
for all kinds in the same area. -/
structure Selective (v : View τ κ) (visited : List (LeafId × Leaf τ κ)) : Prop where
  /-- Both visit the same leaves in the same order. -/
  leaves : v.leaves = .ok visited
  leaves_all : { v with kinds := .all }.leaves = .ok visited
  /-- Both are done with one leaf before they ask about the creatures of the next. -/
  offered : v.offered = .ok (members visited v.kinds)
  offered_all : { v with kinds := .all }.offered = .ok (members visited .all)
  offers : ∀ e ∈ visited, e.2.roster.Offers v.kinds
  /-- Of those whom the search for all kinds offers, the creatures of the chosen kinds are offered,
  once for every time, and nobody else. -/
  perm : (members visited v.kinds).Perm
    ((members visited .all).filter (Creature.kind · ∈ v.kinds))
  /-- The test is asked once about each creature offered, in order, and those are found whom it
  accepted. -/
  collect {σ : Type} (test : κ → StateM σ Bool) (s : σ) : ∃ search calls s',
    v.collect test = .ok search ∧ Asked test s calls s' ∧
      calls.map Prod.fst = members visited v.kinds ∧
      search.run s = ((calls.filter Prod.snd).map Prod.fst, s')
  /-- Bits that stand for no kind make no difference. -/
  leaves_known : { v with kinds := v.kinds.known }.leaves = .ok visited
  collect_known {m : Type → Type} [Monad m] (test : κ → m Bool) :
    { v with kinds := v.kinds.known }.collect test = v.collect test

variable [Std.TransOrd κ]

theorem members_perm {visited : List (LeafId × Leaf τ κ)}
    (h : ∀ e ∈ visited, e.2.roster.Coherent) (kinds : KindSet) :
    (members visited kinds).Perm
      ((members visited .all).filter (Creature.kind · ∈ kinds)) := by
  rw [members, members, List.filter_flatMap]
  exact List.Perm.flatMap_left _ fun e he => (h e he).members_perm kinds

theorem selective_of_coherent (hs : v.atlas.tree.Sound)
    (hcoherent : ∀ e ∈ v.atlas.tree.entries v.area, e.2.roster.Coherent) :
    v.Selective (v.atlas.tree.entries v.area) where
  leaves := hs.visit_ok _
  leaves_all := hs.visit_ok _
  offered := offered_ok hs
  offered_all := offered_ok (v := { v with kinds := .all }) hs
  offers e he := (hcoherent e he).offers v.kinds
  perm := members_perm hcoherent v.kinds
  collect := collect_asked (offered_ok hs)
  leaves_known := hs.visit_ok _
  collect_known := collect_known

end View

namespace Atlas

variable {τ κ : Type} [Creature κ] [Std.TransOrd κ] [LawfulKind κ]

/-- After every run of edits, a search for some kinds asks about the same
creatures, and equally often, as a search for all kinds whose test passes over
the other kinds. Within a leaf it may ask about them in another order. -/
theorem replay_selective (edits : List (Edit τ κ)) :
    ∃ h, ({} : History τ κ).replay edits = .ok h ∧
      ∀ area kinds, ∃ visited, View.Selective { atlas := h.atlas, area, kinds } visited := by
  obtain ⟨h, hreplay, hs, hcoherent⟩ := History.replay_coherent edits
  refine ⟨h, hreplay, fun area kinds => ⟨h.atlas.tree.entries area, ?_⟩⟩
  refine View.selective_of_coherent hs fun e he => ?_
  exact roster_of_leaf? hs hcoherent (leaf?_eq_some_iff.mpr (hs.mem_entries_iff.mp he).1)

/-- Creatures that do not come kind by kind enter two blocks, and one of them
enters both. -/
def crowd : List (Edit Nat (Handle .idKind)) :=
  [.enter ⟨6, 6, 0⟩ ⟨.npc, 1⟩, .enter ⟨7, 6, 0⟩ ⟨.player, 2⟩, .enter ⟨6, 1, 0⟩ ⟨.monster, 3⟩,
    .enter ⟨8, 6, 0⟩ ⟨.npc, 1⟩]

/-- The set of kinds has players and npcs in it, and a bit that stands for no
kind. -/
theorem selective_in_crowd :
    Std.TransOrd (Handle .idKind) ∧ LawfulKind (Handle .idKind) ∧
      ∃ h, ({} : History Nat (Handle .idKind)).replay crowd = .ok h ∧
        ∃ visited,
          View.Selective { atlas := h.atlas, area := ⟨7, 0, 8, 0⟩, kinds := ⟨0xD⟩ } visited := by
  obtain ⟨h, hreplay, hselective⟩ := replay_selective crowd
  exact ⟨inferInstance, inferInstance, h, hreplay, hselective _ _⟩

end Atlas

end TileAtlas
