import Mathlib.Order.OrderIsoNat
import Mathlib.Order.WellFounded
import MethodFlow.Proofs.ConfinedFacts

/-!
Dataflow problems with a monotone transfer, whose facts cannot rise for ever. On such a problem the
facts of a run only rise, so from some step on they stay as they are.
-/

namespace MethodFlow.Problem

variable {F α : Type} [Fact F] [SemilatticeSup α] [OrderBot α]

/-- More in front of a node makes more behind it, and the facts that come up, which are among
`facts`, have no endless ascent. -/
structure IsMonotone (p : Problem F) (view : F → α) (facts : Set α) : Prop extends
    p.Joining view where
  mono : ∀ (n : Node) {a b : F}, view a ≤ view b → view (p.transfer n a) ≤ view (p.transfer n b)
  bot_mem : ⊥ ∈ facts
  sup_mem : ∀ {x y : α}, x ∈ facts → y ∈ facts → x ⊔ y ∈ facts
  boundary_mem : view p.boundary ∈ facts
  transfer_mem : ∀ (n : Node) {a : F}, view a ∈ facts → view (p.transfer n a) ∈ facts
  ascent : WellFoundedGT facts

/-- Every fact of one table is below the one in its place in another. -/
def Below (p : Problem F) (view : F → α) (t t' : FactTable F) : Prop :=
  ∀ s n, view (t.look p.initial s n) ≤ view (t'.look p.initial s n)

variable {p : Problem F} {view : F → α} {facts : Set α} {t t' : FactTable F}

omit [Fact F] [OrderBot α] in
theorem Below.refl (t : FactTable F) : Below p view t t :=
  fun _ _ => le_refl _

omit [Fact F] [OrderBot α] in
theorem Below.trans {t'' : FactTable F} (h : Below p view t t') (h' : Below p view t' t'') :
    Below p view t t'' :=
  fun s n => (h s n).trans (h' s n)

theorem Joining.merged_mono (h : p.Joining view) {s : Side} {ns : List Node}
    (hle : ∀ n ∈ ns, view (t.look p.initial s n) ≤ view (t'.look p.initial s n)) :
    view (p.merged t s ns) ≤ view (p.merged t' s ns) := by
  apply h.merged_le_iff.mpr
  intro n hn
  exact (hle n hn).trans (h.le_merged hn)

namespace IsMonotone

theorem transfer_congr (h : p.IsMonotone view facts) (n : Node) {a b : F} (hab : view a = view b) :
    view (p.transfer n a) = view (p.transfer n b) :=
  le_antisymm (h.mono n hab.le) (h.mono n hab.ge)

theorem confines (h : p.IsMonotone view facts) : p.Confines view facts :=
  ⟨h.toJoining, h.bot_mem, h.sup_mem, h.boundary_mem, h.transfer_mem⟩

/-- In a sequence of rows that only rise, the entries of finitely many nodes come to rest. -/
theorem exists_rest (h : p.IsMonotone view facts) (rows : Nat → Node → α)
    (hin : ∀ k n, rows k n ∈ facts) (hup : ∀ k n, rows k n ≤ rows (k + 1) n) (ns : List Node) :
    ∃ start, ∀ k ≥ start, ∀ n ∈ ns, rows k n = rows start n := by
  have := h.ascent
  induction ns with
  | nil => exact ⟨0, by simp⟩
  | cons n ns ih =>
    obtain ⟨i, hi⟩ := ih
    let rising : Nat →o facts :=
      ⟨fun k => ⟨rows k n, hin k n⟩, monotone_nat_of_le_succ fun k => hup k n⟩
    obtain ⟨j, hj⟩ := WellFoundedGT.monotone_chain_condition rising
    have hn : ∀ k ≥ j, rows k n = rows j n := fun k hk => (Subtype.ext_iff.mp (hj k hk)).symm
    refine ⟨max i j, fun k hk q hq => ?_⟩
    have hik : k ≥ i := le_trans (le_max_left i j) hk
    have hjk : k ≥ j := le_trans (le_max_right i j) hk
    rcases List.mem_cons.mp hq with rfl | hq
    · rw [hn k hjk, hn (max i j) (le_max_right i j)]
    · rw [hi k hik q hq, hi (max i j) (le_max_left i j) q hq]

end IsMonotone

end MethodFlow.Problem
