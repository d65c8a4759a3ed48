import MethodFlow.Proofs.ForwardRun

/-!
Sets of facts that a dataflow problem does not leave: all that stands in the table of a run is in
such a set, at every moment of the run, whether it comes to an end or not.
-/

namespace MethodFlow.Problem

variable {F α : Type} [Fact F] [SemilatticeSup α] [OrderBot α]

/-- A problem starts from facts of a set, and neither merging nor a node leads out of the set. -/
structure Confines (p : Problem F) (view : F → α) (facts : Set α) : Prop extends
    p.Joining view where
  bot_mem : ⊥ ∈ facts
  sup_mem : ∀ {x y : α}, x ∈ facts → y ∈ facts → x ⊔ y ∈ facts
  boundary_mem : view p.boundary ∈ facts
  transfer_mem : ∀ (n : Node) {a : F}, view a ∈ facts → view (p.transfer n a) ∈ facts

/-- Every fact of a table is one of those that can come up. -/
def Within (p : Problem F) (view : F → α) (facts : Set α) (t : FactTable F) : Prop :=
  ∀ s n, view (t.look p.initial s n) ∈ facts

namespace Confines

variable {p : Problem F} {view : F → α} {facts : Set α} {t : FactTable F} {g : Cfg}

theorem foldl_mem (h : p.Confines view facts) {fs : List F} (hfs : ∀ f ∈ fs, view f ∈ facts)
    {acc : F} (hacc : view acc ∈ facts) :
    view (fs.foldl (fun acc f => p.merge f acc) acc) ∈ facts := by
  induction fs generalizing acc with
  | nil => exact hacc
  | cons f fs ih =>
    apply ih (fun f' hf' => hfs f' (List.mem_cons_of_mem f hf'))
    rw [h.merge]
    exact h.sup_mem (hfs f List.mem_cons_self) hacc

theorem merged_mem (h : p.Confines view facts) (ht : Within p view facts t) (s : Side)
    (ns : List Node) : view (p.merged t s ns) ∈ facts := by
  apply h.foldl_mem
  · intro f hf
    obtain ⟨n, _, rfl⟩ := List.mem_map.mp hf
    exact ht s n
  · rw [h.initial]
    exact h.bot_mem

theorem within_init (h : p.Confines view facts) (ns : List Node) (n : Node) :
    Within p view facts (.init ns fun k => if k = n then p.boundary else p.initial) := by
  have hbot : view p.initial ∈ facts := by
    rw [h.initial]
    exact h.bot_mem
  intro s k
  rw [FactTable.look_init]
  split
  · split
    · exact h.boundary_mem
    · exact hbot
  · exact hbot

theorem within_visited (h : p.Confines view facts) {s : Forward F} {n : Node} {rest : List Node}
    (hw : Within p view facts s.table) : Within p view facts (p.visited g n rest s).table := by
  have hset := h.settled_visited g n rest s
  have hin : view ((p.visited g n rest s).table.look p.initial .input n) ∈ facts := by
    rw [hset.input]
    exact h.merged_mem hw .output _
  intro side k
  by_cases hk : k = n
  · subst hk
    cases side with
    | input => exact hin
    | output =>
      rw [hset.output]
      exact h.transfer_mem k hin
  · rw [look_visited_of_ne hk]
    exact hw side k

theorem stateAt_within (h : p.Confines view facts) (hg : g.Closed) (order : Order) (k : Nat) :
    Within p view facts (p.stateAt g order k).table :=
  (p.stateAt_induction hg (P := fun s => Within p view facts s.table)
    (h.within_init g.nodes .entry) (fun _ _ _ _ _ => h.within_visited) order k).2

end Confines

end MethodFlow.Problem
