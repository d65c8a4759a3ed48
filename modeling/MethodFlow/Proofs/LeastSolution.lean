import Mathlib
import MethodFlow.Proofs.Finishing
import MethodFlow.Proofs.MonotoneProblem

/-!
The forward solver on monotone problems. In either order of visits it comes to an end, and what it
leaves is the least table that solves the equations. Constant propagation is such a problem where
integers are only copied.
-/

namespace MethodFlow

namespace Problem

variable {F α : Type} [Fact F] [SemilatticeSup α] [OrderBot α] {p : Problem F} {view : F → α}
  {facts : Set α} {g : Cfg} {s : Forward F} {t : FactTable F}

/-- A table that solves the equations of a forward problem: around the entry stands the boundary,
and around every other node what is passed on to it and what it makes of that. -/
structure IsSolution (p : Problem F) (g : Cfg) (view : F → α) (t : FactTable F) : Prop where
  covers : t.Covers g
  entry : ∀ side, view (t.look p.initial side .entry) = view p.boundary
  settled : ∀ n, g.has n = true → n ≠ .entry → Settled p g view t t n

/-- The least solution: what it says at any place, every other solution says too. -/
structure IsLeastSolution (p : Problem F) (g : Cfg) (view : F → α) (t : FactTable F) : Prop where
  solution : IsSolution p g view t
  least : ∀ t', IsSolution p g view t' → ∀ side n, g.has n = true →
    view (t.look p.initial side n) ≤ view (t'.look p.initial side n)

/-- What stands behind a node is no more than the node would make of what is passed on to it. -/
def IsRising (p : Problem F) (g : Cfg) (view : F → α) (t : FactTable F) : Prop :=
  ∀ n, g.has n = true → n ≠ .entry →
    view (t.look p.initial .output n) ≤ view (p.transfer n (p.merged t .output (g.preds n)))

namespace IsMonotone

section Visit

variable {n : Node} {rest : List Node}

theorem view_output_visited (h : p.IsMonotone view facts) :
    view ((p.visited g n rest s).table.look p.initial .output n) =
      view (p.transfer n (p.merged s.table .output (g.preds n))) := by
  have hset := h.settled_visited g n rest s
  rw [hset.output]
  exact h.transfer_congr n hset.input

/-- A visit to a node of a rising table makes what stands behind the node rise. -/
theorem output_le_visited (h : p.IsMonotone view facts) (hr : IsRising p g view s.table)
    (hn : g.has n = true) (he : n ≠ .entry) (k : Node) :
    view (s.table.look p.initial .output k) ≤
      view ((p.visited g n rest s).table.look p.initial .output k) := by
  by_cases hk : k = n
  · subst hk
    rw [h.view_output_visited]
    exact hr k hn he
  · rw [look_visited_of_ne hk]

theorem isRising_visited (h : p.IsMonotone view facts) (hs : Sound g s)
    (hp : (n :: rest).Perm s.pending) (hr : IsRising p g view s.table) :
    IsRising p g view (p.visited g n rest s).table := by
  obtain ⟨hn, he⟩ := hs.pending n (hp.subset List.mem_cons_self)
  intro k hk hke
  have hup : view (p.transfer k (p.merged s.table .output (g.preds k))) ≤
      view (p.transfer k (p.merged (p.visited g n rest s).table .output (g.preds k))) :=
    h.mono k (h.merged_mono fun q _ => h.output_le_visited hr hn he q)
  refine le_trans ?_ hup
  by_cases hkn : k = n
  · subst hkn
    rw [h.view_output_visited]
  · rw [look_visited_of_ne hkn]
    exact hr k hk hke

/-- A visit keeps a table below every solution. -/
theorem below_visited (h : p.IsMonotone view facts) (ht : IsSolution p g view t)
    (hn : g.has n = true) (he : n ≠ .entry)
    (hle : Below p view s.table t) : Below p view (p.visited g n rest s).table t := by
  intro side k
  by_cases hk : k = n
  · subst hk
    have hset := h.settled_visited g k rest s
    have hsol := ht.settled k hn he
    have hin : view ((p.visited g k rest s).table.look p.initial .input k) ≤
        view (t.look p.initial .input k) := by
      rw [hset.input, hsol.input]
      exact h.merged_mono fun q _ => hle .output q
    cases side with
    | input => exact hin
    | output =>
      rw [hset.output, hsol.output]
      exact h.mono k hin
  · rw [look_visited_of_ne hk]
    exact hle side k

end Visit

section Run

variable {order : Order}

theorem isRising_start (h : p.IsMonotone view facts) (g : Cfg) :
    IsRising p g view (p.startForward g).table := by
  intro n hn he
  rw [look_startForward, if_neg he, h.initial]
  exact bot_le

theorem stateAt_rising (h : p.IsMonotone view facts) (hg : g.Closed) (order : Order) (k : Nat) :
    IsRising p g view (p.stateAt g order k).table :=
  (p.stateAt_induction hg (P := fun s => IsRising p g view s.table) (h.isRising_start g)
    (fun _ _ _ hs hp hr => h.isRising_visited hs hp hr) order k).2

theorem output_le_succ (h : p.IsMonotone view facts) (hg : g.Closed) (k : Nat) (n : Node) :
    view ((p.stateAt g order k).table.look p.initial .output n) ≤
      view ((p.stateAt g order (k + 1)).table.look p.initial .output n) := by
  rcases p.stateAt_succ_cases g order k with ⟨_, he⟩ | ⟨q, rest, hpop, he⟩
  · rw [he]
  · have hq := (p.sound_stateAt hg order k).pending q ((pop_perm hpop).subset List.mem_cons_self)
    rw [he]
    exact h.output_le_visited (h.stateAt_rising hg order k) hq.1 hq.2 n

/-- A run of a monotone problem has no node left pending some day. -/
theorem exists_pending_nil (h : p.IsMonotone view facts) (hg : g.Closed) (order : Order) :
    ∃ k, (p.stateAt g order k).pending = [] := by
  by_contra hnone
  push Not at hnone
  obtain ⟨start, hrest⟩ := h.exists_rest
    (fun k n => view ((p.stateAt g order k).table.look p.initial .output n))
    (fun k => h.confines.stateAt_within hg order k .output) (fun k => h.output_le_succ hg k) g.nodes
  -- once the facts behind the nodes are at rest, every visit takes a node off the list
  have hshrink : ∀ j, (p.stateAt g order (start + j)).pending.length + j ≤
      (p.stateAt g order start).pending.length := by
    intro j
    induction j with
    | zero => exact le_refl _
    | succ j ih =>
      rcases p.stateAt_succ_cases g order (start + j) with ⟨hd, _⟩ | ⟨n, rest, hpop, he⟩
      · exact absurd hd (hnone (start + j))
      have hn := ((p.sound_stateAt hg order (start + j)).pending n
        ((pop_perm hpop).subset List.mem_cons_self)).1
      have hlen := (pop_perm hpop).length_eq
      have hsame := (hrest (start + j + 1) (by omega) n (Cfg.mem_nodes.mpr hn)).trans
        (hrest (start + j) (by omega) n (Cfg.mem_nodes.mpr hn)).symm
      have hunchanged : (p.outputAfter g (p.stateAt g order (start + j)).table n).2 = false := by
        apply Bool.eq_false_iff.mpr
        intro hc
        apply (h.overwrite_changed _ _).mp hc
        rw [he, look_visited_output] at hsame
        exact hsame.symm.trans (h.view_overwrite _ _)
      have hpend : (p.stateAt g order (start + j + 1)).pending = rest := by
        simp [he, visited, hunchanged]
      rw [← Nat.add_assoc start, hpend]
      simp only [List.length_cons] at hlen
      omega
  have hend := hshrink ((p.stateAt g order start).pending.length + 1)
  omega

theorem stateAt_below (h : p.IsMonotone view facts) (hg : g.Closed) (ht : IsSolution p g view t)
    (order : Order) (k : Nat) : Below p view (p.stateAt g order k).table t := by
  refine (p.stateAt_induction hg (P := fun s => Below p view s.table t) ?_ ?_ order k).2
  · intro side n
    rw [look_startForward]
    split
    · rename_i he
      rw [he, ht.entry side]
    · rw [h.initial]
      exact bot_le
  · intro s n rest hs hp hle
    obtain ⟨hn, he⟩ := hs.pending n (hp.subset List.mem_cons_self)
    exact h.below_visited ht hn he hle

/-- What a forward solver returns on a monotone problem is the least solution. -/
theorem isLeastSolution_of_solveForward (h : p.IsMonotone view facts) (hg : g.Closed) {fuel : Nat}
    {sol : Solution F} (hsol : p.solveForward g order fuel = .ok sol) :
    IsLeastSolution p g view sol.table := by
  have hs := solves_of_solveForward h.toJoining hg hsol
  obtain ⟨_, rfl⟩ := (p.solveForward_eq_ok hg).mp hsol
  refine ⟨⟨hs.covers, fun side => congrArg view (hs.entry side), hs.settled⟩, ?_⟩
  intro t' ht' side n _
  exact h.stateAt_below hg ht' order fuel side n

end Run

end IsMonotone

end Problem

/-- No variable that holds integers is set to the result of an operator. -/
def Method.CopiesIntegers (m : Method) : Prop :=
  ∀ s ∈ m.body, ∀ v e, s.instr.def? = some v → s.instr.value? = some e → v.holdsInt = true →
    ∀ op a b, e ≠ .bin op a b

namespace ConstProp

open Problem

/-- How far up the values of some variables are. -/
def rankSum (vs : List Var) (x : Var → Value) : Nat :=
  (vs.map fun v => (x v).rank).sum

theorem rankSum_le (vs : List Var) (x : Var → Value) : rankSum vs x ≤ vs.length * 2 := by
  induction vs with
  | nil => exact Nat.zero_le _
  | cons v vs ih =>
    have hv := (x v).rank_le_two
    simp only [rankSum, List.map_cons, List.sum_cons, List.length_cons] at ih ⊢
    omega

theorem rankSum_lt {vs : List Var} {x y : Var → Value} (hxy : x < y) (hy : y ≤ cap vs) :
    rankSum vs x < rankSum vs y := by
  obtain ⟨hle, v, hlt⟩ := Pi.lt_def.mp hxy
  have hv : v ∈ vs := by
    by_contra hn
    have hundef : y v = .undef := Value.le_undef_iff.mp (by simpa [cap, hn] using hy v)
    rw [hundef] at hlt
    exact not_lt_bot hlt
  exact List.sum_lt_sum _ _ (fun w _ => Value.rank_mono (hle w))
    ⟨v, hv, Value.rank_lt hlt.le hlt.ne⟩

/-- What is known about finitely many variables cannot rise for ever. -/
theorem wellFounded_cap (vs : List Var) : WellFoundedGT (Set.Iic (cap vs)) := by
  have hanti : StrictAnti fun x : Set.Iic (cap vs) => vs.length * 2 - rankSum vs x.1 := by
    intro x y hxy
    have hlt := rankSum_lt (Subtype.coe_lt_coe.mpr hxy) y.2
    have hmax := rankSum_le vs y.1
    change vs.length * 2 - rankSum vs y.1 < vs.length * 2 - rankSum vs x.1
    omega
  exact hanti.wellFoundedGT

/-- The value of an expression that is no operator rises with what is known. -/
theorem evaluate_mono {a b : ConstMap} (h : a.get ≤ b.get) {e : Expr}
    (he : ∀ op l r, e ≠ .bin op l r) : evaluate a e ≤ evaluate b e := by
  cases e with
  | var v =>
    rw [evaluate, evaluate]
    split
    · exact h v
    · exact le_refl _
  | int n =>
    rw [evaluate, evaluate]
  | bin op l r => exact absurd rfl (he op l r)
  | _ => exact le_refl _

/-- Where integers are only copied, constant propagation is monotone. -/
theorem isMonotone {m : Method} (hm : m.CopiesIntegers) :
    (problem m).IsMonotone ConstMap.get (Set.Iic (cap m.tracked)) where
  toJoining := joining m
  mono n a b h := by
    intro v
    change (transfer (n.instr m) a).get v ≤ (transfer (n.instr m) b).get v
    rcases transfer_passes (n.instr m) v with hp | ⟨e, hd, he, hi, hp⟩
    · rw [hp, hp]
      exact h v
    · rw [hp, hp]
      obtain hn | ⟨s, hs, heq⟩ := n.instr_cases m
      · rw [hn] at hd
        cases hd
      exact evaluate_mono h (hm s hs v e (heq ▸ hd) (heq ▸ he) hi)
  bot_mem := (cap_confines m).bot_mem
  sup_mem := (cap_confines m).sup_mem
  boundary_mem := (cap_confines m).boundary_mem
  transfer_mem := (cap_confines m).transfer_mem
  ascent := wellFounded_cap m.tracked

end ConstProp

/-- On the graph of a method, every monotone problem is solved in either order of visits, and what
is left is its least solution. Constant propagation is such a problem where integers are only
copied. -/
theorem solveForward_isLeast {m : Method} (hm : m.Resolved) : ∃ g, Cfg.build m = .ok g ∧
    (∀ {F α : Type} [Fact F] [SemilatticeSup α] [OrderBot α] {p : Problem F} {view : F → α}
      {facts : Set α}, p.IsMonotone view facts → ∀ order : Order,
      (∃ fuel sol, p.solveForward g order fuel = .ok sol) ∧
      ∀ {fuel sol}, p.solveForward g order fuel = .ok sol → p.IsLeastSolution g view sol.table) ∧
    (m.CopiesIntegers →
      (ConstProp.problem m).IsMonotone ConstMap.get (Set.Iic (ConstProp.cap m.tracked))) := by
  have hg := Cfg.graphOf_closed hm
  refine ⟨Cfg.graphOf m, Cfg.build_eq_ok.mpr ⟨hm, rfl⟩, ?_, ConstProp.isMonotone⟩
  intro F α _ _ _ p view facts h order
  constructor
  · obtain ⟨k, hk⟩ := h.exists_pending_nil hg order
    exact ⟨k, _, (p.solveForward_eq_ok hg).mpr ⟨hk, rfl⟩⟩
  · intro fuel sol hsol
    exact h.isLeastSolution_of_solveForward hg hsol

/-- Two variables that change places in a loop, one of them set on one way into it only. -/
def rotating : Method :=
  let a : Var := ⟨"a", .prim .int⟩
  let b : Var := ⟨"b", .prim .int⟩
  let c : Var := ⟨"c", .prim .int⟩
  .make "rotating" [c] .void [a, b]
    [⟨.branch (.bin .lt (.var c) (.int 0)) (.stmt 2), 1⟩, ⟨.assign (.var a) (.int 1), 2⟩,
      ⟨.assign (.var b) (.var a), 3⟩, ⟨.assign (.var a) (.int 2), 4⟩, ⟨.goto (.stmt 2), 5⟩]

theorem rotating_copiesIntegers : rotating.CopiesIntegers := by
  intro s hs v e hd he hi op a b
  simp only [rotating, Method.make, List.mem_cons, List.not_mem_nil, or_false] at hs
  rcases hs with rfl | rfl | rfl | rfl | rfl
  all_goals
    cases he
  all_goals
    intro h
    cases h

theorem solveForward_isLeast_rotating : rotating.Resolved ∧ ∃ g, Cfg.build rotating = .ok g ∧
    ∀ order, ∃ fuel sol, (ConstProp.problem rotating).solveForward g order fuel = .ok sol ∧
      (ConstProp.problem rotating).IsLeastSolution g ConstMap.get sol.table := by
  have hm : rotating.Resolved := by decide
  obtain ⟨g, hg, hleast, hmono⟩ := solveForward_isLeast hm
  refine ⟨hm, g, hg, fun order => ?_⟩
  obtain ⟨⟨fuel, sol, hsol⟩, h⟩ := hleast (hmono rotating_copiesIntegers) order
  exact ⟨fuel, sol, hsol, h hsol⟩

end MethodFlow
