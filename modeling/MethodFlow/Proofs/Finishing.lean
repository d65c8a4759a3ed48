import Mathlib
import MethodFlow.Proofs.ConstantRun

/-!
Whether a run of constant propagation comes to an end. Constants are never given up for each other,
so the only way down is for a visit to take back that a variable may vary, and a run that does so
only finitely often finishes. Some runs never stop doing so, in either order of visits.
-/

namespace MethodFlow

instance {κ ν : Type} [DecidableEq κ] [DecidableEq ν] : DecidableEq (OrderedMap κ ν) :=
  fun a b => decidable_of_iff (a.entries = b.entries)
    ⟨fun h => by cases a; cases b; simp_all, fun h => by rw [h]⟩

instance : DecidableEq ConstMap :=
  fun a b => decidable_of_iff (a.map = b.map)
    ⟨fun h => by cases a; cases b; simp_all, fun h => by rw [h]⟩

/-- How many values are strictly below a value on a longest way up to it. -/
def Value.rank : Value → Nat
  | undef => 0
  | const _ => 1
  | nac => 2

namespace Value

variable {x y : Value}

theorem rank_le_two (x : Value) : x.rank ≤ 2 := by
  cases x <;> simp [rank]

theorem le_of_keeps (hc : ∀ c, x = .const c → .const c ≤ y) (hn : x = .nac → y = .nac) : x ≤ y := by
  cases x with
  | undef => exact bot_le
  | const c => exact hc c rfl
  | nac => exact hn rfl ▸ le_refl _

theorem rank_mono (h : x ≤ y) : x.rank ≤ y.rank := by
  rcases le_iff.mp h with rfl | rfl | rfl
  · exact Nat.zero_le _
  · exact le_refl _
  · exact x.rank_le_two

theorem rank_lt (h : x ≤ y) (hne : x ≠ y) : x.rank < y.rank := by
  rcases le_iff.mp h with rfl | rfl | rfl
  · cases y with
    | undef => exact absurd rfl hne
    | const c => simp [rank]
    | nac => simp [rank]
  · exact absurd rfl hne
  · cases x with
    | undef => simp [rank]
    | const c => simp [rank]
    | nac => exact absurd rfl hne

end Value

namespace Problem

variable {F : Type} [Fact F] {p : Problem F} {g : Cfg} {order : Order} {s s' : Forward F}

/-- Two states from which a run goes on in the same way. -/
structure Alike (s s' : Forward F) : Prop where
  inputs : s.table.inputs = s'.table.inputs
  outputs : s.table.outputs = s'.table.outputs
  pending : s.pending = s'.pending

theorem Alike.advance (h : Alike s s') : Alike (p.advance g order s) (p.advance g order s') := by
  obtain ⟨⟨i, o, k⟩, ns, tr⟩ := s
  obtain ⟨⟨i', o', k'⟩, ns', tr'⟩ := s'
  obtain ⟨rfl, rfl, rfl⟩ := h
  unfold Problem.advance
  simp only
  split
  · exact ⟨rfl, rfl, rfl⟩
  · exact ⟨rfl, rfl, rfl⟩

theorem Alike.later {a b : Nat} (h : Alike (p.stateAt g order a) (p.stateAt g order b)) (c : Nat) :
    Alike (p.stateAt g order (a + c)) (p.stateAt g order (b + c)) := by
  induction c with
  | zero => exact h
  | succ c ih =>
    rw [← Nat.add_assoc, ← Nat.add_assoc, stateAt_succ, stateAt_succ]
    exact ih.advance

/-- A run that comes back to where it was before it was done goes round for good. -/
theorem Alike.never_done {a b : Nat} (h : Alike (p.stateAt g order a) (p.stateAt g order (a + b)))
    (hb : 0 < b) (hp : (p.stateAt g order a).pending ≠ []) (k : Nat) :
    (p.stateAt g order k).pending ≠ [] := by
  intro hk
  have hround : ∀ c, (p.stateAt g order (a + c * b)).pending = (p.stateAt g order a).pending := by
    intro c
    induction c with
    | zero => simp
    | succ c ih =>
      rw [Nat.succ_mul, Nat.add_comm (c * b), ← Nat.add_assoc, ← (h.later (c * b)).pending, ih]
  have hle : k ≤ a + k * b := (Nat.le_mul_of_pos_right k hb).trans (Nat.le_add_left _ a)
  rw [← hround k, p.stateAt_of_done hk hle] at hp
  exact hp hk

theorem solveForward_eq_unfinished (hg : g.Closed) {fuel : Nat}
    (h : (p.stateAt g order fuel).pending ≠ []) :
    p.solveForward g order fuel = .error .unfinished := by
  unfold solveForward
  rw [p.runForward_eq hg order fuel (p.sound_start g)]
  exact if_neg h ▸ rfl

end Problem

namespace ConstProp

open Problem

variable {m : Method} {g : Cfg} {order : Order}

/-- What one table holds behind some node may vary, and in the next one it is not known to. -/
def Retracts (t t' : FactTable ConstMap) : Prop :=
  ∃ n v, (t.look ∅ .output n).get v = .nac ∧ (t'.look ∅ .output n).get v ≠ .nac

/-- The variables of a method behind the nodes of its graph. -/
def slots (m : Method) (g : Cfg) : List (Node × Var) :=
  g.nodes ×ˢ m.tracked

/-- How far up the values behind all nodes are. -/
def height (m : Method) (g : Cfg) (t : FactTable ConstMap) : Nat :=
  ((slots m g).map fun x => ((t.look ∅ .output x.1).get x.2).rank).sum

theorem height_le (m : Method) (g : Cfg) (t : FactTable ConstMap) :
    height m g t ≤ (slots m g).length * 2 := by
  have h := List.sum_le_card_nsmul
    ((slots m g).map fun x => ((t.look ∅ .output x.1).get x.2).rank) 2 (by
      intro r hr
      obtain ⟨x, _, rfl⟩ := List.mem_map.mp hr
      exact Value.rank_le_two _)
  simpa [height] using h

/-- A bound on how many nodes a visit makes pending. -/
def degree (g : Cfg) : Nat :=
  (g.nodes.map fun n => (g.succs n).length).sum

theorem succs_length_le {n : Node} (hn : g.has n = true) : (g.succs n).length ≤ degree g :=
  List.single_le_sum (fun _ _ => Nat.zero_le _) _
    (List.mem_map_of_mem (f := fun n => (g.succs n).length) (Cfg.mem_nodes.mpr hn))

/-- What is left to do in a run: the values may still rise, each time with new nodes pending, and
the pending nodes are to be visited. -/
def effort (m : Method) (g : Cfg) (s : Forward ConstMap) : Nat :=
  ((slots m g).length * 2 - height m g s.table) * (degree g + 1) + s.pending.length

/-- A visit that takes nothing back only raises what stands behind nodes. -/
theorem outputs_le (hg : g.Closed) {k : Nat}
    (h : ¬ Retracts ((problem m).stateAt g order k).table
      ((problem m).stateAt g order (k + 1)).table) (n : Node) (v : Var) :
    (((problem m).stateAt g order k).table.look ∅ .output n).get v ≤
      (((problem m).stateAt g order (k + 1)).table.look ∅ .output n).get v := by
  refine Value.le_of_keeps (stateAt_keeps_later hg order (Nat.le_succ k) .output n v) fun hn => ?_
  by_contra hne
  exact h ⟨n, v, hn, hne⟩

theorem height_le_succ (hg : g.Closed) {k : Nat}
    (h : ¬ Retracts ((problem m).stateAt g order k).table
      ((problem m).stateAt g order (k + 1)).table) :
    height m g ((problem m).stateAt g order k).table ≤
      height m g ((problem m).stateAt g order (k + 1)).table :=
  List.sum_le_sum fun x _ => Value.rank_mono (outputs_le hg h x.1 x.2)

/-- A visit that changes what stands behind its node raises it in one of the places that count. -/
theorem height_lt_succ (hg : g.Closed) {k : Nat}
    (h : ¬ Retracts ((problem m).stateAt g order k).table
      ((problem m).stateAt g order (k + 1)).table) {n : Node} (hn : g.has n = true)
    (hc : (((problem m).stateAt g order k).table.look ∅ .output n).get ≠
      (((problem m).stateAt g order (k + 1)).table.look ∅ .output n).get) :
    height m g ((problem m).stateAt g order k).table <
      height m g ((problem m).stateAt g order (k + 1)).table := by
  obtain ⟨v, hv⟩ := Function.ne_iff.mp hc
  have hle := outputs_le hg h n v
  have hnew : (((problem m).stateAt g order (k + 1)).table.look ∅ .output n).get v ≠ .undef :=
    fun hu => hv ((Value.le_undef_iff.mp (hu ▸ hle)).trans hu.symm)
  have hmem : (n, v) ∈ slots m g := List.mem_product.mpr
    ⟨Cfg.mem_nodes.mpr hn, le_cap_iff.mp (stateAt_le_cap hg order (k + 1) .output n) v hnew⟩
  exact List.sum_lt_sum _ _ (fun x _ => Value.rank_mono (outputs_le hg h x.1 x.2))
    ⟨(n, v), hmem, Value.rank_lt hle hv⟩

/-- A visit that takes nothing back leaves less to do. -/
theorem effort_lt (hg : g.Closed) {k : Nat}
    (h : ¬ Retracts ((problem m).stateAt g order k).table
      ((problem m).stateAt g order (k + 1)).table)
    (hp : ((problem m).stateAt g order k).pending ≠ []) :
    effort m g ((problem m).stateAt g order (k + 1)) <
      effort m g ((problem m).stateAt g order k) := by
  rcases (problem m).stateAt_succ_cases g order k with ⟨hd, _⟩ | ⟨n, rest, hpop, he⟩
  · exact absurd hd hp
  have hn := (((problem m).sound_stateAt hg order k).pending n
    ((pop_perm hpop).subset List.mem_cons_self)).1
  have hlen : rest.length + 1 = _ := (pop_perm hpop).length_eq
  unfold effort
  rw [← hlen]
  cases hc : ((problem m).outputAfter g ((problem m).stateAt g order k).table n).2 with
  | false =>
    have hpend : ((problem m).stateAt g order (k + 1)).pending = rest := by
      simp [he, visited, hc]
    have hmul := Nat.mul_le_mul_right (degree g + 1)
      (Nat.sub_le_sub_left (height_le_succ hg h) ((slots m g).length * 2))
    rw [hpend]
    omega
  | true =>
    have hpend : ((problem m).stateAt g order (k + 1)).pending = rest ++ g.succs n := by
      simp [he, visited, hc]
    have hnew : (((problem m).stateAt g order k).table.look ∅ .output n).get ≠
        (((problem m).stateAt g order (k + 1)).table.look ∅ .output n).get := by
      rw [he, look_visited_output]
      exact fun hv => ((joining m).overwrite_changed _ _).mp hc
        (hv.trans ((joining m).view_overwrite _ _))
    have hlt := height_lt_succ hg h hn hnew
    have hmax := height_le m g ((problem m).stateAt g order (k + 1)).table
    have hdeg := succs_length_le hn
    -- the step up pays for all the nodes that the visit makes pending
    have hmul := Nat.mul_le_mul_right (degree g + 1) (show
      (slots m g).length * 2 - height m g ((problem m).stateAt g order (k + 1)).table + 1 ≤
        (slots m g).length * 2 - height m g ((problem m).stateAt g order k).table by omega)
    rw [Nat.succ_mul] at hmul
    rw [hpend, List.length_append]
    omega

/-- A run that from some step on takes nothing back has no node left pending some day. -/
theorem exists_done (hg : g.Closed) {start : Nat}
    (h : ∀ k ≥ start, ¬ Retracts ((problem m).stateAt g order k).table
      ((problem m).stateAt g order (k + 1)).table) :
    ∃ k, ((problem m).stateAt g order k).pending = [] := by
  by_contra hnone
  push Not at hnone
  have hfall : ∀ j, effort m g ((problem m).stateAt g order (start + j)) + j ≤
      effort m g ((problem m).stateAt g order start) := by
    intro j
    induction j with
    | zero => exact le_refl _
    | succ j ih =>
      have hlt := effort_lt hg (h (start + j) (Nat.le_add_right start j)) (hnone (start + j))
      rw [← Nat.add_assoc start]
      omega
  have hend := hfall (effort m g ((problem m).stateAt g order start) + 1)
  omega

/-- Constant propagation finishes exactly when from some visit on no visit takes back that a
variable may vary. -/
theorem finishes_iff {m : Method} (hm : m.Resolved) (order : Order) : ∃ g, Cfg.build m = .ok g ∧
    ((∃ fuel sol, (problem m).solveForward g order fuel = .ok sol) ↔
      ∃ start, ∀ k ≥ start, ¬ Retracts ((problem m).stateAt g order k).table
        ((problem m).stateAt g order (k + 1)).table) := by
  refine ⟨Cfg.graphOf m, Cfg.build_eq_ok.mpr ⟨hm, rfl⟩, ?_, ?_⟩
  · rintro ⟨fuel, sol, hsol⟩
    have hd := (((problem m).solveForward_eq_ok (Cfg.graphOf_closed hm)).mp hsol).1
    refine ⟨fuel, fun k hk => ?_⟩
    rw [(problem m).stateAt_of_done hd hk, (problem m).stateAt_of_done hd (Nat.le_succ_of_le hk)]
    rintro ⟨n, v, hv, hv'⟩
    exact hv' hv
  · rintro ⟨start, h⟩
    obtain ⟨k, hk⟩ := exists_done (Cfg.graphOf_closed hm) h
    exact ⟨k, _, ((problem m).solveForward_eq_ok (Cfg.graphOf_closed hm)).mpr ⟨hk, rfl⟩⟩

section Endless

/-- A loop in which `a = b + b` is visited before anything is known of `b`, and again after that.
What comes of the one visit and of the other goes round the loop, each undoing the one before it. -/
def ring : Method :=
  let a : Var := ⟨"a", .prim .int⟩
  let b : Var := ⟨"b", .prim .int⟩
  .make "ring" [] .void [a, b]
    [⟨.assign (.var b) (.int 0), 1⟩, ⟨.goto (.stmt 3), 2⟩,
      ⟨.assign (.var a) (.bin .add (.var b) (.var b)), 3⟩,
      ⟨.branch (.bin .eq (.var b) (.var b)) (.stmt 2), 4⟩, ⟨.goto (.stmt 0), 5⟩]

/-- A loop that swaps `a` and `b`, within one that sets `a` to a constant and `b` to what is never
known. The two keep changing places. -/
def swap : Method :=
  let a : Var := ⟨"a", .prim .int⟩
  let b : Var := ⟨"b", .prim .int⟩
  let t : Var := ⟨"t", .prim .int⟩
  let u : Var := ⟨"u", .prim .int⟩
  let x : Var := ⟨"x", .prim .int⟩
  .make "swap" [] .void [a, b, t, u, x]
    [⟨.assign (.var t) (.var a), 1⟩, ⟨.assign (.var a) (.var b), 2⟩,
      ⟨.assign (.var b) (.var t), 3⟩, ⟨.branch (.bin .eq (.var a) (.var a)) (.stmt 0), 4⟩,
      ⟨.assign (.var x) (.int 3), 5⟩, ⟨.assign (.var b) (.var u), 6⟩,
      ⟨.assign (.var t) (.var u), 7⟩, ⟨.assign (.var a) (.bin .add (.var x) (.int 1)), 8⟩,
      ⟨.goto (.stmt 0), 9⟩]

theorem ring_circles : Alike ((problem ring).stateAt (Cfg.graphOf ring) .fifo 14)
    ((problem ring).stateAt (Cfg.graphOf ring) .fifo (14 + 10)) :=
  ⟨by decide, by decide, by decide⟩

theorem swap_circles : Alike ((problem swap).stateAt (Cfg.graphOf swap) .lifo 21)
    ((problem swap).stateAt (Cfg.graphOf swap) .lifo (21 + 16)) :=
  ⟨by decide, by decide, by decide⟩

theorem finishes_iff_ring : ring.Resolved ∧ ∃ g, Cfg.build ring = .ok g ∧
    ((∃ fuel sol, (problem ring).solveForward g .fifo fuel = .ok sol) ↔
      ∃ start, ∀ k ≥ start, ¬ Retracts ((problem ring).stateAt g .fifo k).table
        ((problem ring).stateAt g .fifo (k + 1)).table) :=
  ⟨by decide, finishes_iff (by decide) .fifo⟩

/-- In either order of visits there is a method on which constant propagation never finishes. -/
theorem constProp_never_finishes :
    (∃ g, Cfg.build ring = .ok g ∧
      ∀ fuel, (problem ring).solveForward g .fifo fuel = .error .unfinished) ∧
    ∃ g, Cfg.build swap = .ok g ∧
      ∀ fuel, (problem swap).solveForward g .lifo fuel = .error .unfinished := by
  have hring : ring.Resolved := by decide
  have hswap : swap.Resolved := by decide
  refine ⟨⟨_, Cfg.build_eq_ok.mpr ⟨hring, rfl⟩, fun fuel => ?_⟩,
    ⟨_, Cfg.build_eq_ok.mpr ⟨hswap, rfl⟩, fun fuel => ?_⟩⟩
  · exact solveForward_eq_unfinished (Cfg.graphOf_closed hring)
      (ring_circles.never_done (by decide) (by decide) fuel)
  · exact solveForward_eq_unfinished (Cfg.graphOf_closed hswap)
      (swap_circles.never_done (by decide) (by decide) fuel)

end Endless

end ConstProp

end MethodFlow
