import Mathlib.Logic.Function.Iterate
import MethodFlow.Proofs.FactLooks

/-!
Runs of the forward solver as iterations of one total step. A run that is left with no pending node
has solved the equations of its problem, monotone or not, whichever end of the list it took nodes
from.
-/

namespace MethodFlow.Problem

variable {F : Type} [Fact F] (p : Problem F) (g : Cfg)

/-- The fact that a visit leaves in front of a node. -/
def inputAfter (t : FactTable F) (n : Node) : F :=
  (Fact.overwrite (t.look p.initial .input n) (p.merged t .output (g.preds n))).1

/-- The fact that a visit leaves behind a node, and whether it is a new one. -/
def outputAfter (t : FactTable F) (n : Node) : F × Bool :=
  Fact.overwrite (t.look p.initial .output n) (p.transfer n (p.inputAfter g t n))

/-- The state after a visit to `n` that leaves `rest` pending. -/
def visited (n : Node) (rest : List Node) (s : Forward F) : Forward F :=
  let input := p.inputAfter g s.table n
  let output := p.outputAfter g s.table n
  { table := s.table.record n input output.1
    pending := if output.2 then rest ++ g.succs n else rest
    trail := ⟨n, output.2, input, output.1⟩ :: s.trail }

/-- One step of a run; a run with no pending node stays where it is. -/
def advance (order : Order) (s : Forward F) : Forward F :=
  match pop order s.pending with
  | none => s
  | some (n, rest) => p.visited g n rest s

/-- The state of a run after `k` steps. -/
def stateAt (order : Order) (k : Nat) : Forward F :=
  (p.advance g order)^[k] (p.startForward g)

/-- Both sides of every node have facts, and what is pending are nodes behind the entry. -/
structure Sound (s : Forward F) : Prop where
  covers : s.table.Covers g
  pending : ∀ n ∈ s.pending, g.has n = true ∧ n ≠ .entry

section Pop

theorem pop_eq_none {order : Order} {ns : List Node} : pop order ns = none ↔ ns = [] := by
  cases ns <;> cases order <;> simp [pop]

/-- Either order takes one node off the list and leaves the others. -/
theorem pop_perm {order : Order} {ns rest : List Node} {n : Node}
    (h : pop order ns = some (n, rest)) : (n :: rest).Perm ns := by
  cases ns with
  | nil => cases order <;> cases h
  | cons k ks =>
    cases order with
    | fifo =>
      cases h
      exact .refl _
    | lifo =>
      simp only [pop, Option.some.injEq, Prod.mk.injEq] at h
      obtain ⟨rfl, rfl⟩ := h
      refine (List.perm_append_singleton _ _).symm.trans (List.Perm.of_eq ?_)
      exact List.dropLast_append_getLast (by simp)

end Pop

variable {g}

theorem stepForward_eq {s : Forward F} (hs : s.table.Covers g) {n : Node} (hn : g.has n = true)
    (rest : List Node) : p.stepForward g n rest s = .ok (p.visited g n rest s) := by
  have hpreds : ∀ k ∈ g.preds n, g.has k = true := fun k hk => Cfg.has_of_mem_preds hk
  unfold stepForward visitForward checkNode
  rw [if_pos hn, p.gather_eq hs .output hpreds, hs.fact hn p.initial .input,
    hs.fact hn p.initial .output]
  rfl

omit [Fact F] in
theorem mem_pending_start {n : Node} :
    n ∈ (p.startForward g).pending ↔ g.has n = true ∧ n ≠ .entry := by
  rw [← Cfg.mem_nodes]
  exact List.mem_filter.trans (and_congr Iff.rfl decide_eq_true_iff)

omit [Fact F] in
theorem look_startForward (g : Cfg) (side : Side) (n : Node) :
    (p.startForward g).table.look p.initial side n =
      if n = .entry then p.boundary else p.initial :=
  FactTable.look_init_at (Cfg.mem_nodes.mpr rfl) p.boundary side n

omit [Fact F] in
theorem sound_start (g : Cfg) : Sound g (p.startForward g) where
  covers := FactTable.init_covers g _
  pending _ := p.mem_pending_start.mp

theorem mem_pending_visited {n k : Node} {rest : List Node} {s : Forward F}
    (h : k ∈ (p.visited g n rest s).pending) : k ∈ rest ∨ k ∈ g.succs n := by
  simp only [visited] at h
  split at h
  · exact List.mem_append.mp h
  · exact Or.inl h

theorem Sound.visited {s : Forward F} (h : Sound g s) (hg : g.Closed) {n : Node}
    {rest : List Node} (hp : (n :: rest).Perm s.pending) : Sound g (p.visited g n rest s) where
  covers := h.covers.record
  pending k hk := by
    rcases p.mem_pending_visited hk with hk | hk
    · exact h.pending k (hp.subset (List.mem_cons_of_mem n hk))
    · refine ⟨hg.target hk, fun he => ?_⟩
      subst he
      exact hg.entry hk

theorem advance_of_done {s : Forward F} {order : Order} (h : s.pending = []) :
    p.advance g order s = s := by
  unfold advance
  rw [pop_eq_none.mpr h]

/-- A run with fuel is an iteration of its step; it fails only when nodes are left pending. -/
theorem runForward_eq (hg : g.Closed) (order : Order) (fuel : Nat) {s : Forward F}
    (hs : Sound g s) : p.runForward g order fuel s =
      if ((p.advance g order)^[fuel] s).pending = [] then .ok ((p.advance g order)^[fuel] s)
      else .error .unfinished := by
  induction fuel generalizing s with
  | zero =>
    unfold runForward
    cases hp : pop order s.pending with
    | none => simp [pop_eq_none.mp hp]
    | some x =>
      have hne : s.pending ≠ [] := fun he => by simp [pop_eq_none.mpr he] at hp
      simp [hne]
  | succ fuel ih =>
    unfold runForward
    cases hp : pop order s.pending with
    | none =>
      have hd := pop_eq_none.mp hp
      have hfix : (p.advance g order)^[fuel + 1] s = s :=
        Function.iterate_fixed (p.advance_of_done hd) _
      simp [hfix, hd]
    | some x =>
      obtain ⟨n, rest⟩ := x
      have hn := (hs.pending n ((pop_perm hp).subset List.mem_cons_self)).1
      have hadv : p.advance g order s = p.visited g n rest s := by
        unfold advance
        rw [hp]
      rw [Function.iterate_succ_apply, hadv, ← ih (hs.visited p hg (pop_perm hp))]
      simp only [p.stepForward_eq hs.covers hn rest]
      rfl

/-- A solver comes to a result exactly when its run has no node left pending in time. -/
theorem solveForward_eq_ok (hg : g.Closed) {order : Order} {fuel : Nat} {sol : Solution F} :
    p.solveForward g order fuel = .ok sol ↔ (p.stateAt g order fuel).pending = [] ∧
      sol = ⟨(p.stateAt g order fuel).table, (p.stateAt g order fuel).trail.reverse, 0⟩ := by
  unfold solveForward
  rw [p.runForward_eq hg order fuel (p.sound_start g), Attempt.bind_eq_ok]
  change (∃ s, (if (p.stateAt g order fuel).pending = [] then .ok (p.stateAt g order fuel)
    else .error .unfinished : Except Fault (Forward F)) = .ok s ∧ _) ↔ _
  constructor
  · rintro ⟨s, hs, h⟩
    split at hs
    · rename_i hd
      cases hs
      cases h
      exact ⟨hd, rfl⟩
    · cases hs
  · rintro ⟨hd, rfl⟩
    exact ⟨_, if_pos hd, rfl⟩

theorem stateAt_succ (g : Cfg) (order : Order) (k : Nat) :
    p.stateAt g order (k + 1) = p.advance g order (p.stateAt g order k) :=
  Function.iterate_succ_apply' _ _ _

theorem stateAt_succ_cases (g : Cfg) (order : Order) (k : Nat) :
    ((p.stateAt g order k).pending = [] ∧ p.stateAt g order (k + 1) = p.stateAt g order k) ∨
      ∃ n rest, pop order (p.stateAt g order k).pending = some (n, rest) ∧
        p.stateAt g order (k + 1) = p.visited g n rest (p.stateAt g order k) := by
  rw [stateAt_succ]
  unfold advance
  split
  · rename_i hp
    exact Or.inl ⟨pop_eq_none.mp hp, rfl⟩
  · rename_i n rest hp
    exact Or.inr ⟨n, rest, hp, rfl⟩

/-- A run with no node left pending stays as it is. -/
theorem stateAt_of_done {order : Order} {i j : Nat} (h : (p.stateAt g order i).pending = [])
    (hij : i ≤ j) : p.stateAt g order j = p.stateAt g order i := by
  induction j, hij using Nat.le_induction with
  | base => rfl
  | succ j _ ih => rw [stateAt_succ, ih, p.advance_of_done h]

/-- What holds at the start of a run and is kept by every visit holds all along, whichever order
the nodes are visited in. -/
theorem stateAt_induction (hg : g.Closed) {P : Forward F → Prop} (start : P (p.startForward g))
    (step : ∀ s n rest, Sound g s → (n :: rest).Perm s.pending → P s → P (p.visited g n rest s))
    (order : Order) (k : Nat) : Sound g (p.stateAt g order k) ∧ P (p.stateAt g order k) := by
  induction k with
  | zero => exact ⟨p.sound_start g, start⟩
  | succ k ih =>
    obtain ⟨hs, hp⟩ := ih
    rcases p.stateAt_succ_cases g order k with ⟨_, he⟩ | ⟨n, rest, hpop, he⟩
    · exact he ▸ ⟨hs, hp⟩
    · exact he ▸ ⟨hs.visited p hg (pop_perm hpop), step _ _ _ hs (pop_perm hpop) hp⟩

theorem sound_stateAt (hg : g.Closed) (order : Order) (k : Nat) :
    Sound g (p.stateAt g order k) :=
  (p.stateAt_induction hg (P := fun _ => True) trivial (fun _ _ _ _ _ _ => trivial) order k).1

section Arises

/-- The states that a run comes to, with the number of visits before them. -/
inductive Arises (p : Problem F) (g : Cfg) (order : Order) : Nat → Forward F → Prop
  | start : Arises p g order 0 (p.startForward g)
  | visit {k s s' n rest} (h : Arises p g order k s) (hp : pop order s.pending = some (n, rest))
      (hs : p.stepForward g n rest s = .ok s') : Arises p g order (k + 1) s'

variable {order : Order} {k : Nat} {s : Forward F}

/-- No visit of a run fails. -/
theorem visit_stateAt (hg : g.Closed) {n : Node} {rest : List Node}
    (hp : pop order (p.stateAt g order k).pending = some (n, rest)) :
    p.stepForward g n rest (p.stateAt g order k) = .ok (p.stateAt g order (k + 1)) := by
  have hs := p.sound_stateAt hg order k
  have hn := (hs.pending n ((pop_perm hp).subset List.mem_cons_self)).1
  rw [p.stepForward_eq hs.covers hn, stateAt_succ]
  unfold advance
  rw [hp]

theorem Arises.eq_stateAt (hg : g.Closed) (h : Arises p g order k s) :
    s = p.stateAt g order k := by
  induction h with
  | start => rfl
  | visit _ hp hs ih =>
    subst ih
    exact Except.ok.inj (hs.symm.trans (p.visit_stateAt hg hp))

/-- A run goes on until it has no node left pending. -/
theorem Arises.done_or_next (hg : g.Closed) (h : Arises p g order k s) :
    s.pending = [] ∨ ∃ s', Arises p g order (k + 1) s' := by
  have hs := h.eq_stateAt p hg
  subst hs
  cases hp : pop order (p.stateAt g order k).pending with
  | none => exact Or.inl (pop_eq_none.mp hp)
  | some x => exact Or.inr ⟨_, h.visit hp (p.visit_stateAt hg hp)⟩

theorem exists_arises (hg : g.Closed) (order : Order) (k : Nat) :
    ∃ j ≤ k, Arises p g order j (p.stateAt g order k) := by
  induction k with
  | zero => exact ⟨0, le_refl 0, .start⟩
  | succ k ih =>
    obtain ⟨j, hj, h⟩ := ih
    rcases p.stateAt_succ_cases g order k with ⟨_, he⟩ | ⟨n, rest, hp, _⟩
    · exact ⟨j, Nat.le_succ_of_le hj, he ▸ h⟩
    · exact ⟨j + 1, Nat.succ_le_succ hj, h.visit hp (p.visit_stateAt hg hp)⟩

end Arises

variable {p}

theorem look_visited_of_ne {n k : Node} (hk : k ≠ n) (rest : List Node) (s : Forward F)
    (d : F) (side : Side) :
    (p.visited g n rest s).table.look d side k = s.table.look d side k :=
  FactTable.look_record_of_ne hk

@[simp] theorem look_visited_input {n : Node} {rest : List Node} {s : Forward F} {d : F} :
    (p.visited g n rest s).table.look d .input n = p.inputAfter g s.table n :=
  FactTable.look_record_input

@[simp] theorem look_visited_output {n : Node} {rest : List Node} {s : Forward F} {d : F} :
    (p.visited g n rest s).table.look d .output n = (p.outputAfter g s.table n).1 :=
  FactTable.look_record_output

/-- A node that is not pending after a visit has been passed nothing new by it. -/
theorem merged_visited {n k : Node} {rest : List Node} {s : Forward F}
    (hk : k ∉ (p.visited g n rest s).pending) :
    p.merged (p.visited g n rest s).table .output (g.preds k) =
      p.merged s.table .output (g.preds k) := by
  apply p.merged_congr
  intro q hq
  by_cases hqn : q = n
  · subst hqn
    rw [look_visited_output]
    refine Fact.overwrite_unchanged ?_
    cases hc : (p.outputAfter g s.table q).2 with
    | false => exact hc
    | true =>
      exfalso
      apply hk
      simp only [visited, hc, if_true]
      exact List.mem_append_right _ (Cfg.mem_preds.mp hq).2
  · exact look_visited_of_ne hqn rest s p.initial .output

section Equations

variable {α : Type} {view : F → α}

/-- The table `t'` holds at a node what comes of `t` there: the input is what the predecessors pass
on in `t`, and the output is what the node makes of the input. -/
structure Settled (p : Problem F) (g : Cfg) (view : F → α) (t t' : FactTable F) (n : Node) :
    Prop where
  input : view (t'.look p.initial .input n) = view (p.merged t .output (g.preds n))
  output : view (t'.look p.initial .output n) = view (p.transfer n (t'.look p.initial .input n))

/-- All nodes behind the entry that are not pending satisfy their equations, and the entry keeps
the fact that the problem starts from. -/
structure Consistent (p : Problem F) (g : Cfg) (view : F → α) (s : Forward F) : Prop where
  entry : ∀ side, s.table.look p.initial side .entry = p.boundary
  settled : ∀ n, g.has n = true → n ≠ .entry → n ∉ s.pending →
    Settled p g view s.table s.table n

/-- A table that solves the equations of a forward problem. -/
structure Solves (p : Problem F) (g : Cfg) (view : F → α) (t : FactTable F) : Prop where
  covers : t.Covers g
  entry : ∀ side, t.look p.initial side .entry = p.boundary
  settled : ∀ n, g.has n = true → n ≠ .entry → Settled p g view t t n

omit [Fact F] in
theorem consistent_start (p : Problem F) (g : Cfg) (view : F → α) :
    Consistent p g view (p.startForward g) where
  entry side := by
    rw [look_startForward, if_pos rfl]
  settled _ hn he hp := absurd (p.mem_pending_start.mpr ⟨hn, he⟩) hp

variable [SemilatticeSup α] [OrderBot α]

theorem Joining.settled_visited (h : p.Joining view) (g : Cfg) (n : Node) (rest : List Node)
    (s : Forward F) : Settled p g view s.table (p.visited g n rest s).table n where
  input := by
    rw [look_visited_input]
    exact h.view_overwrite _ _
  output := by
    rw [look_visited_output, look_visited_input]
    exact h.view_overwrite _ _

theorem Consistent.visited (h : p.Joining view) {s : Forward F} (hs : Sound g s) {n : Node}
    {rest : List Node} (hp : (n :: rest).Perm s.pending) (hc : Consistent p g view s) :
    Consistent p g view (p.visited g n rest s) where
  entry side := by
    have hne : Node.entry ≠ n := fun he => (hs.pending n (hp.subset List.mem_cons_self)).2 he.symm
    rw [look_visited_of_ne hne]
    exact hc.entry side
  settled k hk he hkp := by
    have hm := merged_visited hkp
    by_cases hkn : k = n
    · subst hkn
      have hset := h.settled_visited g k rest s
      exact ⟨hset.input.trans (congrArg view hm.symm), hset.output⟩
    · have hold : k ∉ s.pending := fun hks => by
        rcases List.mem_cons.mp (hp.symm.subset hks) with hkn' | hr
        · exact hkn hkn'
        · apply hkp
          simp only [Problem.visited]
          split
          · exact List.mem_append_left _ hr
          · exact hr
      obtain ⟨hi, ho⟩ := hc.settled k hk he hold
      refine ⟨?_, ?_⟩
      · rw [look_visited_of_ne hkn, hm, hi]
      · rw [look_visited_of_ne hkn, look_visited_of_ne hkn, ho]

theorem consistent_stateAt (h : p.Joining view) (hg : g.Closed) (order : Order) (k : Nat) :
    Consistent p g view (p.stateAt g order k) :=
  (p.stateAt_induction hg (consistent_start p g view)
    (fun _ _ _ hs hp hc => hc.visited h hs hp) order k).2

/-- Whatever a forward solver returns solves the equations. -/
theorem solves_of_solveForward (h : p.Joining view) (hg : g.Closed) {order : Order} {fuel : Nat}
    {sol : Solution F} (hsol : p.solveForward g order fuel = .ok sol) :
    Solves p g view sol.table := by
  obtain ⟨hd, rfl⟩ := (p.solveForward_eq_ok hg).mp hsol
  have hc := consistent_stateAt h hg order fuel
  refine ⟨(p.sound_stateAt hg order fuel).covers, hc.entry, fun n hn he => ?_⟩
  exact hc.settled n hn he (by simp [hd])

end Equations

end MethodFlow.Problem
