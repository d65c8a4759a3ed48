import MethodFlow.Proofs.BackwardRun

/-!
Liveness after a finished run: what a statement reads is live in front of it, and so is what is live
behind it and not set by it.
-/

namespace MethodFlow.Liveness

open Problem

variable {m : Method} {g : Cfg} {t : FactTable VarSet} {n k : Node} {v : Var}

theorem mem_foldl_add {vs : List Var} {s : VarSet} :
    v ∈ vs.foldl VarSet.add s ↔ v ∈ vs ∨ v ∈ s := by
  induction vs generalizing s with
  | nil => simp
  | cons w vs ih =>
    rw [List.foldl_cons, ih, VarSet.mem_add, List.mem_cons]
    exact or_left_comm.trans or_assoc.symm

theorem mem_transfer {τ : Type} {s : Instr τ} {after : VarSet} :
    v ∈ transfer s after ↔ v ∈ s.usedVars ∨ v ∈ after ∧ s.def? ≠ some v := by
  rw [transfer, mem_foldl_add]
  refine or_congr_right ?_
  cases hd : s.def? with
  | none => simp
  | some w =>
    rw [Option.elim_some, VarSet.mem_remove]
    simp [eq_comm]

/-- A table that a finished run of liveness left. -/
structure Solved (m : Method) (g : Cfg) (t : FactTable VarSet) : Prop where
  covers : t.Covers g
  balanced : ∀ n, g.has n = true → n ≠ .exit → Balanced (problem m) g VarSet.members t n

theorem solved_of_solveBackward (hg : g.Closed) {fuel : Nat} {sol : Solution VarSet}
    (h : (problem m).solveBackward g fuel = .ok sol) : Solved m g sol.table :=
  have hb := balanced_of_solveBackward (joining m) hg h
  ⟨hb.1, hb.2⟩

/-- What is live in front of a node is live behind every node that leads to it. -/
theorem Solved.output (h : Solved m g t) (hn : g.has n = true) (he : n ≠ .exit)
    (hk : k ∈ g.succs n) (hv : v ∈ t.look ∅ .input k) : v ∈ t.look ∅ .output n := by
  have hle := (joining m).le_merged (t := t) (s := .input) hk
  have hset := (h.balanced n hn he).output
  exact VarSet.mem_members.mp (hset ▸ hle hv)

/-- What is live in front of a node: what it reads, and what is live behind it and not set by it. -/
theorem Solved.input (h : Solved m g t) (hn : g.has n = true) (he : n ≠ .exit) :
    v ∈ t.look ∅ .input n ↔
      v ∈ (n.instr m).usedVars ∨ v ∈ t.look ∅ .output n ∧ (n.instr m).def? ≠ some v := by
  have hset := Set.ext_iff.mp (h.balanced n hn he).input v
  exact hset.trans mem_transfer

theorem Solved.input_stmt (h : Solved m (Cfg.graphOf m) t) {i : Nat} {s : Instr Target}
    (hs : m.instr? i = some s) : v ∈ t.look ∅ .input (.stmt i) ↔
      v ∈ s.usedVars ∨ v ∈ t.look ∅ .output (.stmt i) ∧ s.def? ≠ some v := by
  have hin := h.input (v := v) (Cfg.has_stmt hs) nofun
  rwa [Node.instr_stmt hs] at hin

end MethodFlow.Liveness
