import MethodFlow.DeadCode
import MethodFlow.Proofs.LivePaths
import MethodFlow.Proofs.PlainCode

/-!
What is listed as used beside what is read. A statement reads all that it lists and all that it
hides, and what it lists is live in front of it. Plain code hides nothing, but a variable two steps
inside a value, or one step inside what is returned, can be read and not be live.
-/

namespace MethodFlow

/-- What is so of all that a statement lists is so of all that it reads exactly when it is so of
what it hides. -/
theorem Instr.forall_reads_iff {τ : Type} {s : Instr τ} {P : Var → Prop}
    (hused : ∀ v ∈ s.usedVars, P v) : (∀ v ∈ s.reads, P v) ↔ ∀ v, s.Hides v → P v := by
  constructor
  · exact fun h v hv => h v (mem_reads.mpr (Or.inr hv))
  · intro h v hv
    rcases mem_reads.mp hv with hv | hv
    · exact hused v hv
    · exact h v hv

namespace Liveness

/-- A statement lists every variable that it reads exactly when it lists those that it hides, as
plain statements do, which hide none. All that it lists is live in front of it, so every variable
that it reads is live there exactly when those that it hides are. -/
theorem reads_used_iff (s : Instr Target) :
    ((∀ v ∈ s.reads, .var v ∈ s.uses) ↔ ∀ v, s.Hides v → .var v ∈ s.uses) ∧
    (s.IsPlain → ∀ v ∈ s.reads, .var v ∈ s.uses) ∧
    ∀ (m : Method) (i : Nat), m.Resolved → m.instr? i = some s → ∃ g, Cfg.build m = .ok g ∧
      (∃ fuel sol, (problem m).solveBackward g fuel = .ok sol) ∧
      ∀ fuel sol, (problem m).solveBackward g fuel = .ok sol →
        ∃ before, sol.table.fact .input (.stmt i) = .ok before ∧
          (∀ v, .var v ∈ s.uses → v ∈ before) ∧
          ((∀ v ∈ s.reads, v ∈ before) ↔ ∀ v, s.Hides v → v ∈ before) := by
  have hlisted : (∀ v ∈ s.reads, .var v ∈ s.uses) ↔ ∀ v, s.Hides v → .var v ∈ s.uses :=
    Instr.forall_reads_iff fun v hv => Instr.mem_usedVars.mp hv
  refine ⟨hlisted, fun hs => hlisted.mpr fun v hv => absurd hv (hs.not_hides v), ?_⟩
  intro m i hm hi
  have hg := Cfg.graphOf_closed hm
  refine ⟨Cfg.graphOf m, Cfg.build_eq_ok.mpr ⟨hm, rfl⟩, (isMonotone m).exists_solveBackward hg, ?_⟩
  intro fuel sol hsol
  have hsolved := solved_of_solveBackward hg hsol
  have hlive : ∀ v ∈ s.usedVars, v ∈ sol.table.look ∅ .input (.stmt i) :=
    fun v hv => (hsolved.input_stmt hi).mpr (Or.inl hv)
  exact ⟨_, hsolved.covers.fact (Cfg.has_stmt hi) ∅ .input,
    fun v hv => hlive v (Instr.mem_usedVars.mpr hv), Instr.forall_reads_iff hlive⟩

/-- A statement that hides a variable in its first factor, and lists it as its second. -/
def product (a y : Var) : Instr Target :=
  .assign (.var y) (.bin .mul (.bin .add (.neg (.var a)) (.int 3)) (.var a))

theorem product_hides (a y : Var) : (product a y).Hides a := by
  refine ⟨.bin .add (.neg (.var a)) (.int 3), List.mem_cons_self, .neg (.var a),
    List.mem_cons_self, ?_, List.mem_cons_self⟩
  simp [product, Instr.uses, Place.toExpr, Expr.operands]

def factored : Method :=
  let p : Var := ⟨"p", .prim .int⟩
  let a : Var := ⟨"a", .prim .int⟩
  let y : Var := ⟨"y", .prim .int⟩
  ⟨"m", [p], .prim .int, [p, a, y],
    [⟨.assign (.var a) (.bin .add (.var p) (.int 1)), 1⟩, ⟨product a y, 2⟩,
      ⟨.ret (some (.var y)), 3⟩]⟩

theorem reads_used_iff_factored :
    let p : Var := ⟨"p", .prim .int⟩
    let a : Var := ⟨"a", .prim .int⟩
    let y : Var := ⟨"y", .prim .int⟩
    let sum : Instr Target := .assign (.var a) (.bin .add (.var p) (.int 1))
    (sum.IsPlain ∧ ∀ v ∈ sum.reads, .var v ∈ sum.uses) ∧
    (product a y).Hides a ∧ (∀ v ∈ (product a y).reads, .var v ∈ (product a y).uses) ∧
    factored.Resolved ∧ factored.instr? 1 = some (product a y) ∧
    ∃ g fuel sol before, Cfg.build factored = .ok g ∧
      (problem factored).solveBackward g fuel = .ok sol ∧
      sol.table.fact .input (.stmt 1) = .ok before ∧ ∀ v ∈ (product a y).reads, v ∈ before := by
  intro p a y sum
  have hplain : sum.IsPlain := by
    refine ⟨List.forall_mem_nil _, fun e he => ?_, rfl⟩
    rcases List.mem_pair.mp he with rfl | rfl <;> rfl
  have hm : factored.Resolved := by decide
  obtain ⟨-, hsum, -⟩ := reads_used_iff sum
  obtain ⟨hlisted, -, hlive⟩ := reads_used_iff (product a y)
  have hlists : ∀ v ∈ (product a y).reads, .var v ∈ (product a y).uses := by
    refine hlisted.mpr fun v hv => ?_
    have hread : v ∈ [a, a] := Instr.mem_reads.mpr (Or.inr hv)
    rcases List.mem_pair.mp hread with rfl | rfl <;> exact List.mem_cons_of_mem _ List.mem_cons_self
  obtain ⟨g, hg, ⟨fuel, sol, hsol⟩, h⟩ := hlive factored 1 hm rfl
  obtain ⟨before, hbefore, hin, -⟩ := h fuel sol hsol
  exact ⟨⟨hplain, hsum hplain⟩, product_hides a y, hlists, hm, rfl, g, fuel, sol, before, hg, hsol,
    hbefore, fun v hv => hin v (hlists v hv)⟩

/-- A variable two steps inside a value, and two one step inside what is returned. -/
def nested : Method :=
  let p : Var := ⟨"p", .prim .int⟩
  let a : Var := ⟨"a", .prim .int⟩
  let b : Var := ⟨"b", .prim .int⟩
  let y : Var := ⟨"y", .prim .int⟩
  ⟨"m", [p], .prim .int, [p, a, b, y],
    [⟨.assign (.var a) (.int 1), -1⟩, ⟨.assign (.var b) (.int 2), -1⟩,
      ⟨.assign (.var y) (.bin .add (.bin .add (.var a) (.int 3)) (.var p)), -1⟩,
      ⟨.ret (some (.bin .add (.var y) (.var b))), -1⟩]⟩

/-- The sum reads `a` without listing it, and `a` is not live in front of it. What is returned reads
`y` and `b` in the same way, and so all three assignments are found to be dead. -/
theorem reads_missed_nested :
    let a : Var := ⟨"a", .prim .int⟩
    let b : Var := ⟨"b", .prim .int⟩
    let y : Var := ⟨"y", .prim .int⟩
    ∃ g constants live s r before, Cfg.build nested = .ok g ∧
      (ConstProp.problem nested).solveForward g .fifo 20 = .ok constants ∧
      (problem nested).solveBackward g 5 = .ok live ∧
      nested.instr? 2 = some s ∧ a ∈ s.reads ∧ .var a ∉ s.uses ∧
      live.table.fact .input (.stmt 2) = .ok before ∧ a ∉ before ∧
      nested.instr? 3 = some r ∧ r.reads = [y, b] ∧ r.usedVars = [] ∧
      DeadCode.detect ⟨nested, g, constants.table.fact .input, live.table.fact .output⟩ =
        .ok [0, 1, 2] := by
  have hm : nested.Resolved := by decide
  refine ⟨Cfg.graphOf nested, _, _, _, _, _, Cfg.build_eq_ok.mpr ⟨hm, rfl⟩, rfl, rfl, rfl, ?_, ?_,
    rfl, ?_, rfl, rfl, rfl, rfl⟩
  · decide
  · simp [Instr.uses, Place.toExpr, Expr.operands]
  · decide

end Liveness

end MethodFlow
