import MethodFlow.Proofs.FeasiblePaths
import MethodFlow.Proofs.PlainCode

/-!
What is given up with the assignments that are found to be useless. Their values are pure, so the
outermost operation never acts; a value of plain code is then harmless all through, but a deeper one
can act in its operands.
-/

namespace MethodFlow.DeadCode

/-- What the finished solvers come to is all that the detection looks up. -/
theorem isComplete_of_solved {m : Method} {g : Cfg} (hg : Cfg.build m = .ok g) {order : Order}
    {fuel fuel' : Nat} {constants : Solution ConstMap} {live : Solution VarSet}
    (hconstants : (ConstProp.problem m).solveForward g order fuel = .ok constants)
    (hlive : (Liveness.problem m).solveBackward g fuel' = .ok live) :
    Evidence.IsComplete ⟨m, g, constants.table.fact .input, live.table.fact .output⟩ := by
  obtain ⟨hm, rfl⟩ := Cfg.build_eq_ok.mp hg
  have hclosed := Cfg.graphOf_closed hm
  have hsolve := Problem.solves_of_solveForward (ConstProp.joining m) hclosed hconstants
  have hsolved := Liveness.solved_of_solveBackward hclosed hlive
  exact ⟨hm, rfl, hsolve.covers .input, hsolved.covers .output⟩

/-- An assignment that is found to be dead, though it is reached, gives a variable a value whose
outermost operation does not act. The value is harmless exactly when its operands are, as they are
where they are atoms. -/
theorem reported_harmless_iff {m : Method} {g : Cfg} (hg : Cfg.build m = .ok g) {order : Order}
    {fuel fuel' : Nat} {constants : Solution ConstMap} {live : Solution VarSet}
    (hconstants : (ConstProp.problem m).solveForward g order fuel = .ok constants)
    (hlive : (Liveness.problem m).solveBackward g fuel' = .ok live) :
    let w : Evidence := ⟨m, g, constants.table.fact .input, live.table.fact .output⟩
    ∃ dead, detect w = .ok dead ∧ ∀ i ∈ dead, w.IsReached (.stmt i) →
      ∀ p e, m.instr? i = some (.assign p e) → (∃ v, p = .var v) ∧ ¬ e.MayAct ∧
        (e.IsHarmless ↔ ∀ a ∈ e.operands, a.IsHarmless) ∧ (e.IsFlat → e.IsHarmless) := by
  intro w
  obtain ⟨dead, hdead, -, hmem⟩ := exists_detect_iff (isComplete_of_solved hg hconstants hlive)
  refine ⟨dead, hdead, fun i hi hreached p e hinstr => ?_⟩
  rcases ((hmem i).mp hi).2 with hunreached | ⟨v, x, _, hx, _, _, hpure⟩
  · exact absurd hreached hunreached
  · obtain ⟨rfl, rfl⟩ : Place.var v = p ∧ x = e := by
      rw [Node.instr_stmt hinstr] at hx
      cases hx
      exact ⟨rfl, rfl⟩
    have hact := Expr.isPure_iff.mp hpure
    exact ⟨⟨v, rfl⟩, hact, Expr.isHarmless_iff.trans (and_iff_right hact),
      fun hflat => hflat.isHarmless hpure⟩

/-- The first statement is reached from the entry, for nothing decides the edge to it. -/
theorem isReached_first {w : Evidence} (hg : w.graph = Cfg.graphOf w.method) {s : Instr Target}
    (hs : w.method.instr? 0 = some s) : w.IsReached (.stmt 0) := by
  have hentry := Cfg.mem_succs_entry w.method
  rw [Cfg.place_of_instr? hs, ← hg] at hentry
  have hhas : w.graph.has .entry = true := rfl
  refine .single ((leads_iff_of_free hhas fun c f k hc _ _ => ?_).mpr hentry)
  cases hc

/-- A method that computes a value and never reads it. -/
def multipliesInVain : Method :=
  let p : Var := ⟨"p", .prim .int⟩
  let x : Var := ⟨"x", .prim .int⟩
  ⟨"m", [p], .void, [p, x],
    [⟨.assign (.var x) (.bin .mul (.bin .add (.var p) (.int 1)) (.var p)), 1⟩, ⟨.ret none, 2⟩]⟩

theorem reported_harmless_iff_multipliesInVain :
    ∃ g constants live, Cfg.build multipliesInVain = .ok g ∧
      (ConstProp.problem multipliesInVain).solveForward g .fifo 10 = .ok constants ∧
      (Liveness.problem multipliesInVain).solveBackward g 5 = .ok live ∧
      let w : Evidence :=
        ⟨multipliesInVain, g, constants.table.fact .input, live.table.fact .output⟩
      detect w = .ok [0] ∧ w.IsReached (.stmt 0) ∧
        ∃ p e, multipliesInVain.instr? 0 = some (.assign p e) ∧ e.IsHarmless := by
  have hm : multipliesInVain.Resolved := by decide
  have hg : Cfg.build multipliesInVain = .ok (Cfg.graphOf multipliesInVain) :=
    Cfg.build_eq_ok.mpr ⟨hm, rfl⟩
  obtain ⟨constants, live, hconstants, hlive, hdetect⟩ : ∃ constants live,
      (ConstProp.problem multipliesInVain).solveForward (Cfg.graphOf multipliesInVain) .fifo 10 =
        .ok constants ∧
      (Liveness.problem multipliesInVain).solveBackward (Cfg.graphOf multipliesInVain) 5 =
        .ok live ∧
      detect ⟨multipliesInVain, Cfg.graphOf multipliesInVain, constants.table.fact .input,
        live.table.fact .output⟩ = .ok [0] := ⟨_, _, rfl, rfl, rfl⟩
  obtain ⟨dead, hdead, h⟩ := reported_harmless_iff hg hconstants hlive
  cases hdead.symm.trans hdetect
  have hreached := isReached_first (w := ⟨multipliesInVain, Cfg.graphOf multipliesInVain,
    constants.table.fact .input, live.table.fact .output⟩) rfl rfl
  obtain ⟨-, -, hiff, -⟩ := h 0 List.mem_cons_self hreached _ _ rfl
  refine ⟨_, constants, live, hg, hconstants, hlive, hdetect, hreached, _, _, rfl, ?_⟩
  refine hiff.mpr fun a ha => ?_
  rcases List.mem_pair.mp ha with rfl | rfl
  · refine Expr.IsFlat.isHarmless (fun b hb => ?_) rfl
    rcases List.mem_pair.mp hb with rfl | rfl <;> rfl
  · exact Expr.isHarmless_of_operands_eq_nil rfl rfl

/-- A method that divides and adds and never reads the result. -/
def dividesInVain : Method :=
  let p : Var := ⟨"p", .prim .int⟩
  let q : Var := ⟨"q", .prim .int⟩
  let x : Var := ⟨"x", .prim .int⟩
  ⟨"m", [p, q], .void, [p, q, x],
    [⟨.assign (.var x) (.bin .add (.bin .div (.var p) (.var q)) (.int 1)), -1⟩, ⟨.ret none, -1⟩]⟩

/-- The sum hides a quotient, and its assignment is found to be dead nonetheless. -/
theorem reported_quotient : ∃ g constants live, Cfg.build dividesInVain = .ok g ∧
      (ConstProp.problem dividesInVain).solveForward g .fifo 10 = .ok constants ∧
      (Liveness.problem dividesInVain).solveBackward g 5 = .ok live ∧
      let w : Evidence := ⟨dividesInVain, g, constants.table.fact .input, live.table.fact .output⟩
      detect w = .ok [0] ∧ w.IsReached (.stmt 0) ∧
      let quotient : Expr := .bin .div (.var ⟨"p", .prim .int⟩) (.var ⟨"q", .prim .int⟩)
      let sum : Expr := .bin .add quotient (.int 1)
      dividesInVain.instr? 0 = some (.assign (.var ⟨"x", .prim .int⟩) sum) ∧
        sum.Contains quotient ∧ quotient.MayAct := by
  have hm : dividesInVain.Resolved := by decide
  exact ⟨Cfg.graphOf dividesInVain, _, _, Cfg.build_eq_ok.mpr ⟨hm, rfl⟩, rfl, rfl, rfl,
    isReached_first rfl rfl, rfl, .of_operand List.mem_cons_self .refl, .quotient _ _⟩

end MethodFlow.DeadCode
