import MethodFlow.Proofs.Machine
import MethodFlow.Proofs.ScopedCode

/-!
What a statement reads: every variable in the expressions that it evaluates. What it does hangs on
these variables and on no others. The expressions that a statement lists as used are not all of
these, and a variable further inside can be hidden.
-/

namespace MethodFlow

namespace Expr

theorem sizeOf_operand_lt {e a : Expr} (h : a ∈ e.operands) : sizeOf a < sizeOf e := by
  cases e with
  | bin op b c =>
    rcases List.mem_pair.mp h with rfl | rfl <;> (rw [bin.sizeOf_spec]; omega)
  | element b i =>
    rcases List.mem_pair.mp h with rfl | rfl <;> (rw [element.sizeOf_spec]; omega)
  | neg b | newArray t b | cast t b | field b f =>
    obtain rfl := List.mem_singleton.mp h
    simp only [neg.sizeOf_spec, newArray.sizeOf_spec, cast.sizeOf_spec, field.sizeOf_spec]
    omega
  | call r m args =>
    rw [call.sizeOf_spec]
    rcases List.mem_append.mp h with h | h
    · cases r with
      | var v =>
        rw [List.mem_singleton.mp h, var.sizeOf_spec, Receiver.var.sizeOf_spec]
        omega
      | _ => cases h
    · have := List.sizeOf_lt_of_mem h
      omega
  | _ => cases h

/-- What holds of an expression whenever it holds of its operands holds of all expressions. -/
@[elab_as_elim]
theorem operand_induction {P : Expr → Prop} (inside : ∀ e, (∀ a ∈ e.operands, P a) → P e)
    (e : Expr) : P e :=
  inside e fun a _ => operand_induction inside a
termination_by sizeOf e
decreasing_by exact sizeOf_operand_lt ‹_›

theorem mem_vars {e : Expr} {v : Var} :
    v ∈ e.vars ↔ e = .var v ∨ ∃ a ∈ e.operands, v ∈ a.vars := by
  cases e <;> simp [vars, operands, mem_varsOfAll, or_and_right, exists_or, eq_comm]

end Expr

namespace Instr

variable {τ : Type}

/-- The variables that executing a statement reads: all in what it evaluates, which is its value,
its condition, its selector, and what tells the place that it writes to. -/
def reads : Instr τ → List Var
  | assign p e => Expr.varsOfAll p.toExpr.operands ++ e.vars
  | call p e => p.elim [] (fun p => Expr.varsOfAll p.toExpr.operands) ++ e.vars
  | branch c _ => c.vars
  | switch v _ _ _ => [v]
  | ret e => e.elim [] Expr.vars
  | goto _ | nop => []

/-- The variable is in an operand that the statement does not list as used, though it lists the
expression that the operand belongs to. -/
def Hides (s : Instr τ) (v : Var) : Prop :=
  ∃ e ∈ s.uses, ∃ a ∈ e.operands, a ∉ s.uses ∧ v ∈ a.vars

variable {s : Instr τ} {v : Var}

theorem mem_usedVars : v ∈ s.usedVars ↔ .var v ∈ s.uses := by
  rw [usedVars, List.mem_filterMap]
  constructor
  · rintro ⟨e, he, hv⟩
    cases e <;> simp_all
  · exact fun h => ⟨_, h, rfl⟩

/-- The operands of an expression add no variables to those in the expression. -/
theorem exists_mem_operands_iff {e : Expr} :
    (∃ a ∈ e.operands ++ [e], v ∈ a.vars) ↔ v ∈ e.vars := by
  constructor
  · rintro ⟨a, ha, hv⟩
    rcases List.mem_append.mp ha with ha | ha
    · exact Expr.mem_vars.mpr (Or.inr ⟨a, ha, hv⟩)
    · exact List.mem_singleton.mp ha ▸ hv
  · exact fun hv => ⟨e, List.mem_append_right _ List.mem_cons_self, hv⟩

theorem exists_mem_written_iff {p : Place} {e : Expr} :
    (∃ a ∈ p.toExpr.operands ++ e.operands ++ [e], v ∈ a.vars) ↔
      v ∈ Expr.varsOfAll p.toExpr.operands ++ e.vars := by
  rw [List.append_assoc, List.mem_append, Expr.mem_varsOfAll, ← exists_mem_operands_iff]
  simp only [List.mem_append, or_and_right, exists_or]

/-- What a statement reads is in the expressions that it lists. -/
theorem mem_reads_iff : v ∈ s.reads ↔ ∃ e ∈ s.uses, v ∈ e.vars := by
  cases s with
  | assign p e => exact exists_mem_written_iff.symm
  | call p e =>
    cases p with
    | none => exact exists_mem_operands_iff.symm
    | some p => exact exists_mem_written_iff.symm
  | branch c t => exact exists_mem_operands_iff.symm
  | goto t => simp [uses, reads]
  | switch w ks ts d => simp [uses, reads, Expr.vars]
  | ret e => cases e <;> simp [uses, reads]
  | nop => simp [uses, reads]

/-- A variable that is read is listed as used, or it is hidden. -/
theorem mem_reads : v ∈ s.reads ↔ v ∈ s.usedVars ∨ s.Hides v := by
  rw [mem_reads_iff, mem_usedVars]
  constructor
  · rintro ⟨e, he, hv⟩
    -- down from a listed expression to the first operand that is not listed
    induction e using Expr.operand_induction with
    | inside e ih =>
      rcases Expr.mem_vars.mp hv with rfl | ⟨a, ha, hv⟩
      · exact Or.inl he
      · by_cases hlisted : a ∈ s.uses
        · exact ih a ha hlisted hv
        · exact Or.inr ⟨e, he, a, ha, hlisted, hv⟩
  · rintro (h | ⟨e, he, a, ha, -, hv⟩)
    · exact ⟨_, h, List.mem_singleton_self v⟩
    · exact ⟨e, he, Expr.mem_vars.mpr (Or.inr ⟨a, ha, hv⟩)⟩

end Instr

section Congruence

variable {ω : Type} {w : World ω} {μ μ' : Memory ω}

theorem evalAll_congr {args : List Expr} (h : ∀ a ∈ args, eval w μ a = eval w μ' a) :
    evalAll w μ args = evalAll w μ' args := by
  induction args with
  | nil => rw [evalAll, evalAll]
  | cons a r ih =>
    rw [evalAll, evalAll, h a List.mem_cons_self,
      ih fun b hb => h b (List.mem_cons_of_mem a hb)]

/-- The value of an expression hangs on the variables in it. -/
theorem eval_congr {e : Expr} (h : ∀ v ∈ e.vars, μ v = μ' v) : eval w μ e = eval w μ' e := by
  induction e using Expr.operand_induction with
  | inside e ih =>
    have hop : ∀ a ∈ e.operands, eval w μ a = eval w μ' a := fun a ha =>
      ih a ha fun v hv => h v (Expr.mem_vars.mpr (Or.inr ⟨a, ha, hv⟩))
    cases e with
    | var v => rw [eval, eval, read, read, h v (List.mem_singleton_self v)]
    | int n => rw [eval, eval]
    | str s => rw [eval, eval]
    | null => rw [eval, eval]
    | bin op a b =>
      rw [eval, eval, hop a (by simp [Expr.operands]), hop b (by simp [Expr.operands])]
    | neg a => rw [eval, eval, hop a (by simp [Expr.operands])]
    | new t => rw [eval, eval]
    | newArray t a => rw [eval, eval, hop a (by simp [Expr.operands])]
    | cast t a => rw [eval, eval, hop a (by simp [Expr.operands])]
    | field a f => rw [eval, eval, hop a (by simp [Expr.operands])]
    | static c f => rw [eval, eval]
    | element a i =>
      rw [eval, eval, hop a (by simp [Expr.operands]), hop i (by simp [Expr.operands])]
    | call r f args =>
      have hargs := evalAll_congr (w := w) fun a ha => hop a (List.mem_append_right _ ha)
      have hr : r.vars.mapM (read μ) = r.vars.mapM (read μ') := by
        cases r with
        | none => rfl
        | object c => rfl
        | var v =>
          have hv : μ v = μ' v := h v (List.mem_append_left _ (List.mem_singleton_self v))
          simp only [Receiver.vars, List.mapM_cons, List.mapM_nil, read, hv]
      rw [eval, eval, hargs, hr]

theorem write_congr {e : Expr} {p : Place}
    (h : ∀ v ∈ Expr.varsOfAll p.toExpr.operands ++ e.vars, μ v = μ' v) :
    write w μ e p = write w μ' e p := by
  have heval : eval w μ e = eval w μ' e := eval_congr fun v hv => h v (List.mem_append_right _ hv)
  have hop : ∀ a ∈ p.toExpr.operands, eval w μ a = eval w μ' a := fun a ha =>
    eval_congr fun v hv => h v (List.mem_append_left _ (Expr.mem_varsOfAll.mpr ⟨a, ha, hv⟩))
  cases p with
  | var v => rw [write, write, heval]
  | field b f => rw [write, write, heval, hop b (by simp [Place.toExpr, Expr.operands])]
  | static c f => rw [write, write, heval]
  | element b i =>
    rw [write, write, heval, hop b (by simp [Place.toExpr, Expr.operands]),
      hop i (by simp [Place.toExpr, Expr.operands])]

/-- What a statement does hangs on the variables that it reads. -/
theorem execute_congr {s : Instr Target} (h : ∀ v ∈ s.reads, μ v = μ' v) (i : Nat) :
    execute w μ i s = execute w μ' i s := by
  cases s with
  | assign p e => rw [execute, execute, write_congr h]
  | call p e =>
    cases p with
    | none => rw [execute, execute, eval_congr h]
    | some p => rw [execute, execute, write_congr h]
  | branch c t => rw [execute, execute, eval_congr h]
  | goto t => rw [execute, execute]
  | switch v ks ts d => rw [execute, execute, read, read, h v (List.mem_singleton_self v)]
  | ret e =>
    cases e with
    | none => rw [execute, execute]
    | some e => rw [execute, execute, eval_congr h]
  | nop => rw [execute, execute]

end Congruence

end MethodFlow
