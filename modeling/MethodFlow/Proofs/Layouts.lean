import MethodFlow.Proofs.Attempt
import MethodFlow.Proofs.Meanings

/-!
How the statements of a body come about: what a command means is made of what its phrases mean, a
layout has the statements of its items, and resolving their jumps changes nothing else of them.
-/

namespace MethodFlow

/-- Statements that are the same but for their jumps, which go together in pairs. -/
inductive Instr.Rel {τ σ : Type} (R : τ → σ → Prop) : Instr τ → Instr σ → Prop
  | assign (p : Place) (e : Expr) : Rel R (.assign p e) (.assign p e)
  | call (p : Option Place) (e : Expr) : Rel R (.call p e) (.call p e)
  | branch (c : Expr) {t : τ} {u : σ} (h : R t u) : Rel R (.branch c t) (.branch c u)
  | goto {t : τ} {u : σ} (h : R t u) : Rel R (.goto t) (.goto u)
  | switch (v : Var) (ks : List Int) {ts : List τ} {us : List σ} {d : τ} {e : σ}
      (hts : List.Forall₂ R ts us) (hd : R d e) : Rel R (.switch v ks ts d) (.switch v ks us e)
  | ret (e : Option Expr) : Rel R (.ret e) (.ret e)
  | nop : Rel R .nop .nop

namespace Source

section Commands

variable {s : Scope} {p : Pos} {i : Instr LabelRef}

/-- An assignment of a call calls, and writes to a variable; any other assigns. -/
theorem Assignment.parts_of_meaning {a : Assignment} (h : a.meaning s p = .ok i) :
    ∃ q e, a.left.meaning s p = .ok q ∧ a.right.meaning s (p.after a.head) = .ok e ∧
      (a.right.isCall = false ∧ i = .assign q e ∨
        a.right.isCall = true ∧ (∃ v, q = .var v) ∧ i = .call (some q) e) := by
  obtain ⟨q, hq, h⟩ := Attempt.bind_eq_ok.mp h
  obtain ⟨e, he, h⟩ := Attempt.bind_eq_ok.mp h
  refine ⟨q, e, hq, he, ?_⟩
  split at h
  · rename_i hcall
    cases h
    exact .inl ⟨by simpa using hcall, rfl⟩
  · rename_i hcall
    split at h
    · cases h
      exact .inr ⟨by simpa using hcall, ⟨_, rfl⟩, rfl⟩
    · cases h

/-- A switch has cases with different values, and each leads to the label that it names. -/
theorem Switch.parts_of_meaning {w : Switch} (h : w.meaning s p = .ok i) :
    ∃ cases v p', Case.meanings (p.after w.head) w.cases = .ok cases ∧
      s.lookup (p.after w.start) w.selector = .ok v ∧ repeated? [] cases = none ∧
        i = .switch v (cases.map Prod.fst) (cases.map Prod.snd) (w.default.jump.target p') := by
  obtain ⟨cases, hcases, h⟩ := Attempt.bind_eq_ok.mp h
  obtain ⟨v, hv, h⟩ := Attempt.bind_eq_ok.mp h
  split at h
  · obtain ⟨_, _, h⟩ := Attempt.bind_eq_ok.mp h
    cases h
  · rename_i hrepeated
    cases h
    exact ⟨cases, v, _, hcases, hv, hrepeated, rfl⟩

end Commands

namespace Layout

variable {s : Scope} {p : Pos} {l l' : Layout LabelRef} {items : List Item} {xs : List Stmt}

/-- What every command means holds of every statement that is laid out. -/
theorem forall_ofItems {P : Instr LabelRef → Prop}
    (hP : ∀ (c : Command) p i, c.meaning s p = .ok i → P i) (hl : ∀ y ∈ l.stmts, P y.instr)
    (h : ofItems s p l items = .ok l') : ∀ y ∈ l'.stmts, P y.instr := by
  induction items generalizing p l with
  | nil =>
    cases h
    exact hl
  | cons x items ih =>
    obtain ⟨l₁, h₁, h⟩ := Attempt.bind_eq_ok.mp h
    refine ih ?_ h
    cases x with
    | label y =>
      cases h₁
      exact hl
    | statement y =>
      obtain ⟨i, hi, h₁⟩ := Attempt.bind_eq_ok.mp h₁
      cases h₁
      exact List.forall_mem_append.mpr ⟨hl, List.forall_mem_singleton.mpr (hP y.command p i hi)⟩

theorem rel_of_resolveInstr {i : Instr LabelRef} {i' : Instr Target}
    (h : l.resolveInstr i = .ok i') : Instr.Rel (fun x t => l.resolve x = .ok t) i i' := by
  cases i with
  | branch c x =>
    obtain ⟨t, ht, h⟩ := Attempt.bind_eq_ok.mp h
    cases h
    exact .branch c ht
  | goto x =>
    obtain ⟨t, ht, h⟩ := Attempt.bind_eq_ok.mp h
    cases h
    exact .goto ht
  | switch v ks ts d =>
    obtain ⟨ts', hts, h⟩ := Attempt.bind_eq_ok.mp h
    obtain ⟨d', hd, h⟩ := Attempt.bind_eq_ok.mp h
    cases h
    exact .switch v ks (Attempt.mapM_eq_ok.mp hts) hd
  | assign q e =>
    cases h
    exact .assign q e
  | call q e =>
    cases h
    exact .call q e
  | ret e =>
    cases h
    exact .ret e
  | nop =>
    cases h
    exact .nop

/-- A body has the statements of its layout, with their jumps resolved. -/
theorem rel_of_body (h : l.body = .ok xs) : l.check = .ok () ∧
    List.Forall₂ (fun (y : Pending LabelRef) (x : Stmt) =>
      Instr.Rel (fun x t => l.resolve x = .ok t) y.instr x.instr) l.stmts xs := by
  obtain ⟨⟨⟩, hcheck, h⟩ := Attempt.bind_eq_ok.mp h
  refine ⟨hcheck, (Attempt.mapM_eq_ok.mp h).imp fun y x hx => ?_⟩
  obtain ⟨i, hi, hx⟩ := Attempt.bind_eq_ok.mp hx
  cases hx
  exact rel_of_resolveInstr hi

/-- What holds of every statement of a layout and is kept when jumps are resolved holds of the
body. -/
theorem forall_body {P : Instr LabelRef → Prop} {Q : Instr Target → Prop} (h : l.body = .ok xs)
    (hl : ∀ y ∈ l.stmts, P y.instr)
    (hkeep : ∀ i i', Instr.Rel (fun x t => l.resolve x = .ok t) i i' → P i → Q i') :
    ∀ x ∈ xs, Q x.instr :=
  Attempt.forall_mem_of_forall₂ ((List.forall₂_and_left _ _).mpr ⟨hl, (rel_of_body h).2⟩)
    fun y x hx => hkeep y.instr x.instr hx.2 hx.1

end Layout

/-- What the meaning of a declaration is made of. -/
theorem MethodDecl.parts_of_meaning {d : MethodDecl} {p : Pos} {m : Method}
    (h : d.meaning p = .ok m) : ∃ ret params scope l xs,
      d.type.meaning (p.after d.start) = .ok ret ∧
      (d.params.elim (.ok []) fun ps =>
        declareParams [] (ps.list.placed (p.after d.head) Param.text)) = .ok params ∧
      declareVars params (p.after d.front) d.decls = .ok scope ∧
      Layout.ofItems scope ((p.after d.front).after (d.decls.flatMap VarDecl.text)) .empty d.items =
        .ok l ∧
      l.body = .ok xs ∧ m = .make (String.ofList d.name) params ret scope xs := by
  obtain ⟨ret, hret, h⟩ := Attempt.bind_eq_ok.mp h
  obtain ⟨params, hparams, h⟩ := Attempt.bind_eq_ok.mp h
  obtain ⟨scope, hscope, h⟩ := Attempt.bind_eq_ok.mp h
  obtain ⟨l, hl, h⟩ := Attempt.bind_eq_ok.mp h
  obtain ⟨xs, hxs, h⟩ := Attempt.bind_eq_ok.mp h
  cases h
  exact ⟨ret, params, scope, l, xs, hret, hparams, hscope, hl, hxs, rfl⟩

end Source

end MethodFlow
