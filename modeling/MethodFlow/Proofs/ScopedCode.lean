import MethodFlow.Proofs.Layouts

/-!
The variables that occur in statements; in what is read from a text they are in scope.
-/

namespace MethodFlow

namespace Expr

mutual

/-- The variables that occur in an expression. -/
def vars : Expr → List Var
  | var v => [v]
  | int _ | str _ | null | new _ | static _ _ => []
  | bin _ a b => a.vars ++ b.vars
  | neg e => e.vars
  | newArray _ n => n.vars
  | cast _ e => e.vars
  | field b _ => b.vars
  | element b i => b.vars ++ i.vars
  | call r _ args => r.vars ++ varsOfAll args

def varsOfAll : List Expr → List Var
  | [] => []
  | e :: r => e.vars ++ varsOfAll r

end

theorem mem_varsOfAll {es : List Expr} {v : Var} : v ∈ varsOfAll es ↔ ∃ e ∈ es, v ∈ e.vars := by
  induction es with
  | nil => exact iff_of_false List.not_mem_nil fun ⟨_, h, _⟩ => nomatch h
  | cons e es ih => simp only [varsOfAll, List.mem_append, ih, List.exists_mem_cons_iff]

end Expr

/-- The variables that occur in a statement. -/
def Instr.vars {τ : Type} : Instr τ → List Var
  | assign p e => p.toExpr.vars ++ e.vars
  | call p e => p.elim [] (fun p => p.toExpr.vars) ++ e.vars
  | branch c _ => c.vars
  | switch v _ _ _ => [v]
  | ret e => e.elim [] Expr.vars
  | goto _ | nop => []

/-- Other jumps change no variable of a statement. -/
theorem Instr.Rel.vars_eq {τ σ : Type} {R : τ → σ → Prop} {i : Instr τ} {i' : Instr σ}
    (h : Instr.Rel R i i') : i'.vars = i.vars := by
  cases h with
  | assign _ _ | call _ _ | branch _ _ | goto _ | switch _ _ _ _ | ret _ | nop => rfl

namespace Source

section Phrases

variable {s : Scope} {p : Pos} {v : Var} {e : Expr} {q : Place}

theorem subset_of_named? {x : String} (h : s.named? x = some v) : [v] ⊆ s :=
  List.cons_subset.mpr ⟨List.mem_of_find?_eq_some h, List.nil_subset s⟩

theorem subset_of_lookup {x : List Char} (h : s.lookup p x = .ok v) : [v] ⊆ s := by
  unfold Scope.lookup at h
  split at h
  · rename_i w hw
    cases h
    exact subset_of_named? hw
  · cases h

theorem Atom.vars_subset {a : Atom} (h : a.meaning s p = .ok e) : e.vars ⊆ s := by
  cases a with
  | name x =>
    obtain ⟨v, hv, h⟩ := Attempt.bind_eq_ok.mp h
    cases h
    exact subset_of_lookup hv
  | int n =>
    obtain ⟨k, _, h⟩ := Attempt.bind_eq_ok.mp h
    cases h
    exact List.nil_subset s
  | string _ | null =>
    cases h
    exact List.nil_subset s

theorem Member.vars_subset (m : Member) (s : Scope) : (m.place s).toExpr.vars ⊆ s := by
  unfold place
  split
  · rename_i v hv
    exact subset_of_named? hv
  · exact List.nil_subset s

theorem Element.vars_subset {x : Element} (h : x.place s p = .ok q) : q.toExpr.vars ⊆ s := by
  obtain ⟨i, hi, h⟩ := Attempt.bind_eq_ok.mp h
  obtain ⟨v, hv, h⟩ := Attempt.bind_eq_ok.mp h
  cases h
  exact List.append_subset.mpr ⟨subset_of_lookup hv, Atom.vars_subset hi⟩

theorem LeftSide.vars_subset {l : LeftSide} (h : l.meaning s p = .ok q) : q.toExpr.vars ⊆ s := by
  cases l with
  | element x => exact Element.vars_subset h
  | member m =>
    cases h
    exact m.vars_subset s
  | name x =>
    obtain ⟨v, hv, h⟩ := Attempt.bind_eq_ok.mp h
    cases h
    exact subset_of_lookup hv

theorem Arguments.vars_subset {a : Arguments} {es : List Expr} (h : a.meaning s p = .ok es) :
    Expr.varsOfAll es ⊆ s := by
  intro v hv
  obtain ⟨e, he, hv⟩ := Expr.mem_varsOfAll.mp hv
  obtain ⟨x, _, hx⟩ := Attempt.mem_of_mapM h he
  exact Atom.vars_subset hx hv

theorem Callee.vars_subset (c : Callee) (s : Scope) : (c.meaning s).1.vars ⊆ s := by
  cases c with
  | plain x => exact List.nil_subset s
  | member m =>
    rw [meaning]
    dsimp only
    split
    · rename_i v hv
      exact subset_of_named? hv
    · exact List.nil_subset s

theorem Invocation.vars_subset {i : Invocation} (h : i.meaning s p = .ok e) : e.vars ⊆ s := by
  obtain ⟨args, hargs, h⟩ := Attempt.bind_eq_ok.mp h
  cases h
  refine List.append_subset.mpr ⟨i.callee.vars_subset s, ?_⟩
  cases hi : i.arguments with
  | none =>
    rw [hi] at hargs
    cases hargs
    exact List.nil_subset s
  | some a =>
    rw [hi] at hargs
    exact Arguments.vars_subset hargs

theorem Operation.vars_subset {o : Operation} (h : o.meaning s p = .ok e) : e.vars ⊆ s := by
  obtain ⟨a, ha, h⟩ := Attempt.bind_eq_ok.mp h
  obtain ⟨b, hb, h⟩ := Attempt.bind_eq_ok.mp h
  cases h
  exact List.append_subset.mpr ⟨Atom.vars_subset ha, Atom.vars_subset hb⟩

theorem RightSide.vars_subset {r : RightSide} (h : r.meaning s p = .ok e) : e.vars ⊆ s := by
  cases r with
  | newArray a =>
    obtain ⟨_, _, h⟩ := Attempt.bind_eq_ok.mp h
    obtain ⟨n, hn, h⟩ := Attempt.bind_eq_ok.mp h
    cases h
    exact (Atom.vars_subset hn : n.vars ⊆ s)
  | newObject n =>
    obtain ⟨_, _, h⟩ := Attempt.bind_eq_ok.mp h
    split at h
    · cases h
      exact List.nil_subset s
    · cases h
  | call i => exact Invocation.vars_subset h
  | cast c =>
    obtain ⟨_, _, h⟩ := Attempt.bind_eq_ok.mp h
    obtain ⟨a, ha, h⟩ := Attempt.bind_eq_ok.mp h
    cases h
    exact (Atom.vars_subset ha : a.vars ⊆ s)
  | operation o => exact Operation.vars_subset h
  | negation n =>
    obtain ⟨v, hv, h⟩ := Attempt.bind_eq_ok.mp h
    cases h
    exact subset_of_lookup hv
  | element x =>
    obtain ⟨q, hq, h⟩ := Attempt.bind_eq_ok.mp h
    cases h
    exact Element.vars_subset hq
  | member m =>
    cases h
    exact m.vars_subset s
  | atom a => exact Atom.vars_subset h

end Phrases

section Bodies

variable {s : Scope} {p : Pos} {i : Instr LabelRef} {l l' : Layout LabelRef}

theorem Command.vars_subset {c : Command} (h : c.meaning s p = .ok i) : i.vars ⊆ s := by
  cases c with
  | ret r g =>
    cases r with
    | none =>
      cases h
      exact List.nil_subset s
    | some r =>
      obtain ⟨e, he, h⟩ := Attempt.bind_eq_ok.mp h
      cases h
      exact Atom.vars_subset he
  | branch b =>
    obtain ⟨e, he, h⟩ := Attempt.bind_eq_ok.mp h
    cases h
    exact Operation.vars_subset he
  | switch w =>
    obtain ⟨_, v, _, _, hv, _, rfl⟩ := w.parts_of_meaning h
    exact subset_of_lookup hv
  | call x g =>
    obtain ⟨e, he, h⟩ := Attempt.bind_eq_ok.mp h
    cases h
    exact Invocation.vars_subset he
  | assign a =>
    obtain ⟨q, e, hq, he, h⟩ := a.parts_of_meaning h
    have hvars : q.toExpr.vars ++ e.vars ⊆ s :=
      List.append_subset.mpr ⟨LeftSide.vars_subset hq, RightSide.vars_subset he⟩
    rcases h with ⟨_, rfl⟩ | ⟨_, _, rfl⟩
    · exact hvars
    · exact hvars
  | goto j =>
    cases h
    exact List.nil_subset s
  | nop g =>
    cases h
    exact List.nil_subset s

/-- A layout of statements over variables in scope. -/
def Layout.IsScoped (s : Scope) (l : Layout LabelRef) : Prop :=
  ∀ x ∈ l.stmts, x.instr.vars ⊆ s

theorem Layout.IsScoped.ofItems {xs : List Item} (hl : l.IsScoped s)
    (h : Layout.ofItems s p l xs = .ok l') : l'.IsScoped s :=
  forall_ofItems (fun _ _ _ => Command.vars_subset) hl h

theorem Layout.IsScoped.body {xs : List Stmt} (hl : l.IsScoped s) (h : l.body = .ok xs) :
    ∀ x ∈ xs, x.instr.vars ⊆ s := by
  refine forall_body (P := (·.vars ⊆ s)) (Q := (·.vars ⊆ s)) h hl fun i i' hi hvars => ?_
  rwa [hi.vars_eq]

end Bodies

end Source

end MethodFlow
