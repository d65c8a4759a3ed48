import MethodFlow.Method
import MethodFlow.Proofs.Attempt

/-!
Texts and the integers in them: a text can be written exactly when each integer in it can, and what
it is then does not hang on that.
-/

namespace MethodFlow

namespace Text

variable {α β : Type}

/-- A value that there is if all of some integers can be written. -/
def written (ns : List Int) (a : α) : Except Overlong α :=
  if ns.all isWritable then .ok a else .error .number

theorem writeInt_eq (n : Int) : writeInt n = written [n] (toString n) := by
  simp only [writeInt, written, List.all_cons, List.all_nil, Bool.and_true]

theorem written_of {ns : List Int} (h : ∀ n ∈ ns, isWritable n = true) (a : α) :
    written ns a = .ok a :=
  if_pos (List.all_eq_true.mpr h)

theorem written_eq_ok {ns : List Int} {a b : α} :
    written ns a = .ok b ↔ (∀ n ∈ ns, isWritable n = true) ∧ a = b := by
  rw [written, ← List.all_eq_true]
  split
  · rename_i hall
    rw [Except.ok.injEq]
    exact (and_iff_right hall).symm
  · rename_i hall
    exact iff_of_false nofun fun h => hall h.1

theorem written_eq_error {ns : List Int} {a : α} {e : Overlong} (h : written ns a = .error e) :
    e = .number ∧ ∃ n ∈ ns, isWritable n = false := by
  unfold written at h
  split at h
  · cases h
  · rename_i hall
    cases h
    exact ⟨rfl, by simpa using hall⟩

/-- What is written behind something else. -/
theorem written_bind {ns ms : List Int} {a : α} {b : β} {f : α → Except Overlong β}
    (h : f a = written ms b) : written ns a >>= f = written (ns ++ ms) b := by
  unfold written at h ⊢
  rw [List.all_append]
  by_cases hns : ns.all isWritable = true
  · rw [if_pos hns, Attempt.ok_bind, h, hns, Bool.true_and]
  · rw [if_neg hns, Bool.not_eq_true] at *
    rw [hns, Bool.false_and]
    rfl

theorem written_map {ns : List Int} {a : α} {f : α → β} :
    (written ns a >>= fun x => pure (f x)) = written ns (f a) := by
  have hpure : (pure (f a) : Except Overlong β) = written [] (f a) := rfl
  rw [written_bind (f := fun x => pure (f x)) hpure, List.append_nil]

theorem mapM_written {f : α → Except Overlong β} {ns : α → List Int} {g : α → β} (xs : List α)
    (h : ∀ x ∈ xs, f x = written (ns x) (g x)) :
    xs.mapM f = written (xs.flatMap ns) (xs.map g) := by
  induction xs with
  | nil => rfl
  | cons x xs ih =>
    obtain ⟨hx, hxs⟩ := List.forall_mem_cons.mp h
    rw [List.mapM_cons, hx, ih hxs]
    exact written_bind written_map

end Text

open Text

namespace Expr

mutual

/-- The integers in the text of an expression. -/
def numbers : Expr → List Int
  | int n => [n]
  | var _ | str _ | null | new _ | static _ _ => []
  | bin _ a b => a.numbers ++ b.numbers
  | neg e | newArray _ e | cast _ e | field e _ => e.numbers
  | element b i => b.numbers ++ i.numbers
  | call _ _ args => numbersOfAll args

def numbersOfAll : List Expr → List Int
  | [] => []
  | e :: r => e.numbers ++ numbersOfAll r

end

mutual

/-- The text of an expression if all integers in it can be written. -/
def text : Expr → String
  | var v => v.name
  | int n => toString n
  | str s => String.ofList (Text.Escaped.encode s.toList)
  | null => "null"
  | bin op a b => a.text ++ " " ++ op.symbol ++ " " ++ b.text
  | neg e => "-" ++ e.text
  | new t => "new " ++ t.render
  | newArray t n => "newarray " ++ t.render ++ "[" ++ n.text ++ "]"
  | cast t e => "(" ++ t.render ++ ") " ++ e.text
  | field b f => b.text ++ "." ++ f
  | static c f => c ++ "." ++ f
  | element b i => b.text ++ "[" ++ i.text ++ "]"
  | call r m args => "invoke " ++ r.render ++ m ++ "(" ++ ", ".intercalate (textAll args) ++ ")"

def textAll : List Expr → List String
  | [] => []
  | e :: r => e.text :: textAll r

end

mutual

/-- An expression has its text exactly when all integers in it can be written. -/
theorem render_eq (e : Expr) : e.render = written e.numbers e.text := by
  cases e with
  | var v | str s | null | new t | static c f => rfl
  | int n => exact writeInt_eq n
  | bin op a b =>
    rw [render, render_eq a, render_eq b]
    exact written_bind written_map
  | neg e | newArray t e | cast t e | field e f =>
    rw [render, render_eq e]
    exact written_map
  | element b i =>
    rw [render, render_eq b, render_eq i]
    exact written_bind written_map
  | call r m args =>
    rw [render, renderAll_eq args]
    exact written_map

theorem renderAll_eq (es : List Expr) : renderAll es = written (numbersOfAll es) (textAll es) := by
  cases es with
  | nil => rfl
  | cons e es =>
    rw [renderAll, render_eq e, renderAll_eq es]
    exact written_bind written_map

end

theorem textAll_eq_map (es : List Expr) : textAll es = es.map text := by
  induction es with
  | nil => rfl
  | cons e es ih => rw [textAll, ih, List.map_cons]

end Expr

namespace Instr

/-- The integers in the text of a statement; those of its jumps are positions. -/
def numbers {τ : Type} : Instr τ → List Int
  | assign p e => p.toExpr.numbers ++ e.numbers
  | call p e => p.elim [] (fun p => p.toExpr.numbers) ++ e.numbers
  | branch c _ => c.numbers
  | switch _ values targets _ => (values.zip targets).map Prod.fst
  | ret e => e.elim [] Expr.numbers
  | goto _ | nop => []

variable (target : Target → String)

/-- The text of a case, with its target written as given. -/
def caseText (c : Int × Target) : String :=
  "case " ++ toString c.1 ++ ": goto " ++ target c.2 ++ ";"

/-- The text of a switch before double blanks are made single, with its targets written as given. -/
def switchText (v : Var) (cases : List (Int × Target)) (default : Target) : String :=
  "switch (" ++ v.name ++ ") \x7b " ++ " ".intercalate (cases.map (caseText target)) ++
    " default: goto " ++ target default ++ "; \x7d"

/-- The text of a statement if all integers in it can be written. -/
def textWith : Instr Target → String
  | assign p e | call (some p) e => p.toExpr.text ++ " = " ++ e.text ++ ";"
  | call none e => e.text ++ ";"
  | branch c t => "if (" ++ c.text ++ ") goto " ++ target t ++ ";"
  | goto t => "goto " ++ target t ++ ";"
  | switch v ks ts d => String.ofList (halveBlanks (switchText target v (ks.zip ts) d).toList)
  | ret none => "return;"
  | ret (some e) => "return " ++ e.text ++ ";"
  | nop => "nop;"

theorem renderCase_eq (c : Int × Target) :
    renderCase target c = written [c.1] (caseText target c) := by
  rw [renderCase, writeInt_eq]
  exact written_map

theorem renderSwitch_eq (v : Var) (cases : List (Int × Target)) (default : Target) :
    renderSwitch target v cases default =
      written (cases.map Prod.fst) (switchText target v cases default) := by
  have hcases := mapM_written cases fun c _ => renderCase_eq target c
  rw [renderSwitch, hcases, ← List.map_eq_flatMap]
  exact written_map

/-- A statement has its text exactly when all integers in it can be written. -/
theorem renderWith_eq (i : Instr Target) :
    i.renderWith target = written i.numbers (i.textWith target) := by
  cases i with
  | assign p e =>
    rw [renderWith, Expr.render_eq, Expr.render_eq]
    exact written_bind written_map
  | call p e =>
    cases p with
    | none =>
      rw [renderWith, Expr.render_eq]
      exact written_map
    | some p =>
      rw [renderWith, Expr.render_eq, Expr.render_eq]
      exact written_bind written_map
  | branch c t =>
    rw [renderWith, Expr.render_eq]
    exact written_map
  | switch v ks ts d =>
    rw [renderWith, renderSwitch_eq]
    exact written_map
  | ret e =>
    cases e with
    | none => rfl
    | some e =>
      rw [renderWith, Expr.render_eq]
      exact written_map
  | goto t | nop => rfl

end Instr

/-- The integers in the statements of a method. -/
def Method.numbers (m : Method) : List Int :=
  m.body.flatMap fun s => s.instr.numbers

theorem Method.mem_numbers {m : Method} {s : Stmt} (hs : s ∈ m.body) {n : Int}
    (hn : n ∈ s.instr.numbers) : n ∈ m.numbers :=
  List.mem_flatMap.mpr ⟨s, hs, hn⟩

section Writable

namespace Expr

/-- All integers in an expression can be written. -/
def IsWritable (e : Expr) : Prop :=
  ∀ n ∈ e.numbers, isWritable n = true

theorem isWritable_int {n : Int} : (int n).IsWritable ↔ Text.isWritable n = true :=
  List.forall_mem_singleton

theorem isWritable_bin {op : BinOp} {a b : Expr} :
    (bin op a b).IsWritable ↔ a.IsWritable ∧ b.IsWritable :=
  List.forall_mem_append

theorem isWritable_element {b i : Expr} :
    (element b i).IsWritable ↔ b.IsWritable ∧ i.IsWritable :=
  List.forall_mem_append

theorem isWritable_call {r : Receiver} {m : String} {args : List Expr} :
    (call r m args).IsWritable ↔ ∀ a ∈ args, a.IsWritable := by
  rw [IsWritable, numbers]
  induction args with
  | nil => simp [numbersOfAll]
  | cons a args ih =>
    rw [numbersOfAll, List.forall_mem_append, List.forall_mem_cons, ih, IsWritable]

end Expr

/-- All integers in a statement can be written. -/
def Instr.IsWritable {τ : Type} (i : Instr τ) : Prop :=
  ∀ n ∈ i.numbers, isWritable n = true

theorem Instr.isWritable_assign {τ : Type} {q : Place} {e : Expr} :
    (assign q e : Instr τ).IsWritable ↔ q.toExpr.IsWritable ∧ e.IsWritable :=
  List.forall_mem_append

end Writable

end MethodFlow
