import MethodFlow.Proofs.SpelledPhrases

/-!
Statements, methods and programs are read off their texts in whole lexemes: the lexemes of a text
that is a program are those of its tree.
-/

namespace MethodFlow.Source

theorem JumpTo.text_ne_nil (j : JumpTo) : j.text ≠ [] :=
  List.append_ne_nil_of_right_ne_nil _ (List.cons_ne_nil _ _)

theorem Command.text_ne_nil (c : Command) : c.text ≠ [] := by
  cases c with
  | goto j => exact j.text_ne_nil
  | branch b => exact List.append_ne_nil_of_right_ne_nil _ b.jump.text_ne_nil
  | _ => exact List.append_ne_nil_of_right_ne_nil _ (List.cons_ne_nil _ _)

namespace Reader

section Statements

theorem spells_jumpTo : Spells [] jumpTo JumpTo.tokens := by
  refine spells_mark rfl (spells_past_gap1 fun _ => spells_name.bind fun _ => ?_)
  refine spells_past_gap fun _ => spells_mark rfl (spells_pure ?_)
  simp [JumpTo.tokens]

theorem spells_branch : Spells [] branch Branch.tokens := by
  refine spells_mark rfl (spells_past_gap fun _ => spells_mark rfl (spells_past_gap fun _ => ?_))
  refine spells_condition.bind fun _ => spells_past_gap fun _ => spells_mark rfl ?_
  refine spells_past_gap fun _ => spells_jumpTo.bind fun _ => spells_pure ?_
  simp [Branch.tokens]

theorem spells_case : Spells [] case Case.tokens := by
  refine spells_mark rfl (spells_past_gap1 fun _ => spells_number.bind fun _ => ?_)
  refine spells_past_gap fun _ => spells_mark rfl (spells_past_gap fun _ => ?_)
  refine spells_jumpTo.bind fun _ => spells_past_gap fun _ => spells_pure ?_
  simp [Case.tokens]

theorem spells_default : Spells [] default Default.tokens := by
  refine spells_mark rfl (spells_past_gap fun _ => spells_mark rfl (spells_past_gap fun _ => ?_))
  refine spells_jumpTo.bind fun _ => spells_past_gap fun _ => spells_pure ?_
  simp [Default.tokens]

theorem spells_switch : Spells [] switch Switch.tokens := by
  refine spells_mark rfl (spells_past_gap fun _ => spells_mark rfl (spells_past_gap fun _ => ?_))
  refine spells_name.bind fun _ => spells_past_gap fun _ => spells_mark rfl ?_
  refine spells_past_gap fun _ => spells_mark rfl (spells_past_gap fun _ => ?_)
  refine spells_case.many.bind fun _ => spells_default.bind fun _ => spells_mark rfl ?_
  refine spells_pure ?_
  simp [Switch.tokens]

theorem spells_assignment : Spells [] assignment Assignment.tokens := by
  refine spells_leftSide.bind fun _ => spells_past_gap fun _ => spells_mark rfl ?_
  refine spells_past_gap fun _ => spells_rightSide.bind fun _ => spells_past_gap fun _ => ?_
  exact spells_mark rfl (spells_pure (by simp [Assignment.tokens]))

theorem spells_command : Spells [] command Command.tokens := by
  have hreturned : Spells [] returned Returned.tokens :=
    spells_past_gap1 fun _ => spells_atom.bind fun _ => spells_pure (by simp [Returned.tokens])
  have hreturn : Spells [] returnCommand Command.tokens := by
    refine spells_mark rfl (hreturned.optional.bind fun _ => spells_past_gap fun _ => ?_)
    exact spells_mark rfl (spells_pure (by simp [Command.tokens]))
  have hnop : Spells [] nopCommand Command.tokens :=
    spells_mark rfl <| spells_past_gap fun _ => spells_mark rfl <|
      spells_pure (by simp [Command.tokens])
  have hcall : Spells [] callCommand Command.tokens :=
    spells_invocation.bind fun _ => spells_past_gap fun _ => spells_mark rfl <|
      spells_pure (by simp [Command.tokens])
  exact .orElse hreturn <| .orElse (.map spells_jumpTo) <| .orElse (.map spells_branch) <|
    .orElse (.map spells_switch) <| .orElse hnop <| .orElse hcall (.map spells_assignment)

theorem consumes_case : Consumes case := by
  refine spells_case.consumes fun c => ?_
  rw [c.spelling_tokens]
  refine List.append_ne_nil_of_left_ne_nil ?_ _
  exact List.append_ne_nil_of_right_ne_nil _ c.jump.text_ne_nil

theorem spells_label : Spells [] label Label.tokens := by
  refine spells_name.bind fun _ => spells_past_gap fun _ => spells_mark rfl ?_
  exact spells_past_gap fun _ => spells_pure (by simp [Label.tokens])

theorem spells_statement : Spells [] statement Statement.tokens :=
  spells_command.bind fun _ => spells_past_gap fun _ => spells_pure (by simp [Statement.tokens])

theorem spells_item : Spells [] item Item.tokens :=
  .orElse (.map spells_label) (.map spells_statement)

theorem consumes_item : Consumes item := by
  refine spells_item.consumes fun i => ?_
  rw [i.spelling_tokens]
  cases i with
  | label l => exact List.append_ne_nil_of_right_ne_nil _ (List.cons_ne_nil _ _)
  | statement x => exact List.append_ne_nil_of_left_ne_nil x.command.text_ne_nil _

end Statements

section Methods

theorem spells_param : Spells [] param Param.tokens :=
  spells_typeName.bind fun _ => spells_past_gap1 fun _ => spells_name.bind fun _ =>
    spells_pure (by simp [Param.tokens])

theorem spells_params : Spells [] params Params.tokens :=
  (spells_listed spells_param).bind fun _ => spells_past_gap fun _ =>
    spells_pure (by simp [Params.tokens])

theorem spells_varDecl : Spells [] varDecl VarDecl.tokens := by
  refine spells_typeName.bind fun _ => spells_past_gap1 fun _ => ?_
  refine (spells_listed spells_name).bind fun _ => spells_past_gap fun _ => spells_mark rfl ?_
  exact spells_past_gap fun _ => spells_pure (by simp [VarDecl.tokens])

theorem consumes_varDecl : Consumes varDecl := by
  refine spells_varDecl.consumes fun d => ?_
  rw [d.spelling_tokens]
  exact List.append_ne_nil_of_right_ne_nil _ (List.cons_ne_nil _ _)

/-- A method up to its closing brace. -/
def methodFront : Reader MethodDecl := do
  exactly "method"
  let lead ← gap1
  let type ← typeName
  let between ← gap1
  let name ← name
  let before ← gap
  exactly "("
  let inside ← gap
  let params ← optional params
  exactly ")"
  let after ← gap
  exactly "\x7b"
  let body ← gap
  let decls ← many varDecl
  let items ← many item
  return ⟨lead, type, between, name, before, inside, params, after, body, decls, items, []⟩

theorem methodDecl_eq : methodDecl = do
    let d ← methodFront
    exactly "\x7d"
    return { d with trail := ← gap } := by
  simp only [methodDecl, methodFront, bind_assoc, pure_bind]

theorem spells_methodFront : Spells [] methodFront MethodDecl.innerTokens := by
  refine spells_mark rfl (spells_past_gap1 fun _ => spells_typeName.bind fun _ => ?_)
  refine spells_past_gap1 fun _ => spells_name.bind fun _ => spells_past_gap fun _ => ?_
  refine spells_mark rfl (spells_past_gap fun _ => spells_params.optional.bind fun _ => ?_)
  refine spells_mark rfl (spells_past_gap fun _ => spells_mark rfl (spells_past_gap fun _ => ?_))
  refine spells_varDecl.many.bind fun _ => spells_item.many.bind fun _ => spells_pure ?_
  simp [MethodDecl.innerTokens]

theorem spells_methodDecl : Spells [] methodDecl MethodDecl.tokens := by
  rw [methodDecl_eq]
  refine spells_methodFront.bind fun d => spells_mark rfl (spells_past_gap fun g => spells_pure ?_)
  simp [MethodDecl.tokens, MethodDecl.innerTokens]

theorem consumes_methodDecl : Consumes methodDecl := by
  refine spells_methodDecl.consumes fun d => ?_
  rw [d.spelling_tokens, MethodDecl.text_eq]
  exact List.append_ne_nil_of_right_ne_nil _ (List.cons_ne_nil _ _)

theorem spells_program : Spells [] program Program.tokens :=
  spells_past_gap fun _ => spells_methodDecl.many.bind fun _ =>
    spells_pure (by simp [Program.tokens])

end Methods

end Reader

open Reader

section Programs

variable {cs : List Char} {x : Program}

theorem text_of_program (h : program cs = some (x, [])) : cs = x.text := by
  have htext := spells_program.text h
  rwa [x.spelling_tokens, List.append_nil] at htext

/-- The lexemes of a text that is a program are those of its tree. -/
theorem lexemes_of_program (h : program cs = some (x, [])) :
    lexemes cs = some (lexemesOf x.tokens, []) :=
  lexemes_eq_some.mpr (spells_program.scans h)

end Programs

end MethodFlow.Source
