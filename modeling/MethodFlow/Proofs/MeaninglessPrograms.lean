import MethodFlow.Proofs.CheckedPrograms

/-!
Whatever is wrong with the meaning of a program, it is a program: its check never says that the text
is malformed.
-/

namespace MethodFlow.Source

section Laws

variable {α β : Type} {x : Checked α} {f : α → Checked β}

/-- A check that can find a program meaningless or break off, but does not say that the text is
malformed. -/
def NeverMalformed (x : Checked α) : Prop :=
  ∀ e, x = .error e → e.cause.severity ≠ .malformed

theorem Decides.neverMalformed {S W : Prop} (h : Decides x S W) : NeverMalformed x := by
  intro e he hmalformed
  rcases h.fails e he with ⟨hsev, -⟩ | ⟨hsev, -⟩ <;> cases hsev.symm.trans hmalformed

theorem NeverMalformed.bind (hx : NeverMalformed x)
    (hf : ∀ a, x = .ok a → NeverMalformed (f a)) : NeverMalformed (x >>= f) := by
  intro e he
  rcases Attempt.bind_eq_error.mp he with he | ⟨a, ha, he⟩
  · exact hx e he
  · exact hf a ha e he

theorem neverMalformed_ok (a : α) : NeverMalformed (.ok a : Checked α) :=
  (decides_ok a).neverMalformed

theorem neverMalformed_reject {c : Cause} (h : c.severity = .meaningless) (p : Pos) :
    NeverMalformed (reject c p : Checked α) :=
  (decides_reject h p).neverMalformed

end Laws

section Phrases

variable {s : Scope} {p : Pos}

/-- Any scope is one of names that can be declared. -/
theorem map_name_eq (s : Scope) :
    s.map Var.name = (s.map fun v => v.name.toList).map String.ofList := by
  rw [List.map_map]
  exact List.map_congr_left fun v _ => String.ofList_toList.symm

theorem TypeName.neverMalformed (t : TypeName) (p : Pos) : NeverMalformed (t.meaning p) :=
  (t.decides_isMeant p).neverMalformed

theorem NewObject.neverMalformed (n : NewObject) (p : Pos) : NeverMalformed (n.meaning p) := by
  refine (n.type.neverMalformed _).bind fun ty _ => ?_
  split
  · exact neverMalformed_ok _
  · exact neverMalformed_reject rfl p

theorem Atom.neverMalformed (a : Atom) : NeverMalformed (a.meaning s p) :=
  (a.decides (map_name_eq s)).neverMalformed

theorem RightSide.neverMalformed (r : RightSide) : NeverMalformed (r.meaning s p) := by
  cases r with
  | newArray a =>
    refine (a.elem.neverMalformed _).bind fun _ _ => a.length.neverMalformed.bind fun _ _ => ?_
    exact neverMalformed_ok _
  | newObject n => exact n.neverMalformed p
  | cast c =>
    refine (c.type.neverMalformed _).bind fun _ _ => c.operand.neverMalformed.bind fun _ _ => ?_
    exact neverMalformed_ok _
  | call _ | operation _ | negation _ | element _ | member _ | atom _ =>
    exact (RightSide.decides (map_name_eq s) (List.forall_mem_nil _)).neverMalformed

theorem Assignment.neverMalformed (a : Assignment) : NeverMalformed (a.meaning s p) := by
  refine (a.left.decides (map_name_eq s)).neverMalformed.bind fun q _ => ?_
  refine a.right.neverMalformed.bind fun e _ => ?_
  split
  · exact neverMalformed_ok _
  · split
    · exact neverMalformed_ok _
    · exact neverMalformed_reject rfl p

theorem Command.neverMalformed (c : Command) : NeverMalformed (c.meaning s p) := by
  cases c with
  | assign a => exact a.neverMalformed
  | ret _ _ | goto _ | branch _ | switch _ | nop _ | call _ _ =>
    exact (Command.decides (map_name_eq s) (List.forall_mem_nil _)).neverMalformed

theorem Layout.neverMalformed_ofItems {l : Layout LabelRef} (items : List Item) :
    NeverMalformed (ofItems s p l items) := by
  induction items generalizing p l with
  | nil => exact neverMalformed_ok l
  | cons i r ih =>
    refine NeverMalformed.bind ?_ fun _ _ => ih
    cases i with
    | label x => exact neverMalformed_ok _
    | statement x => exact x.command.neverMalformed.bind fun _ _ => neverMalformed_ok _

end Phrases

section Programs

variable {p : Pos} {ds : List MethodDecl}

theorem MethodDecl.neverMalformed (d : MethodDecl) (p : Pos) : NeverMalformed (d.meaning p) := by
  have hparams := declares_optional_params (p.after d.head) d.params
  have hvars := declares_vars (p.after d.front) d.decls
  have hfirst := hparams.decides [] [] rfl .nil
  refine (d.type.neverMalformed _).bind fun ret _ => ?_
  refine hfirst.neverMalformed.bind fun params hparams' => ?_
  have hdistinct := (hfirst.exists_iff.mp ⟨params, hparams'⟩).1
  have hscope := hvars.decides params _ (hparams.adds [] params hparams') hdistinct
  refine hscope.neverMalformed.bind fun scope _ => ?_
  refine (Layout.neverMalformed_ofItems d.items).bind fun l hl => ?_
  exact (Layout.decides_body_of_ofItems hl).map.neverMalformed

theorem neverMalformed_meanings : NeverMalformed (meanings p ds).check := by
  induction ds generalizing p with
  | nil => exact neverMalformed_ok []
  | cons d ds ih =>
    rw [meanings_cons]
    exact (d.neverMalformed p).bind fun _ _ => ih.bind fun _ _ => neverMalformed_ok _

/-- A program can mean nothing, but it is well-formed. -/
theorem Program.neverMalformed (x : Program) : NeverMalformed x.meaning.check := by
  rw [x.check_meaning]
  refine neverMalformed_meanings.bind fun ms _ => ?_
  split
  · intro e he
    cases he
    exact nofun
  · exact neverMalformed_ok ms

end Programs

end MethodFlow.Source
