import MethodFlow.Proofs.StaticRules

/-!
The type names in a program are words and pairs of brackets, if there are no comments in them.
-/

namespace MethodFlow.Source

open Reader

/-- Type names that are words and pairs of brackets if there are no comments in them. -/
def AreWritten (ts : List TypeName) : Prop :=
  ∀ t ∈ ts, t.isBare = true → t.IsWritten

theorem areWritten_nil : AreWritten [] :=
  List.forall_mem_nil _

theorem tells_typeName_written : Tells typeName fun t => AreWritten [t] := by
  refine .bind (tells_wordOf fun _ h => isTypeChar_of_isNameChar h) fun base => ?_
  refine tells_brackets.many.bind fun dims => tells_pure ?_
  intro hdims hbase
  refine List.forall_mem_singleton.mpr fun hbare => ⟨hbase, fun d hd => ?_⟩
  have hblank := List.all_eq_true.mp hbare d hd
  rw [Bool.and_eq_true] at hblank
  exact hdims d hd hblank.1 hblank.2

theorem tells_newArray_written : Tells newArray fun a => AreWritten [a.elem] := by
  refine tells_mark rfl (tells_past_gap1 fun _ => tells_typeName_written.bind fun elem => ?_)
  refine tells_past_gap fun _ => tells_mark rfl ?_
  refine tells_past_gap fun _ => tells_atom.bind fun _ => ?_
  refine tells_past_gap fun _ => tells_mark rfl (tells_pure fun _ h => h)

theorem tells_newObject_written : Tells newObject fun n => AreWritten [n.type] :=
  tells_mark rfl (tells_past_gap1 fun _ => tells_typeName_written.bind fun _ => tells_pure id)

theorem tells_cast_written : Tells cast fun c => AreWritten [c.type] := by
  refine tells_mark rfl (tells_past_gap fun _ => tells_typeName_written.bind fun type => ?_)
  refine tells_past_gap fun _ => tells_mark rfl ?_
  refine tells_past_gap fun _ => tells_atom.bind fun _ => ?_
  exact tells_pure fun _ h => h

theorem tells_rightSide_written : Tells rightSide fun r => AreWritten r.types := by
  refine .orElse (.map tells_newArray_written) (.orElse (.map tells_newObject_written)
    (.orElse (.map (tells_invocation.mono fun _ _ => areWritten_nil))
      (.orElse (.map tells_cast_written) (.orElse (.map ?_) ?_))))
  · exact (tells_operation tells_operator).mono fun _ _ => areWritten_nil
  · exact .orElse (.map (tells_negation.mono fun _ _ => areWritten_nil))
      (.orElse (.map (tells_element.mono fun _ _ => areWritten_nil))
        (.orElse (.map (tells_member.mono fun _ _ => areWritten_nil))
          (.map (tells_atom.mono fun _ _ => areWritten_nil))))

theorem tells_command_written : Tells command fun c => AreWritten c.types := by
  have hassignment : Tells assignment fun a => AreWritten a.right.types := by
    refine tells_leftSide.bind fun _ => tells_past_gap fun _ => tells_mark rfl ?_
    refine tells_past_gap fun _ => tells_rightSide_written.bind fun _ => ?_
    exact tells_past_gap fun _ => tells_mark rfl (tells_pure fun h _ => h)
  refine .orElse ?_ (.orElse (.map (tells_jumpTo.mono fun _ _ => areWritten_nil))
    (.orElse (.map (tells_branch.mono fun _ _ => areWritten_nil))
      (.orElse (.map (tells_switch.mono fun _ _ => areWritten_nil)) (.orElse ?_ (.orElse ?_
        (.map hassignment))))))
  · have hreturned : Tells returned fun _ => True :=
      tells_past_gap1 fun _ => tells_atom.bind fun _ => tells_pure fun _ => trivial
    refine tells_mark rfl (hreturned.optional.bind fun _ => ?_)
    exact tells_past_gap fun _ => tells_mark rfl (tells_pure fun _ => areWritten_nil)
  · exact tells_mark rfl (tells_past_gap fun _ => tells_mark rfl (tells_pure areWritten_nil))
  · refine tells_invocation.bind fun _ => tells_past_gap fun _ => ?_
    exact tells_mark rfl (tells_pure fun _ => areWritten_nil)

theorem tells_item_written : Tells item fun i => AreWritten i.types := by
  refine .orElse (.map ?_) (.map ?_)
  · refine tells_name.bind fun _ => tells_past_gap fun _ => tells_mark rfl ?_
    exact tells_past_gap fun _ => tells_pure fun _ => areWritten_nil
  · exact tells_command_written.bind fun _ => tells_past_gap fun _ => tells_pure id

theorem tells_params_written : Tells params fun ps => AreWritten ps.types := by
  have hparam : Tells param fun x => AreWritten [x.type] := by
    refine tells_typeName_written.bind fun _ => tells_past_gap1 fun _ => ?_
    exact tells_name.bind fun _ => tells_pure fun _ h => h
  refine (tells_listed hparam).bind fun _ => tells_past_gap fun _ => tells_pure fun h => ?_
  exact List.forall_mem_map.mpr fun x hx => h x hx x.type List.mem_cons_self

theorem tells_varDecl_written : Tells varDecl fun v => AreWritten [v.type] := by
  refine tells_typeName_written.bind fun _ => tells_past_gap1 fun _ => ?_
  refine (tells_listed tells_name).bind fun _ => tells_past_gap fun _ => tells_mark rfl ?_
  exact tells_past_gap fun _ => tells_pure fun _ h => h

theorem tells_methodDecl_written : Tells methodDecl fun d => AreWritten d.types := by
  refine tells_mark rfl (tells_past_gap1 fun _ => tells_typeName_written.bind fun ret => ?_)
  refine tells_past_gap1 fun _ => tells_name.bind fun x => ?_
  refine tells_past_gap fun _ => tells_mark rfl (tells_past_gap fun _ => ?_)
  refine tells_params_written.optional.bind fun ps => tells_mark rfl (tells_past_gap fun _ => ?_)
  refine tells_mark rfl (tells_past_gap fun _ => tells_varDecl_written.many.bind fun ds => ?_)
  refine tells_item_written.many.bind fun is => tells_mark rfl (tells_past_gap fun _ => ?_)
  refine tells_pure fun his hds hps _ hret => ?_
  have hparams : AreWritten (ps.elim [] Params.types) := by
    cases ps with
    | none => exact areWritten_nil
    | some x => exact hps x rfl
  have hdecls : AreWritten (ds.map VarDecl.type) :=
    List.forall_mem_map.mpr fun d hd => hds d hd d.type List.mem_cons_self
  refine List.forall_mem_cons.mpr ⟨hret _ List.mem_cons_self, ?_⟩
  refine List.forall_mem_append.mpr ⟨List.forall_mem_append.mpr ⟨hparams, hdecls⟩, ?_⟩
  exact List.forall_mem_flatMap.mpr his

/-- The type names in a program that is read to the end of a text are as they should be. -/
theorem areWritten_of_program {cs : List Char} {x : Program} (h : program cs = some (x, [])) :
    AreWritten x.types := by
  have hmethods : Tells program fun x => AreWritten x.types :=
    tells_past_gap fun _ => tells_methodDecl_written.many.bind fun _ =>
      tells_pure List.forall_mem_flatMap.mpr
  exact (hmethods cs x [] h native_nil).1

end MethodFlow.Source
