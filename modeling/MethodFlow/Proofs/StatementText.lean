import MethodFlow.Proofs.SwitchText

/-!
The text of a statement, with labels for its targets, is read as a command that means the statement
wherever the labels lead to the targets.
-/

namespace MethodFlow

open Source Reader

variable {s : Scope} {n : Nat} {e : Expr} {q : Place} {t : Target} {i : Instr Target}

/-- The text of a statement begins one and is read as a command, which means the statement in every
layout where the labels of a body of `n` statements lead to them. -/
def Instr.IsReadBack (s : Scope) (n : Nat) (i : Instr Target) : Prop :=
  ∃ c : Command, (∀ p, ∃ x, c.meaning s p = .ok x ∧
      ∀ l : Layout LabelRef, l.Resolves n → l.resolveInstr x = .ok i) ∧
    ∀ rest, BeginsStatement ((i.textWith Target.labelled).toList ++ rest) ∧
      command ((i.textWith Target.labelled).toList ++ rest) = some (c, rest)

theorem Expr.IsLegible.blank_append {r : List Char} (h : e.IsLegible s) :
    blank (e.text.toList ++ r) = none := by
  cases e with
  | var v => exact IsLegibleAtom.blank_append h
  | int n => exact IsLegibleAtom.blank_append (s := s) (e := .int n) h
  | str x => exact IsLegibleAtom.blank_append (s := s) (e := .str x) h
  | null => exact IsLegibleAtom.blank_append (s := s) (e := .null) h
  | bin op a b =>
    simp only [text, String.toList_append, List.append_assoc]
    exact h.1.blank_append
  | neg a =>
    simp only [text, String.toList_append, List.append_assoc]
    exact blank_none rfl
  | new t =>
    simp only [text, String.toList_append, List.append_assoc]
    exact blank_none rfl
  | newArray t n =>
    simp only [text, String.toList_append, List.append_assoc]
    exact blank_none rfl
  | cast t a =>
    simp only [text, String.toList_append, List.append_assoc]
    exact blank_none rfl
  | field b f =>
    obtain ⟨⟨⟨v, rfl, hv⟩, _⟩, _⟩ := h
    simp only [text, String.toList_append, List.append_assoc]
    exact hv.isName.blank_append
  | static c f =>
    simp only [text, String.toList_append, List.append_assoc]
    exact h.1.2.1.blank_append
  | element b i =>
    obtain ⟨⟨⟨v, rfl, hv⟩, _⟩, _⟩ := h
    simp only [text, String.toList_append, List.append_assoc]
    exact hv.isName.blank_append
  | call q m args =>
    simp only [text, String.toList_append, List.append_assoc]
    exact blank_none rfl

section Assignments

theorem assignment_reads (hq : q.IsLegible s) (he : e.IsLegible s) (hwq : q.toExpr.IsWritable)
    (hwe : e.IsWritable) :
    ∃ a : Assignment, (∀ p, a.left.meaning s p = .ok q) ∧ (∀ p, a.right.meaning s p = .ok e) ∧
      a.right.isCall = e.isCall ∧
        ∀ rest, BeginsStatement ((q.toExpr.text ++ " = " ++ e.text ++ ";").toList ++ rest) ∧
          command ((q.toExpr.text ++ " = " ++ e.text ++ ";").toList ++ rest) =
            some (.assign a, rest) := by
  obtain ⟨l, hl, hlread⟩ := hq.reads hwq
  obtain ⟨r, hcall, hr, hrread⟩ := he.isReadBack hwe
  refine ⟨⟨l, [.space ' '], [.space ' '], r, []⟩, hl, hr, hcall, fun rest => ?_⟩
  have htext : (q.toExpr.text ++ " = " ++ e.text ++ ";").toList ++ rest =
      q.toExpr.text.toList ++ ' ' :: '=' :: ' ' :: (e.text.toList ++ ';' :: rest) := by
    simp
  rw [htext]
  refine ⟨(hq.begins _).2, (command_apply (hq.begins _).1).trans (map_some ?_)⟩
  refine bind_of (hlread _) ?_
  refine bind_of (gap_space (blank_none rfl)) ?_
  refine bind_of (exactly_append "=" _) ?_
  refine bind_of (gap_space he.blank_append) ?_
  refine bind_of (hrread _) ?_
  refine bind_of (gap_nil (blank_none rfl)) ?_
  exact bind_of (exactly_append ";" rest) rfl

theorem Instr.isReadBack_assign (hq : q.IsLegible s) (he : e.IsLegible s)
    (hcall : e.isCall = false) (hw : (Instr.assign q e : Instr Target).IsWritable) :
    (Instr.assign q e).IsReadBack s n := by
  obtain ⟨hwq, hwe⟩ := Instr.isWritable_assign.mp hw
  obtain ⟨a, hleft, hright, hacall, hread⟩ := assignment_reads hq he hwq hwe
  refine ⟨.assign a, fun p => ⟨.assign q e, ?_, fun l _ => rfl⟩, hread⟩
  rw [Command.meaning, Assignment.meaning, hleft, hright, hacall, hcall]
  rfl

theorem Instr.isReadBack_result {v : Var} (hv : s.Knows v) (he : e.IsLegible s)
    (hcall : e.isCall = true) (hw : e.IsWritable) :
    (Instr.call (some (.var v)) e).IsReadBack s n := by
  obtain ⟨a, hleft, hright, hacall, hread⟩ :=
    assignment_reads (q := .var v) hv he (List.forall_mem_nil _) hw
  refine ⟨.assign a, fun p => ⟨.call (some (.var v)) e, ?_, fun l _ => rfl⟩, hread⟩
  rw [Command.meaning, Assignment.meaning, hleft, hright, hacall, hcall]
  rfl

end Assignments

section Commands

theorem Instr.isReadBack_call {r : Receiver} {m : String} {args : List Expr}
    (h : (Expr.call r m args).IsLegible s) (hw : (Expr.call r m args).IsWritable) :
    (Instr.call none (Expr.call r m args)).IsReadBack s n := by
  obtain ⟨x, hx, hread⟩ := call_reads h hw
  refine ⟨.call x [], fun p => ⟨.call none (.call r m args), ?_, fun l _ => rfl⟩, fun rest => ?_⟩
  · rw [Command.meaning, hx]
    rfl
  · have hcall : callCommand ((Expr.call r m args).text.toList ++ ';' :: rest) =
        some (.call x [], rest) := by
      refine bind_of (hread _) ?_
      refine bind_of (gap_nil (blank_none rfl)) ?_
      exact bind_of (exactly_append ";" rest) rfl
    have htext : ((Instr.call none (Expr.call r m args)).textWith Target.labelled).toList ++
        rest = (Expr.call r m args).text.toList ++ ';' :: rest := by
      simp [textWith]
    have hkeyword : (Expr.call r m args).text.toList ++ ';' :: rest =
        "invoke".toList ++ ' ' :: ((r.render ++ m).toList ++ '(' ::
          ((", ".intercalate (Expr.textAll args)).toList ++ ')' :: ';' :: rest)) := by
      simp [Expr.text]
    rw [htext]
    rw [hkeyword] at hcall ⊢
    refine ⟨beginsStatement_keyword (by decide) rfl, (orElse_none (bind_none rfl)).trans ?_⟩
    refine (orElse_none (map_none (bind_none rfl))).trans ?_
    refine (orElse_none (map_none (bind_none rfl))).trans ?_
    refine (orElse_none (map_none (bind_none rfl))).trans ?_
    exact (orElse_none (bind_none rfl)).trans (orElse_some hcall)

theorem Instr.isReadBack_goto (ht : t.IsWithin n) : (Instr.goto t).IsReadBack s n := by
  obtain ⟨j, hj, hread⟩ := ht.reads
  refine ⟨.goto j, fun p => ⟨.goto (j.target p), rfl, fun l hl => ?_⟩, fun rest => ?_⟩
  · rw [Layout.resolveInstr, ht.resolve hl hj]
    rfl
  · have htext : ((Instr.goto t).textWith Target.labelled).toList ++ rest =
        "goto".toList ++ ' ' :: (t.labelled.toList ++ ';' :: rest) := by
      simp [Instr.textWith]
    have hjump : jumpTo ("goto".toList ++ ' ' :: (t.labelled.toList ++ ';' :: rest)) =
        some (j, rest) := by
      simpa [Target.jumpText] using hread rest
    rw [htext]
    refine ⟨beginsStatement_keyword (by decide) rfl, (orElse_none (bind_none rfl)).trans ?_⟩
    exact orElse_some (map_some hjump)

theorem Instr.isReadBack_branch {op : BinOp} {a b : Expr} (hop : op.isCondition = true)
    (ha : a.IsLegibleAtom s) (hb : b.IsLegibleAtom s) (ht : t.IsWithin n)
    (hw : (Expr.bin op a b).IsWritable) :
    (Instr.branch (.bin op a b) t).IsReadBack s n := by
  obtain ⟨o, ho, horead⟩ := operation_reads ha hb hw fun r => relation_append (r := r) hop
  obtain ⟨j, hj, hjread⟩ := ht.reads
  refine ⟨.branch ⟨[.space ' '], [], o, [], [.space ' '], j⟩, fun p => ?_, fun rest => ?_⟩
  · refine ⟨.branch (.bin op a b)
      (j.target (p.after (Branch.head ⟨[.space ' '], [], o, [], [.space ' '], j⟩))), ?_, ?_⟩
    · rw [Command.meaning, ho]
      rfl
    · intro l hl
      rw [Layout.resolveInstr, ht.resolve hl hj]
      rfl
  · have htext : ((Instr.branch (.bin op a b) t).textWith Target.labelled).toList ++ rest =
        "if".toList ++ ' ' :: '(' :: ((Expr.bin op a b).text.toList ++
          ')' :: ' ' :: (t.jumpText ++ rest)) := by
      simp [Instr.textWith, Target.jumpText]
    have hsolid : ∀ r, blank ((Expr.bin op a b).text.toList ++ r) = none := fun r =>
      Expr.IsLegible.blank_append (s := s) (e := .bin op a b) ⟨ha, hb⟩
    rw [htext]
    refine ⟨beginsStatement_keyword (by decide) rfl, (orElse_none (bind_none rfl)).trans ?_⟩
    refine (orElse_none (map_none (bind_none rfl))).trans (orElse_some (map_some ?_))
    refine bind_of (exactly_append "if" _) ?_
    refine bind_of (gap_space (blank_none rfl)) ?_
    refine bind_of (exactly_append "(" _) ?_
    refine bind_of (gap_nil (hsolid _)) ?_
    refine bind_of (horead _ rfl) ?_
    refine bind_of (gap_nil (blank_none rfl)) ?_
    refine bind_of (exactly_append ")" _) ?_
    refine bind_of (gap_space blank_jumpText) ?_
    exact bind_of (hjread rest) rfl

theorem Instr.isReadBack_switch {v : Var} {ks : List Int} {ts : List Target} (hv : s.Knows v)
    (hks : ks.Nodup) (hlen : ks.length = ts.length) (hts : ∀ t ∈ ts, t.IsWithin n)
    (ht : t.IsWithin n) (hw : (Instr.switch v ks ts t).IsWritable) :
    (Instr.switch v ks ts t).IsReadBack s n := by
  obtain ⟨w, hmeaning, hread⟩ := switch_reads hv hks hlen hts ht hw
  refine ⟨.switch w, hmeaning, fun rest => ?_⟩
  have hswitch := hread rest
  have hkeyword : ∃ r, ((Instr.switch v ks ts t).textWith Target.labelled).toList ++ rest =
      "switch".toList ++ ' ' :: r := by
    rw [switchText_toList hv.isName]
    exact ⟨_, rfl⟩
  obtain ⟨r, hr⟩ := hkeyword
  rw [hr] at hswitch ⊢
  refine ⟨beginsStatement_keyword (by decide) rfl, (orElse_none (bind_none rfl)).trans ?_⟩
  refine (orElse_none (map_none (bind_none rfl))).trans ?_
  exact (orElse_none (map_none (bind_none rfl))).trans (orElse_some (map_some hswitch))

theorem Instr.isReadBack_ret {e : Option Expr} (he : ∀ x, e = some x → x.IsLegibleAtom s)
    (hw : (Instr.ret e : Instr Target).IsWritable) : (Instr.ret e).IsReadBack s n := by
  cases e with
  | none =>
    refine ⟨.ret none [], fun p => ⟨.ret none, rfl, fun l _ => rfl⟩, fun rest => ?_⟩
    have htext : ((Instr.ret none).textWith Target.labelled).toList ++ rest =
        "return".toList ++ ';' :: rest := rfl
    have hnone : returned (';' :: rest) = none := bind_none (gap1_none (blank_none rfl))
    rw [htext]
    refine ⟨beginsStatement_keyword (by decide) rfl, orElse_some ?_⟩
    refine bind_of (exactly_append "return" _) ?_
    refine bind_of (optional_none hnone) ?_
    refine bind_of (gap_nil (blank_none rfl)) ?_
    exact bind_of (exactly_append ";" rest) rfl
  | some x =>
    have hx := he x rfl
    obtain ⟨a, ha, hread⟩ := hx.reads hw
    refine ⟨.ret (some ⟨[.space ' '], a⟩) [], fun p => ⟨.ret (some x), ?_, fun l _ => rfl⟩,
      fun rest => ?_⟩
    · rw [Command.meaning, ha]
      rfl
    · have htext : ((Instr.ret (some x)).textWith Target.labelled).toList ++ rest =
          "return".toList ++ ' ' :: (x.text.toList ++ ';' :: rest) := by
        simp [textWith]
      have hreturned : returned (' ' :: (x.text.toList ++ ';' :: rest)) =
          some (⟨[.space ' '], a⟩, ';' :: rest) :=
        bind_of (gap1_space hx.blank_append) (bind_of (hread _ rfl) rfl)
      rw [htext]
      refine ⟨beginsStatement_keyword (by decide) rfl, orElse_some ?_⟩
      refine bind_of (exactly_append "return" _) ?_
      refine bind_of (optional_some hreturned) ?_
      refine bind_of (gap_nil (blank_none rfl)) ?_
      exact bind_of (exactly_append ";" rest) rfl

theorem Instr.isReadBack_nop : Instr.nop.IsReadBack s n := by
  refine ⟨.nop [], fun p => ⟨.nop, rfl, fun l _ => rfl⟩, fun rest => ?_⟩
  have htext : (Instr.nop.textWith Target.labelled).toList ++ rest =
      "nop".toList ++ ';' :: rest := rfl
  rw [htext]
  refine ⟨beginsStatement_keyword (by decide) rfl, (orElse_none (bind_none rfl)).trans ?_⟩
  refine (orElse_none (map_none (bind_none rfl))).trans ?_
  refine (orElse_none (map_none (bind_none rfl))).trans ?_
  refine (orElse_none (map_none (bind_none rfl))).trans (orElse_some ?_)
  refine bind_of (exactly_append "nop" _) ?_
  refine bind_of (gap_nil (blank_none rfl)) ?_
  exact bind_of (exactly_append ";" rest) rfl

end Commands

/-- Every legible statement whose integers can be written is read back. -/
theorem Instr.IsLegible.isReadBack (h : i.IsLegible s (Target.IsWithin n)) (hw : i.IsWritable) :
    i.IsReadBack s n := by
  cases i with
  | assign p e => exact isReadBack_assign h.1 h.2.1 h.2.2 hw
  | call p e =>
    obtain ⟨hp, he, hcall⟩ := h
    cases p with
    | none =>
      cases e with
      | call r m args => exact isReadBack_call he hw
      | _ => cases hcall
    | some p =>
      obtain ⟨v, rfl, hv⟩ := hp p rfl
      exact isReadBack_result hv he hcall hw
  | branch c t =>
    cases c with
    | bin op a b => exact isReadBack_branch h.1.1 h.1.2.1 h.1.2.2 h.2 hw
    | _ => exact h.1.elim
  | goto t => exact isReadBack_goto h
  | switch v ks ts d => exact isReadBack_switch h.1 h.2.1 h.2.2.1 h.2.2.2.1 h.2.2.2.2 hw
  | ret e => exact isReadBack_ret h hw
  | nop => exact isReadBack_nop

end MethodFlow
