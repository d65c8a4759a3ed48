import MethodFlow.Proofs.Builders
import MethodFlow.Proofs.Layouts
import MethodFlow.Proofs.PlainCode

/-!
What is read from a text is plain code.
-/

namespace MethodFlow

/-- Other jumps leave a statement plain. -/
theorem Instr.Rel.isPlain {τ σ : Type} {R : τ → σ → Prop} {i : Instr τ} {i' : Instr σ}
    (h : Instr.Rel R i i') (hi : i.IsPlain) : i'.IsPlain := by
  cases h with
  | assign _ _ | call _ _ | branch _ _ | ret _ => exact hi
  | goto _ | switch _ _ _ _ | nop => trivial

namespace Source

variable {s : Scope} {p : Pos} {e : Expr}

theorem Atom.isAtom_of_meaning {a : Atom} (h : a.meaning s p = .ok e) : e.isAtom = true := by
  cases a with
  | int n =>
    obtain ⟨k, _, h⟩ := Attempt.bind_eq_ok.mp h
    cases h
    rfl
  | string ps =>
    cases h
    rfl
  | null =>
    cases h
    rfl
  | name x =>
    obtain ⟨v, _, h⟩ := Attempt.bind_eq_ok.mp h
    cases h
    rfl

theorem Member.place_isFlat (m : Member) (s : Scope) : (m.place s).toExpr.IsFlat := by
  unfold place
  split
  · intro a ha
    rw [List.mem_singleton.mp ha]
    rfl
  · exact Expr.isFlat_of_operands_eq_nil rfl

theorem Element.isFlat_of_place {x : Element} {q : Place} (h : x.place s p = .ok q) :
    q.toExpr.IsFlat ∧ q.toExpr.isCall = false := by
  obtain ⟨i, hi, h⟩ := Attempt.bind_eq_ok.mp h
  obtain ⟨v, _, h⟩ := Attempt.bind_eq_ok.mp h
  cases h
  refine ⟨fun a ha => ?_, rfl⟩
  rcases List.mem_cons.mp ha with rfl | ha
  · rfl
  · rw [List.mem_singleton.mp ha]
    exact Atom.isAtom_of_meaning hi

theorem LeftSide.isFlat_of_meaning {l : LeftSide} {q : Place} (h : l.meaning s p = .ok q) :
    q.toExpr.IsFlat := by
  cases l with
  | element x => exact (Element.isFlat_of_place h).1
  | member m =>
    cases h
    exact m.place_isFlat s
  | name x =>
    obtain ⟨v, _, h⟩ := Attempt.bind_eq_ok.mp h
    cases h
    exact Expr.isFlat_of_operands_eq_nil rfl

theorem Arguments.isAtom_of_meaning {x : Arguments} {args : List Expr}
    (h : x.meaning s p = .ok args) : ∀ a ∈ args, a.isAtom = true := by
  intro a ha
  obtain ⟨y, _, hy⟩ := Attempt.mem_of_mapM h ha
  exact Atom.isAtom_of_meaning hy

theorem Invocation.isFlat_of_meaning {i : Invocation} (h : i.meaning s p = .ok e) :
    e.IsFlat ∧ e.isCall = true := by
  obtain ⟨args, hargs, h⟩ := Attempt.bind_eq_ok.mp h
  cases h
  refine ⟨fun a ha => ?_, rfl⟩
  rcases List.mem_append.mp ha with ha | ha
  · obtain ⟨v, _, rfl⟩ := List.mem_map.mp ha
    rfl
  · cases hx : i.arguments with
    | none =>
      rw [hx] at hargs
      cases hargs
      cases ha
    | some x =>
      rw [hx] at hargs
      exact Arguments.isAtom_of_meaning hargs a ha

theorem Operation.isFlat_of_meaning {o : Operation} (h : o.meaning s p = .ok e) :
    e.IsFlat ∧ e.isCall = false := by
  obtain ⟨a, ha, h⟩ := Attempt.bind_eq_ok.mp h
  obtain ⟨b, hb, h⟩ := Attempt.bind_eq_ok.mp h
  cases h
  refine ⟨fun x hx => ?_, rfl⟩
  rcases List.mem_cons.mp hx with rfl | hx
  · exact Atom.isAtom_of_meaning ha
  · rw [List.mem_singleton.mp hx]
    exact Atom.isAtom_of_meaning hb

/-- The right side of an assignment is flat, and a call exactly when it is written as one. -/
theorem RightSide.isFlat_of_meaning {r : RightSide} (h : r.meaning s p = .ok e) :
    e.IsFlat ∧ e.isCall = r.isCall := by
  cases r with
  | newArray a =>
    obtain ⟨t, _, h⟩ := Attempt.bind_eq_ok.mp h
    obtain ⟨n, hn, h⟩ := Attempt.bind_eq_ok.mp h
    cases h
    exact ⟨fun x hx => List.mem_singleton.mp hx ▸ Atom.isAtom_of_meaning hn, rfl⟩
  | newObject n =>
    obtain ⟨t, _, h⟩ := Attempt.bind_eq_ok.mp h
    split at h
    · cases h
      exact ⟨Expr.isFlat_of_operands_eq_nil rfl, rfl⟩
    · cases h
  | call i => exact Invocation.isFlat_of_meaning h
  | cast c =>
    obtain ⟨t, _, h⟩ := Attempt.bind_eq_ok.mp h
    obtain ⟨n, hn, h⟩ := Attempt.bind_eq_ok.mp h
    cases h
    exact ⟨fun x hx => List.mem_singleton.mp hx ▸ Atom.isAtom_of_meaning hn, rfl⟩
  | operation o => exact Operation.isFlat_of_meaning h
  | negation n =>
    obtain ⟨v, _, h⟩ := Attempt.bind_eq_ok.mp h
    cases h
    refine ⟨fun x hx => ?_, rfl⟩
    rw [List.mem_singleton.mp hx]
    rfl
  | element x =>
    obtain ⟨q, hq, h⟩ := Attempt.bind_eq_ok.mp h
    cases h
    exact Element.isFlat_of_place hq
  | member m =>
    cases h
    refine ⟨m.place_isFlat s, ?_⟩
    unfold Member.place
    split <;> rfl
  | atom a =>
    have ha := Atom.isAtom_of_meaning h
    exact ⟨Expr.isFlat_of_isAtom ha, Expr.isCall_of_isAtom ha⟩

variable {i : Instr LabelRef}

theorem Assignment.isPlain_of_meaning {a : Assignment} (h : a.meaning s p = .ok i) :
    i.IsPlain := by
  obtain ⟨q, e, hq, he, h⟩ := a.parts_of_meaning h
  have hflat := LeftSide.isFlat_of_meaning hq
  obtain ⟨heflat, hcall⟩ := RightSide.isFlat_of_meaning he
  rcases h with ⟨hno, rfl⟩ | ⟨_, _, rfl⟩
  · exact ⟨hflat, heflat, hcall.trans hno⟩
  · exact ⟨fun x hx => Option.some.inj hx ▸ hflat, heflat⟩

theorem Command.isPlain_of_meaning {c : Command} (h : c.meaning s p = .ok i) : i.IsPlain := by
  cases c with
  | ret r g =>
    cases r with
    | none =>
      cases h
      exact fun x hx => by cases hx
    | some r =>
      obtain ⟨e, he, h⟩ := Attempt.bind_eq_ok.mp h
      cases h
      exact fun x hx => Option.some.inj hx ▸ Atom.isAtom_of_meaning he
  | goto j =>
    cases h
    trivial
  | branch b =>
    obtain ⟨e, he, h⟩ := Attempt.bind_eq_ok.mp h
    cases h
    exact (Operation.isFlat_of_meaning he).1
  | switch w =>
    obtain ⟨_, v, _, _, _, _, rfl⟩ := w.parts_of_meaning h
    trivial
  | nop g =>
    cases h
    trivial
  | call x g =>
    obtain ⟨e, he, h⟩ := Attempt.bind_eq_ok.mp h
    cases h
    refine ⟨fun x hx => ?_, (Invocation.isFlat_of_meaning he).1⟩
    cases hx
  | assign a => exact Assignment.isPlain_of_meaning h

variable {l l' : Layout LabelRef}

/-- A layout of plain statements. -/
def Layout.IsPlain (l : Layout LabelRef) : Prop :=
  ∀ x ∈ l.stmts, x.instr.IsPlain

theorem Layout.IsPlain.ofItems {xs : List Item} (hl : l.IsPlain)
    (h : Layout.ofItems s p l xs = .ok l') : l'.IsPlain :=
  forall_ofItems (fun _ _ _ => Command.isPlain_of_meaning) hl h

theorem Layout.IsPlain.body {xs : List Stmt} (hl : l.IsPlain) (h : l.body = .ok xs) :
    ∀ x ∈ xs, x.instr.IsPlain :=
  forall_body h hl fun _ _ hi => hi.isPlain

theorem MethodDecl.isPlain_of_meaning {d : MethodDecl} {m : Method} (h : d.meaning p = .ok m) :
    ∀ x ∈ m.body, x.instr.IsPlain := by
  obtain ⟨_, _, _, l, xs, _, _, _, hl, hxs, rfl⟩ := d.parts_of_meaning h
  have hplain : Layout.empty.IsPlain := List.forall_mem_nil _
  exact (hplain.ofItems hl).body hxs

theorem mem_meanings {m : Method} {ds : List MethodDecl} (h : m ∈ (meanings p ds).methods) :
    ∃ d ∈ ds, ∃ p', d.meaning p' = .ok m := by
  induction ds generalizing p with
  | nil => cases h
  | cons d ds ih =>
    unfold meanings at h
    split at h
    · cases h
    · rename_i m' hm
      rcases List.mem_cons.mp h with rfl | h
      · exact ⟨d, List.mem_cons_self, p, hm⟩
      · obtain ⟨d', hd, hm'⟩ := ih h
        exact ⟨d', List.mem_cons_of_mem d hd, hm'⟩

theorem Program.methods_meaning (x : Program) :
    x.meaning.methods = (meanings (Pos.start.after x.lead.text) x.methods).methods := by
  unfold meaning Reading.close
  split <;> rfl

/-- What is read from a text are the meanings of the method declarations that it consists of. -/
theorem mem_readText {cs : List Char} {m : Method} (h : m ∈ (readText cs).methods) :
    (Program.ofText cs).2 = [] ∧ ∃ d ∈ (Program.ofText cs).1.methods, ∃ p, d.meaning p = .ok m := by
  unfold readText at h
  split at h
  · rename_i x hx
    rw [Program.visit_eq_meaning, Program.methods_meaning] at h
    rw [hx]
    exact ⟨rfl, mem_meanings h⟩
  · cases h

theorem mem_of_parse {text : String} {ms : List Method} (h : parse text = .ok ms) {m : Method}
    (hm : m ∈ ms) : m ∈ (readText text.toList).methods := by
  unfold parse at h
  dsimp only at h
  split at h
  · cases h
  · cases h
    exact hm

/-- Every statement of a method that is read from a text is plain. -/
theorem isPlain_of_parse {text : String} {ms : List Method} (h : parse text = .ok ms) {m : Method}
    (hm : m ∈ ms) : ∀ x ∈ m.body, x.instr.IsPlain := by
  obtain ⟨_, _, _, _, hd⟩ := mem_readText (mem_of_parse h hm)
  exact MethodDecl.isPlain_of_meaning hd

end Source

end MethodFlow
