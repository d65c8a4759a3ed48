import MethodFlow.Proofs.JoinedPrograms
import MethodFlow.Proofs.MeaninglessPrograms

/-!
Texts that are no programs: what is in front of the first thing that is no method is a program by
itself, and the position of the error tells where that is.
-/

namespace MethodFlow.Source

open Reader

section Positions

variable {p : Pos} {x cs : List Char} {n k : Nat}

/-- A position denotes an offset in a text: its line is one more than the line feeds in front of the
offset, its column one more than the characters since the last of these. -/
structure Pos.Denotes (p : Pos) (cs : List Char) (n : Nat) : Prop where
  within : n ≤ cs.length
  line : p.line = (cs.take n).count '\n' + 1
  column : p.column = ((cs.take n).reverse.takeWhile (· ≠ '\n')).length + 1

theorem Pos.column_start_after (x : List Char) :
    (Pos.start.after x).column = (x.reverse.takeWhile (· ≠ '\n')).length + 1 := by
  induction x using List.reverseRecOn with
  | nil => rfl
  | append_singleton x c ih =>
    have hnext : Pos.start.after (x ++ [c]) = (Pos.start.after x).next c := Pos.after_append ..
    rw [hnext, List.reverse_concat]
    unfold Pos.next
    by_cases hc : c = '\n'
    · rw [if_pos hc, List.takeWhile_cons_of_neg (by simpa using hc)]
      rfl
    · rw [if_neg hc, List.takeWhile_cons_of_pos (by simpa using hc), List.length_cons, ← ih]

theorem Pos.denotes_iff : p.Denotes cs n ↔ n ≤ cs.length ∧ p = Pos.start.after (cs.take n) := by
  have hline : (Pos.start.after (cs.take n)).line = (cs.take n).count '\n' + 1 :=
    (Pos.line_after _).trans (Nat.add_comm ..)
  have hcolumn := Pos.column_start_after (cs.take n)
  constructor
  · intro h
    exact ⟨h.within, congrArg₂ Pos.mk (h.line.trans hline.symm) (h.column.trans hcolumn.symm)⟩
  · rintro ⟨hn, rfl⟩
    exact ⟨hn, hline, hcolumn⟩

/-- Behind a part at the beginning of a text, a position denotes where the part ends. -/
theorem Pos.denotes_append (x r : List Char) :
    (Pos.start.after x).Denotes (x ++ r) x.length := by
  rw [Pos.denotes_iff, List.take_left, List.length_append]
  exact ⟨Nat.le_add_right .., rfl⟩

theorem Pos.column_after (h : '\n' ∉ x) : (p.after x).column = p.column + x.length := by
  induction x generalizing p with
  | nil => rfl
  | cons c x ih =>
    rw [List.mem_cons, not_or] at h
    have hnext : p.next c = ⟨p.line, p.column + 1⟩ := if_neg (Ne.symm h.1)
    have hafter : p.after (c :: x) = (p.next c).after x := rfl
    rw [hafter, ih h.2, hnext, List.length_cons]
    exact Nat.add_right_comm p.column 1 x.length

/-- A text moves every position on. -/
theorem Pos.eq_nil_of_after (h : p.after x = p) : x = [] := by
  have hcount : x.count '\n' = 0 := by
    have hline := Pos.line_after (p := p) x
    rw [h] at hline
    omega
  have hcolumn := Pos.column_after (p := p) (List.count_eq_zero.mp hcount)
  rw [h] at hcolumn
  exact List.eq_nil_of_length_eq_zero (by omega)

theorem Pos.Denotes.le (hn : p.Denotes cs n) (hk : p.Denotes cs k) : k ≤ n := by
  rw [Pos.denotes_iff] at hn hk
  by_contra hlt
  have hsplit : cs.take k = cs.take n ++ (cs.take k).drop n := by
    conv_lhs => rw [← List.take_append_drop n (cs.take k)]
    rw [List.take_take, Nat.min_eq_left (by omega)]
  have hbetween : p.after ((cs.take k).drop n) = p := by
    conv_lhs => rw [hn.2]
    rw [← Pos.after_append, ← hsplit, ← hk.2]
  have hlength := congrArg List.length (Pos.eq_nil_of_after hbetween)
  rw [List.length_drop, List.length_take, List.length_nil] at hlength
  omega

/-- No two offsets of a text have the same position. -/
theorem Pos.Denotes.unique (hn : p.Denotes cs n) (hk : p.Denotes cs k) : k = n :=
  Nat.le_antisymm (hn.le hk) (hk.le hn)

end Positions

section Prefixes

variable {cs r rest : List Char} {ds : List MethodDecl} {x : Program}

/-- A text that is read as a program to its end. -/
def IsProgram (cs : List Char) : Prop :=
  ∃ x, program cs = some (x, [])

/-- What can stand in front of a text can stand in front of the beginning of the text. -/
theorem admitsFor_of_append (r rest : List Char) : AdmitsFor (r ++ rest) r := by
  cases r with
  | nil => exact admitsFor_nil rest
  | cons c r => exact fun _ h => h

/-- No gap is left behind the gap of a method. -/
theorem gap_of_run (h : Run methodDecl cs ds []) : gap cs = some ([], cs) := by
  cases h with
  | stop => exact gap_nil rfl
  | step h =>
    have hgap := gap_of_methodDecl h []
    rwa [List.append_nil] at hgap

theorem text_of_run (h : Run methodDecl cs ds rest) : cs = ds.flatMap MethodDecl.text ++ rest := by
  induction h with
  | stop => rfl
  | step h _ _ ih => rw [text_of_methodDecl h, List.flatMap_cons, List.append_assoc, ← ih]

/-- Methods one after the other are read without what is behind the last of them. -/
theorem run_truncate (h : Run methodDecl cs ds rest) :
    ∃ ds', Run methodDecl (ds.flatMap MethodDecl.text) ds' [] := by
  induction h with
  | stop => exact ⟨[], .stop rfl⟩
  | @step cs r rest d ds hread _ hmore ih =>
    obtain ⟨ds', hrun⟩ := ih
    have hadmits := admitsFor_of_append (ds.flatMap MethodDecl.text) rest
    rw [← text_of_run hmore] at hadmits
    obtain ⟨d', hread', -⟩ := methodDecl_retarget hread hadmits (gap_of_run hrun)
    exact ⟨d' :: ds', .step hread' (consumes_methodDecl _ _ _ hread') hrun⟩

/-- The part of a text that is read as a program is one. -/
theorem isProgram_of_program (h : program cs = some (x, rest)) :
    cs = x.text ++ rest ∧ IsProgram x.text ∧ methodDecl rest = none := by
  obtain ⟨lead, r, hlead, h⟩ := bind_eq_some.mp h
  obtain ⟨ds, _, hds, h⟩ := bind_eq_some.mp h
  cases h
  have hrun := (many_eq_some consumes_methodDecl).mp hds
  obtain ⟨ds', hrun'⟩ := run_truncate hrun
  have htext := text_of_run hrun
  have hadmits := admitsFor_of_append (ds.flatMap MethodDecl.text) rest
  rw [← htext] at hadmits
  refine ⟨?_, ⟨⟨lead ++ [], ds'⟩, ?_⟩, hrun.stops⟩
  · rw [text_of_gap hlead, Program.text, List.append_assoc, ← htext]
  · exact bind_of (gap_retarget hlead hadmits (gap_of_run hrun')) (bind_of hrun'.many rfl)

end Prefixes

section Errors

variable {text : String} {x : Program}

theorem not_malformed_of_program (h : program text.toList = some (x, [])) {e : Diagnostic}
    (he : parse text = .error e) : e.cause.severity ≠ .malformed := by
  rw [parse_of_program h] at he
  exact x.neverMalformed e he

/-- What is said of a text that goes on behind its methods. -/
theorem parse_of_rest {c : Char} {rest : List Char}
    (h : program text.toList = some (x, c :: rest)) : parse text =
      .error ⟨.noMethodAt (snippet (c :: rest)), some (Pos.start.after x.text)⟩ := by
  rw [parse_eq_check, readText, Program.ofText, h]
  rfl

/-- The beginning of a text is always read as a program. The text is said to be malformed exactly
when that is not all of it, and then the position of the error denotes one offset of the text: what
is in front of it is a program, and no method begins there. -/
theorem parse_malformed (text : String) :
    (∃ x rest, program text.toList = some (x, rest)) ∧
    ((∃ e, parse text = .error e ∧ e.cause.severity = .malformed) ↔ ¬ IsProgram text.toList) ∧
    ∀ e, parse text = .error e → e.cause.severity = .malformed → ∃ (p : Pos) (n : Nat),
      e = ⟨.noMethodAt (snippet (text.toList.drop n)), some p⟩ ∧ n < text.toList.length ∧
        p.Denotes text.toList n ∧ (∀ k, p.Denotes text.toList k → k = n) ∧
        IsProgram (text.toList.take n) ∧ methodDecl (text.toList.drop n) = none := by
  obtain ⟨x, rest, hread⟩ := exists_program text.toList
  obtain ⟨htext, hprogram, hnone⟩ := isProgram_of_program hread
  refine ⟨⟨x, rest, hread⟩, ?_⟩
  cases rest with
  | nil =>
    refine ⟨iff_of_false ?_ (not_not_intro ⟨x, hread⟩), fun e he hmalformed => ?_⟩
    · rintro ⟨e, he, hmalformed⟩
      exact not_malformed_of_program hread he hmalformed
    · exact absurd hmalformed (not_malformed_of_program hread he)
  | cons c rest =>
    have herror := parse_of_rest hread
    have htake : text.toList.take x.text.length = x.text := by rw [htext, List.take_left]
    have hdrop : text.toList.drop x.text.length = c :: rest := by rw [htext, List.drop_left]
    have hlength : x.text.length < text.toList.length := by
      rw [htext, List.length_append, List.length_cons]
      omega
    have hdenotes := Pos.denotes_append x.text (c :: rest)
    rw [← htext] at hdenotes
    refine ⟨iff_of_true ⟨_, herror, rfl⟩ ?_, fun e he _ => ?_⟩
    · rintro ⟨y, hy⟩
      cases hread.symm.trans hy
    · cases herror.symm.trans he
      refine ⟨_, _, ?_, hlength, hdenotes, fun k hk => hdenotes.unique hk, ?_, ?_⟩
      · rw [hdrop]
      · rwa [htake]
      · rwa [hdrop]

def brokenText : String :=
  "method void f() \x7b return; \x7d\nmethod void g( \x7b \x7d"

set_option maxRecDepth 20000 in
/-- The second method has no closing parenthesis; the first is a program by itself. -/
theorem parse_malformed_broken : ∃ n < brokenText.toList.length,
    parse brokenText = .error ⟨.noMethodAt "method void g( \x7b \x7d", some ⟨2, 1⟩⟩ ∧
      (⟨2, 1⟩ : Pos).Denotes brokenText.toList n ∧ IsProgram (brokenText.toList.take n) := by
  have herror : parse brokenText =
      .error ⟨.noMethodAt "method void g( \x7b \x7d", some ⟨2, 1⟩⟩ := by
    simp only [parse, brokenText, String.reduceToList]
    rfl
  obtain ⟨p, n, he, hn, hdenotes, -, hprogram, -⟩ := (parse_malformed brokenText).2.2 _ herror rfl
  cases Option.some.inj (congrArg Diagnostic.pos he)
  exact ⟨n, hn, herror, hdenotes, hprogram⟩

end Errors

end MethodFlow.Source
