import MethodFlow.Proofs.Lexemes

/-!
String literals that are printed and read again: what the text between the quotes stands for, from
left to right, is the string that was printed.
-/

namespace MethodFlow

namespace Text.Escaped

/-- What a text stands for: a backslash and the character behind it stand for one character, unless
that character ends the line. All else stands for itself. -/
def decode : List Char → List Char
  | [] => []
  | '\\' :: c :: r => if c = '\n' then '\\' :: c :: decode r else decodeChar c :: decode r
  | c :: r => c :: decode r

/-- What the text between the quotes of a literal stands for. -/
def unquote (cs : List Char) : List Char :=
  decode cs.tail.dropLast

theorem decode_cons {c : Char} (h : c ≠ '\\') (r : List Char) :
    decode (c :: r) = c :: decode r := by
  rw [decode]
  rintro d z rfl
  exact absurd rfl h

theorem decode_backslash {c : Char} (h : c ≠ '\n') (r : List Char) :
    decode ('\\' :: c :: r) = decodeChar c :: decode r := by
  rw [decode, if_neg h]

end Text.Escaped

namespace Source

open Reader Text

section Literals

variable {cs r : List Char} {ps : List Piece}

/-- What is read as a piece stands for the character that the piece stands for. -/
theorem decode_piece {x : Piece} (h : piece cs = some (x, r)) (z : List Char) :
    Escaped.decode (x.text ++ z) = x.value :: Escaped.decode z := by
  rcases orElse_eq_some.mp h with h | ⟨-, h⟩
  · obtain ⟨c, hc, rfl⟩ := map_eq_some.mp h
    obtain ⟨-, hplain⟩ := satisfying_eq_some.mp hc
    rw [Bool.and_eq_true, decide_eq_true_eq, decide_eq_true_eq] at hplain
    exact Escaped.decode_cons hplain.2 z
  · obtain ⟨_, w, -, h⟩ := bind_eq_some.mp h
    obtain ⟨c, v, hc, h⟩ := bind_eq_some.mp h
    cases h
    obtain ⟨-, hline⟩ := satisfying_eq_some.mp hc
    exact Escaped.decode_backslash (of_decide_eq_true hline) z

theorem decode_run (h : Run piece cs ps r) :
    Escaped.decode (ps.flatMap Piece.text) = ps.map Piece.value := by
  induction h with
  | stop => rfl
  | step h _ _ ih => rw [List.flatMap_cons, decode_piece h, List.map_cons, ih]

/-- What is read as a string literal stands for what its pieces stand for. -/
theorem unquote_stringLiteral (h : stringLiteral cs = some (ps, r)) :
    Escaped.unquote (Atom.string ps).text = ps.map Piece.value := by
  obtain ⟨_, z, -, h⟩ := bind_eq_some.mp h
  obtain ⟨qs, w, hqs, h⟩ := bind_eq_some.mp h
  obtain ⟨_, v, -, h⟩ := bind_eq_some.mp h
  cases h
  have htext : (Atom.string ps).text.tail.dropLast = ps.flatMap Piece.text := by
    rw [Atom.text, List.cons_append, List.tail_cons, List.dropLast_concat]
  rw [Escaped.unquote, htext]
  exact decode_run ((many_eq_some consumes_piece).mp hqs)

/-- A string that is printed and followed by any text is read as one literal, which is all that was
printed and stands for the string. -/
theorem printed_string_reads (x : String) (u : List Char) :
    ∃ t ps, (Expr.str x).render = .ok t ∧ stringLiteral (t.toList ++ u) = some (ps, u) ∧
      (Atom.string ps).text = t.toList ∧ Escaped.unquote t.toList = x.toList ∧
      ∀ (s : Scope) (p : Pos), (Atom.string ps).meaning s p = .ok (.str x) := by
  obtain ⟨ps, hps, hread⟩ := stringLiteral_encode x.toList
  refine ⟨(Expr.str x).text, ps, rfl, ?_⟩
  rw [Expr.text_str]
  have htext : (Atom.string ps).text = Escaped.encode x.toList := by
    have hsplit := (stringLiteral_eq_some (hread u)).1
    exact (List.append_cancel_right hsplit).symm
  refine ⟨hread u, htext, ?_, fun s p => ?_⟩
  · rw [← htext, unquote_stringLiteral (hread u), hps]
  · rw [Atom.meaning, hps, String.ofList_toList]

/-- A backslash in front of a quote, and a zero in front of a digit. -/
example : (Expr.str "\\\"\x001").render = .ok "\"\\\\\\\"\\01\"" := by decide

end Literals

end Source

end MethodFlow
