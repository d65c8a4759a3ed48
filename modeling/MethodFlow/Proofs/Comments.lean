import MethodFlow.Proofs.SeamedPrograms

/-!
Comments count as blanks: a program with a space in the place of a comment has the same methods. The
exception are comments in front of empty brackets or inside of them, which become parts of types.
-/

namespace MethodFlow

/-- The method without the lines of its statements. -/
def Method.lineless (m : Method) : Method :=
  m.mapLines fun _ => 0

namespace Source

open Attempt Reader

section Texts

variable {k : Seam} {cs r : List Char} {ls before after : List Lexeme} {c : Blank}

theorem Near.eq_nil (h : Near k [] r) : r = [] := by
  cases h with
  | behind => rfl
  | ahead _ hls _ =>
    obtain ⟨c, r, _, _, hleft, _⟩ := k.heads
    have htext := hls.text
    rw [hleft] at htext
    cases List.append_eq_nil_iff.mp htext.symm |>.2

/-- No lexeme that a comment follows is changed by a space in the place of the comment. -/
theorem admits_space {l : Lexeme} (hc : c.isSpace = false) (h : l.Admits (c.text ++ r).head?) :
    l.Admits (some ' ') := by
  obtain ⟨z, hz⟩ := Blank.text_of_isSpace hc
  rw [hz] at h
  cases l with
  | string ps => exact trivial
  | char d => exact fun _ => ⟨by decide, by decide⟩
  | blank b =>
    cases b with
    | line x => cases h '/' rfl
    | space d => exact trivial
    | block x => exact trivial

/-- A text with a comment is near the text with a space in the place of the comment. -/
theorem exists_seam (hls : lexemes cs = some (before ++ .blank c :: after, []))
    (hc : c.isSpace = false) (hbare : ¬ InBrackets before (textOf after)) :
    ∃ k : Seam, k.isBrace = false ∧ Near k cs (textOf before ++ ' ' :: textOf after) := by
  obtain ⟨r, hbefore, hcomment⟩ := (lexemes_eq_some.mp hls).split
  obtain rfl : r = c.text ++ textOf after := by
    rw [hcomment.text, textOf, List.flatMap_cons, List.append_nil]
    rfl
  have hread : blank (c.text ++ textOf after) = some (c, textOf after) := by
    cases hcomment with
    | @cons _ r _ _ _ hl hafter =>
      have htext := hafter.text
      rw [List.append_nil] at htext
      rw [blank_of_lexeme hl, htext]
  let k := Seam.comment before c (textOf after) hread hc hbare
  refine ⟨k, rfl, .ahead (List.suffix_refl before) hbefore ?_⟩
  exact hbefore.retarget fun l => admits_space hc

end Texts

section Programs

variable {k : Seam} {text text' : String} {ms : List Method}

theorem Reader.keeps_program (hk : k.isBrace = false) : Keeps k program program fun x x' =>
    List.Forall₂ (fun d d' => ∀ p p', Likewise (Method.Like fun _ _ => True) (d.meaning p)
      (d'.meaning p')) x.methods x'.methods :=
  keeps_past_gap fun _ _ =>
    ((keeps_methodDecl hk).many consumes_methodDecl).bind fun _ _ h => keeps_pure h

theorem parse_of_near (hk : k.isBrace = false) (hnear : Near k text.toList text'.toList)
    (h : parse text = .ok ms) :
    ∃ ms', parse text' = .ok ms' ∧ List.Forall₂ (Method.Like fun _ _ => True) ms ms' := by
  obtain ⟨x, hread, hx⟩ := program_of_parse h
  obtain ⟨hnone, -⟩ | ⟨_, x', _, r', hread₁, hread', hds, hr⟩ := keeps_program hk _ _ hnear
  · cases hread.symm.trans hnone
  cases hread.symm.trans hread₁
  obtain rfl := hr.eq_nil
  rw [parse_of_program hread']
  refine (Program.check_likewise ?_).forth ms hx
  exact meanings_likewise (fun _ _ => True) trivial
    (hds.imp fun d d' hd p p' _ => ⟨hd p p', trivial⟩)

/-- The comments in the gaps of a program are among its lexemes. Each stands behind the lexemes of
what is in front of it, and in front of those of what is behind it. -/
theorem lexemes_of_comment {cs : List Char} {x : Program} (h : program cs = some (x, []))
    {before after : List Token} {g g' : Gap} {c : Blank}
    (hx : x.tokens = before ++ .gap (g ++ c :: g') :: after) :
    lexemes cs = some (lexemesOf (before ++ [.gap g]) ++ .blank c ::
      lexemesOf (.gap g' :: after), []) := by
  rw [lexemes_of_program h, hx]
  simp [Token.lexemes]

/-- A text that is accepted consists of lexemes, and any comment among them may be a space instead:
the methods stay the same but for the lines of their statements. This does not hold of comments in
front of empty brackets or inside of them. What looks like a comment in a string literal is no
lexeme. -/
theorem parse_comment_as_space (h : parse text = .ok ms) :
    ∃ ls, lexemes text.toList = some (ls, []) ∧ text.toList = textOf ls ∧
      ∀ before c after, ls = before ++ .blank c :: after → c.isSpace = false →
        ¬ InBrackets before (textOf after) →
          ∃ ms', parse (String.ofList (textOf before ++ ' ' :: textOf after)) = .ok ms' ∧
            ms'.map Method.lineless = ms.map Method.lineless := by
  obtain ⟨x, hread, -⟩ := program_of_parse h
  have hls := lexemes_of_program hread
  refine ⟨lexemesOf x.tokens, hls, (text_of_program hread).trans x.spelling_tokens.symm, ?_⟩
  intro before c after hsplit hc hbare
  rw [hsplit] at hls
  obtain ⟨k, hk, hnear⟩ := exists_seam hls hc hbare
  obtain ⟨ms', hms', hlike⟩ := parse_of_near hk (by rwa [String.toList_ofList]) h
  exact ⟨ms', hms', (mapLines_eq_of_like hlike fun _ _ _ => rfl).symm⟩

/-- The lexemes of words with spaces between them. -/
def spelled (s : String) : List Lexeme :=
  s.toList.map fun c => if c = ' ' then .blank (.space c) else .char c

/-- A method with a comment between the type of its parameter and the name of it. -/
def commentText : String :=
  "method void f(int[]/*c*/a) \x7b return; \x7d"

set_option maxRecDepth 20000 in
theorem parse_comment_as_space_param : ∃ before c after ms ms',
    lexemes commentText.toList = some (before ++ .blank c :: after, []) ∧ c.isSpace = false ∧
      ¬ InBrackets before (textOf after) ∧ parse commentText = .ok ms ∧
      parse (String.ofList (textOf before ++ ' ' :: textOf after)) = .ok ms' ∧
      ms'.map Method.lineless = ms.map Method.lineless := by
  have hls : lexemes commentText.toList = some (spelled "method void f(int[]" ++
      .blank (.block ['c']) :: spelled "a) \x7b return; \x7d", []) := by
    simp only [spelled, commentText, String.reduceToList]
    rfl
  have hbare : ¬ InBrackets (spelled "method void f(int[]")
      (textOf (spelled "a) \x7b return; \x7d")) := by
    simp only [spelled, String.reduceToList]
    rintro (⟨x, hx⟩ | ⟨-, g, r, hg⟩)
    · cases hx
    · cases hg
  have hms : ∃ ms, parse commentText = .ok ms := by
    simp only [parse, commentText, String.reduceToList]
    exact ⟨_, rfl⟩
  obtain ⟨ms, hms⟩ := hms
  obtain ⟨ls, hls', -, hspace⟩ := parse_comment_as_space hms
  obtain rfl : _ = ls := congrArg Prod.fst (Option.some.inj (hls.symm.trans hls'))
  obtain ⟨ms', hms', heq⟩ := hspace _ (.block ['c']) _ rfl rfl hbare
  exact ⟨_, .block ['c'], _, ms, ms', hls, rfl, hbare, hms, hms', heq⟩

/-- A method with a comment in front of the brackets of a type. -/
def bracketText : String :=
  "method void f(int/*c*/[] a) \x7b return; \x7d"

set_option maxRecDepth 20000 in
theorem parse_comment_in_type : ∃ before c after ms ms',
    lexemes bracketText.toList = some (before ++ .blank c :: after, []) ∧ c.isSpace = false ∧
      parse bracketText = .ok ms ∧
      parse (String.ofList (textOf before ++ ' ' :: textOf after)) = .ok ms' ∧
      ms'.map Method.lineless ≠ ms.map Method.lineless := by
  let a : Var := ⟨"a", .array (.object "int/*c*/")⟩
  let b : Var := ⟨"a", .array (.prim .int)⟩
  let ms : List Method := [⟨"f", [a], .void, [a], [⟨.ret none, 1⟩]⟩]
  let ms' : List Method := [⟨"f", [b], .void, [b], [⟨.ret none, 1⟩]⟩]
  refine ⟨spelled "method void f(int", .block ['c'], spelled "[] a) \x7b return; \x7d", ms, ms', ?_,
    rfl, ?_, ?_, ?_⟩
  · simp only [spelled, bracketText, String.reduceToList]
    rfl
  · simp only [parse, bracketText, String.reduceToList]
    rfl
  · simp only [parse, spelled, String.toList_ofList, String.reduceToList]
    rfl
  · intro h
    have hparams : [[b]] = [[a]] := congrArg (List.map Method.params) h
    exact absurd hparams (by decide)

end Programs

end Source

end MethodFlow
