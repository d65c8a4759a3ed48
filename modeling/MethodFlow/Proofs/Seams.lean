import MethodFlow.Proofs.SpelledPrograms

/-!
Two texts that part at a seam: one has a comment where the other has a space, or both have a closing
brace and different texts behind it. Readers go through both side by side.
-/

namespace MethodFlow.Source

open Reader

/-- Whether what stands between some lexemes and the rest of a text stands in front of a pair of
brackets with nothing in them, or inside of one. Such brackets are parts of types only. -/
def InBrackets (ls : List Lexeme) (rest : List Char) : Prop :=
  (∃ x, brackets rest = some x) ∨
    (∃ (ks : List Lexeme) (g : Gap), ls = ks ++ .char '[' :: g.map .blank) ∧
      ∃ g r, gap rest = some (g, ']' :: r)

/-- Where two texts part, behind the same lexemes. Behind a comment they are the same again. -/
inductive Seam
  | comment (before : List Lexeme) (c : Blank) (rest : List Char)
      (hread : blank (c.text ++ rest) = some (c, rest)) (hcomment : c.isSpace = false)
      (hbare : ¬ InBrackets before rest)
  | brace (before : List Lexeme) (r r' : List Char)

namespace Seam

def before : Seam → List Lexeme
  | comment ls _ _ _ _ _ => ls
  | brace ls _ _ => ls

def left : Seam → List Char
  | comment _ c rest _ _ _ => c.text ++ rest
  | brace _ r _ => '\x7d' :: r

def right : Seam → List Char
  | comment _ _ rest _ _ _ => ' ' :: rest
  | brace _ _ r' => '\x7d' :: r'

/-- What two texts have in common behind the seam. -/
def behind : Seam → List Char
  | comment _ _ rest _ _ _ => rest
  | brace _ _ _ => []

def isBrace : Seam → Bool
  | comment .. => false
  | brace .. => true

theorem not_inBrackets {k : Seam} (hk : k.isBrace = false) : ¬ InBrackets k.before k.behind := by
  cases k with
  | comment ls c rest hread hcomment hbare => exact hbare
  | brace ls r r' => cases hk

end Seam

/-- Whether a character is a lexeme of its own and begins no seam. -/
def isInner (c : Char) : Bool :=
  isLone c && c != '\x7d'

/-- Texts that come to a seam behind the same lexemes, or that are the same behind it. -/
inductive Near (k : Seam) : List Char → List Char → Prop
  | ahead {ls : List Lexeme} {cs cs' : List Char} (hls : ls <:+ k.before)
      (h : Scans cs ls k.left) (h' : Scans cs' ls k.right) : Near k cs cs'
  | behind (hk : k.isBrace = false) (cs : List Char) : Near k cs cs

section Texts

variable {k : Seam} {cs cs' r : List Char} {c : Char}

theorem isLone_of_isInner (h : isInner c = true) : isLone c = true :=
  (Bool.and_eq_true_iff.mp h).1

theorem Blank.text_of_isSpace {b : Blank} (h : b.isSpace = false) : ∃ z, b.text = '/' :: z := by
  cases b with
  | space c => cases h
  | line x => exact ⟨_, rfl⟩
  | block x => exact ⟨_, rfl⟩

/-- The characters at a seam begin no lexeme of a single character. -/
theorem Seam.heads (k : Seam) : ∃ c r c' r', k.left = c :: r ∧ k.right = c' :: r' ∧
    (isInner c = false ∧ c ≠ '"' ∧ Text.isWordChar c = false) ∧
      isInner c' = false ∧ c' ≠ '"' ∧ Text.isWordChar c' = false := by
  cases k with
  | comment ls b rest _ hcomment _ =>
    obtain ⟨z, hz⟩ := Blank.text_of_isSpace hcomment
    refine ⟨'/', z ++ rest, ' ', rest, ?_, rfl, by decide +kernel, by decide +kernel⟩
    rw [left, hz]
    rfl
  | brace ls r r' => exact ⟨'\x7d', r, '\x7d', r', rfl, rfl, by decide +kernel, by decide +kernel⟩

/-- What two such texts begin with. -/
theorem Near.start (h : Near k cs cs') : k.isBrace = false ∧ cs = cs' ∨
    cs = k.left ∧ cs' = k.right ∨
      ∃ l r r', lexeme cs = some (l, r) ∧ lexeme cs' = some (l, r') ∧ Near k r r' := by
  cases h with
  | behind hk => exact .inl ⟨hk, rfl⟩
  | @ahead ls _ _ hls h h' =>
    cases h with
    | nil =>
      cases h'
      exact .inr (.inl ⟨rfl, rfl⟩)
    | cons hl hr =>
      cases h' with
      | cons hl' hr' =>
        exact .inr (.inr ⟨_, _, _, hl, hl', .ahead ((List.suffix_cons _ _).trans hls) hr hr'⟩)

/-- Whether a text begins with a character that is a lexeme of its own. -/
def startsInner (cs : List Char) : Bool :=
  cs.head?.any isInner

/-- Either both texts begin with the same lexeme of a single character, or neither does. -/
theorem Near.inner (h : Near k cs cs') :
    (∃ c r r', isInner c = true ∧ cs = c :: r ∧ cs' = c :: r' ∧ Near k r r') ∨
      startsInner cs = false ∧ startsInner cs' = false := by
  rcases h.start with ⟨hk, rfl⟩ | ⟨rfl, rfl⟩ | ⟨l, r, r', hl, hl', hr⟩
  · cases cs with
    | nil => exact .inr ⟨rfl, rfl⟩
    | cons c r =>
      by_cases hc : isInner c = true
      · exact .inl ⟨c, r, r, hc, rfl, rfl, .behind hk r⟩
      · exact .inr ⟨Bool.eq_false_iff.mpr hc, Bool.eq_false_iff.mpr hc⟩
  · obtain ⟨c, r, c', r', hleft, hright, hc, hc'⟩ := k.heads
    rw [hleft, hright]
    exact .inr ⟨hc.1, hc'.1⟩
  · have htext := (lexeme_eq_some hl).1
    have htext' := (lexeme_eq_some hl').1
    obtain ⟨c, z, hz⟩ := List.exists_cons_of_ne_nil l.text_ne_nil
    rw [hz, List.cons_append] at htext htext'
    by_cases hc : isInner c = true
    · have hlone : lexeme cs = some (.char c, z ++ r) :=
        htext ▸ lexeme_of_isLone (isLone_of_isInner hc)
      obtain rfl : l = .char c := congrArg Prod.fst (Option.some.inj (hl.symm.trans hlone))
      cases hz
      exact .inl ⟨c, r, r', hc, htext, htext', hr⟩
    · rw [htext, htext']
      exact .inr ⟨Bool.eq_false_iff.mpr hc, Bool.eq_false_iff.mpr hc⟩

end Texts

namespace Reader

variable {α β : Type} {k : Seam} {p p' q q' : Reader α} {f f' : α → Reader β} {g g' : α → β}
  {S S' : α → α → Prop} {T : β → β → Prop} {cs cs' r r' : List Char}

/-- Neither of two readers matches, or they read values that go together and come near again. -/
def Abreast (k : Seam) (S : α → α → Prop) (x x' : Option (α × List Char)) : Prop :=
  x = none ∧ x' = none ∨
    ∃ a a' r r', x = some (a, r) ∧ x' = some (a', r') ∧ S a a' ∧ Near k r r'

/-- Readers that stay side by side on texts that are near each other. -/
def Keeps (k : Seam) (p p' : Reader α) (S : α → α → Prop) : Prop :=
  ∀ cs cs', Near k cs cs' → Abreast k S (p cs) (p' cs')

section Laws

theorem abreast_none : Abreast k S none none :=
  .inl ⟨rfl, rfl⟩

theorem abreast_some {a a' : α} (h : S a a') (hr : Near k r r') :
    Abreast k S (some (a, r)) (some (a', r')) :=
  .inr ⟨a, a', r, r', rfl, rfl, h, hr⟩

theorem Abreast.bind (h : Abreast k S (p cs) (p' cs'))
    (hf : ∀ a a' r r', S a a' → Near k r r' → Abreast k T (f a r) (f' a' r')) :
    Abreast k T ((p >>= f) cs) ((p' >>= f') cs') := by
  rw [bind_apply, bind_apply]
  obtain ⟨h, h'⟩ | ⟨a, a', r, r', h, h', hS, hr⟩ := h
  · rw [h, h']
    exact abreast_none
  · rw [h, h']
    exact hf a a' r r' hS hr

theorem Abreast.mono {x x' : Option (α × List Char)} (h : Abreast k S x x')
    (hS : ∀ a a', S a a' → S' a a') : Abreast k S' x x' := by
  obtain h | ⟨a, a', r, r', h, h', hSa, hr⟩ := h
  · exact .inl h
  · exact .inr ⟨a, a', r, r', h, h', hS a a' hSa, hr⟩

/-- Behind the seam of a comment there is nothing to tell the texts apart by. -/
theorem abreast_behind (hk : k.isBrace = false) (hS : ∀ a, S a a) (x : Option (α × List Char)) :
    Abreast k S x x := by
  cases x with
  | none => exact abreast_none
  | some y => exact abreast_some (hS y.1) (.behind hk y.2)

theorem Keeps.mono (h : Keeps k p p' S) (hS : ∀ a a', S a a' → S' a a') : Keeps k p p' S' :=
  fun cs cs' hcs => (h cs cs' hcs).mono hS

theorem keeps_pure {b b' : β} (h : T b b') : Keeps k (pure b) (pure b') T :=
  fun _ _ hcs => abreast_some h hcs

theorem Keeps.bind (hp : Keeps k p p' S) (hf : ∀ a a', S a a' → Keeps k (f a) (f' a') T) :
    Keeps k (p >>= f) (p' >>= f') T :=
  fun cs cs' hcs => (hp cs cs' hcs).bind fun a a' r r' hS hr => hf a a' hS r r' hr

/-- Readers that read the same value go on alike. -/
theorem Keeps.bindEq (hp : Keeps k p p' Eq) (hf : ∀ a, Keeps k (f a) (f' a) T) :
    Keeps k (p >>= f) (p' >>= f') T :=
  hp.bind fun a _ h => h ▸ hf a

theorem Keeps.map (h : Keeps k p p' fun a a' => T (g a) (g' a')) :
    Keeps k (g <$> p) (g' <$> p') T := by
  intro cs cs' hcs
  rw [map_apply, map_apply]
  obtain ⟨h, h'⟩ | ⟨a, a', r, r', h, h', hT, hr⟩ := h cs cs' hcs
  · rw [h, h']
    exact abreast_none
  · rw [h, h']
    exact abreast_some hT hr

theorem Keeps.orElse (hp : Keeps k p p' S) (hq : Keeps k q q' S) :
    Keeps k (p <|> q) (p' <|> q') S := by
  intro cs cs' hcs
  rw [orElse_apply, orElse_apply]
  obtain ⟨h, h'⟩ | ⟨a, a', r, r', h, h', hS, hr⟩ := hp cs cs' hcs
  · rw [h, h']
    exact hq cs cs' hcs
  · rw [h, h']
    exact abreast_some hS hr

theorem Keeps.optional (h : Keeps k p p' S) :
    Keeps k (optional p) (optional p') (Option.Rel S) :=
  .orElse (.map (h.mono fun _ _ => .some)) (keeps_pure .none)

theorem Keeps.many (h : Keeps k p p S) (hp : Consumes p) :
    Keeps k (many p) (many p) (List.Forall₂ S) := by
  intro cs cs' hcs
  obtain ⟨as, rest, hrun⟩ := hp.exists_run cs
  obtain ⟨as', rest', hrun', hSs, hrest⟩ : ∃ as' rest', Run p cs' as' rest' ∧
      List.Forall₂ S as as' ∧ Near k rest rest' := by
    induction hrun generalizing cs' with
    | @stop cs hnone =>
      obtain ⟨-, hnone'⟩ | ⟨_, _, _, _, hread, _⟩ := h cs cs' hcs
      · exact ⟨[], cs', .stop hnone', .nil, hcs⟩
      · cases hnone.symm.trans hread
    | @step cs r rest a as hread _ _ ih =>
      obtain ⟨hnone, -⟩ | ⟨_, a', _, r', hread₁, hread', hS, hr⟩ := h cs cs' hcs
      · cases hnone.symm.trans hread
      · cases hread.symm.trans hread₁
        obtain ⟨as', rest', hrun', hSs, hrest⟩ := ih r' hr
        exact ⟨a' :: as', rest', .step hread' (hp _ _ _ hread') hrun', .cons hS hSs, hrest⟩
  rw [hrun.many, hrun'.many]
  exact abreast_some hSs hrest

end Laws

section Words

variable {t : Char → Bool} {s : String}

theorem satisfying_none_of_start (ht : ∀ c, t c = true → isInner c = true)
    (h : startsInner cs = false) : satisfying t cs = none := by
  cases cs with
  | nil => rfl
  | cons c r =>
    refine satisfying_none (Bool.eq_false_iff.mpr fun hc => ?_)
    cases (ht c hc).symm.trans h

theorem keeps_satisfying (ht : ∀ c, t c = true → isInner c = true) :
    Keeps k (satisfying t) (satisfying t) Eq := by
  intro cs cs' hcs
  rcases hcs.inner with ⟨c, r, r', _, rfl, rfl, hr⟩ | ⟨hcs, hcs'⟩
  · rw [satisfying_cons, satisfying_cons]
    split
    · exact abreast_some rfl hr
    · exact abreast_none
  · rw [satisfying_none_of_start ht hcs, satisfying_none_of_start ht hcs']
    exact abreast_none

theorem span_eq_many : span t = many (satisfying t) := by
  have hrun : ∀ cs, Run (satisfying t) cs (cs.takeWhile t) (cs.dropWhile t) := by
    intro cs
    induction cs with
    | nil => exact .stop rfl
    | cons c r ih =>
      by_cases hc : t c = true
      · rw [List.takeWhile_cons_of_pos hc, List.dropWhile_cons_of_pos hc]
        exact .step (satisfying_some hc) (Nat.lt_succ_self _) ih
      · rw [List.takeWhile_cons_of_neg hc, List.dropWhile_cons_of_neg hc]
        exact .stop (satisfying_none (Bool.eq_false_iff.mpr hc))
  funext cs
  exact (hrun cs).many.symm

theorem consumes_satisfying : Consumes (satisfying t) := by
  intro cs c r h
  rw [(satisfying_eq_some.mp h).1]
  exact Nat.lt_succ_self _

theorem keeps_span (ht : ∀ c, t c = true → isInner c = true) : Keeps k (span t) (span t) Eq := by
  rw [span_eq_many]
  refine ((keeps_satisfying ht).many consumes_satisfying).mono fun _ _ h => ?_
  rwa [List.forall₂_eq_eq_eq] at h

theorem keeps_span1 (ht : ∀ c, t c = true → isInner c = true) :
    Keeps k (span1 t) (span1 t) Eq :=
  (keeps_satisfying ht).bindEq fun _ => (keeps_span ht).bindEq fun _ => keeps_pure rfl

theorem keeps_after? {x : List Char} (hx : ∀ c ∈ x, isInner c = true) (hcs : Near k cs cs') :
    Abreast k Eq ((after? x cs).map ((), ·)) ((after? x cs').map ((), ·)) := by
  induction x generalizing cs cs' with
  | nil => exact abreast_some rfl hcs
  | cons c x ih =>
    obtain ⟨hc, hx⟩ := List.forall_mem_cons.mp hx
    rcases hcs.inner with ⟨d, r, r', _, rfl, rfl, hr⟩ | ⟨hcs, hcs'⟩
    · rw [after?, after?]
      split
      · exact ih hx hr
      · exact abreast_none
    · have hnone : ∀ cs, startsInner cs = false → after? (c :: x) cs = none := by
        intro cs hcs
        cases cs with
        | nil => rfl
        | cons d r =>
          rw [after?, if_neg]
          rintro rfl
          cases hc.symm.trans hcs
      rw [hnone cs hcs, hnone cs' hcs']
      exact abreast_none

theorem keeps_exactly (hs : s.toList.all isInner = true) :
    Keeps k (exactly s) (exactly s) Eq :=
  fun _ _ hcs => keeps_after? (List.all_eq_true.mp hs) hcs

/-- A mark between other things. -/
theorem keeps_mark {f f' : Unit → Reader β} (hs : s.toList.all isInner = true)
    (hf : Keeps k (f ()) (f' ()) T) : Keeps k (exactly s >>= f) (exactly s >>= f') T :=
  (keeps_exactly hs).bindEq fun _ => hf

theorem endsWord_of_near (h : Near k cs cs') : endsWord cs = endsWord cs' := by
  rcases h.start with ⟨_, rfl⟩ | ⟨rfl, rfl⟩ | ⟨l, r, r', hl, hl', _⟩
  · rfl
  · obtain ⟨c, r, c', r', hleft, hright, ⟨_, _, hc⟩, _, _, hc'⟩ := k.heads
    rw [hleft, hright, endsWord, endsWord, hc, hc']
  · obtain ⟨c, z, hz⟩ := List.exists_cons_of_ne_nil l.text_ne_nil
    rw [(lexeme_eq_some hl).1, (lexeme_eq_some hl').1, hz]
    rfl

theorem keeps_ahead {test : List Char → Bool}
    (h : ∀ cs cs', Near k cs cs' → test cs = test cs') :
    Keeps k (ahead test) (ahead test) Eq := by
  intro cs cs' hcs
  rw [ahead, ahead, h cs cs' hcs]
  split
  · exact abreast_some rfl hcs
  · exact abreast_none

theorem isInner_of_isTypeChar {c : Char} (h : isTypeChar c = true) : isInner c = true := by
  have hbrace : c ≠ '\x7d' := by
    rintro rfl
    cases h
  rw [isInner, isLone_of_isTypeChar h]
  exact bne_iff_ne.mpr hbrace

theorem isInner_of_isNameChar {c : Char} (h : isNameChar c = true) : isInner c = true :=
  isInner_of_isTypeChar (isTypeChar_of_isNameChar h)

theorem afterKeyword?_of_near (h : Near k cs cs') :
    (afterKeyword? cs).isNone = (afterKeyword? cs').isNone := by
  unfold afterKeyword?
  rw [Bool.eq_iff_iff, Option.isNone_iff_eq_none, Option.isNone_iff_eq_none,
    List.findSome?_eq_none_iff, List.findSome?_eq_none_iff]
  refine forall₂_congr fun w hw => ?_
  have hchars := List.all_eq_true.mp (isNameChar_of_mem_keyword hw)
  obtain ⟨hnone, hnone'⟩ | ⟨_, _, r, r', hr, hr', -, hnear⟩ :=
    keeps_after? (fun c hc => isInner_of_isNameChar (hchars c hc)) h
  · rw [Option.map_eq_none_iff.mp hnone, Option.map_eq_none_iff.mp hnone']
  · obtain ⟨_, hz, hr⟩ := Option.map_eq_some_iff.mp hr
    obtain ⟨_, hz', hr'⟩ := Option.map_eq_some_iff.mp hr'
    cases hr
    cases hr'
    rw [hz, hz', Option.filter_eq_none_iff, Option.filter_eq_none_iff]
    simp [endsWord_of_near hnear]

theorem keeps_wordOf (ht : ∀ c, t c = true → isInner c = true) :
    Keeps k (wordOf t) (wordOf t) Eq := by
  refine (keeps_ahead fun _ _ h => afterKeyword?_of_near h).bindEq fun _ => ?_
  have hstart : ∀ c, isNameStart c = true → isInner c = true := fun c hc =>
    isInner_of_isNameChar (isNameChar_of_isNameStart hc)
  exact (keeps_satisfying hstart).bindEq fun _ => (keeps_span ht).bindEq fun _ => keeps_pure rfl

theorem keeps_name : Keeps k name name Eq :=
  keeps_wordOf fun _ => isInner_of_isNameChar

end Words

section Gaps

theorem keeps_stringLiteral : Keeps k stringLiteral stringLiteral Eq := by
  intro cs cs' hcs
  rcases hcs.start with ⟨hk, rfl⟩ | ⟨rfl, rfl⟩ | ⟨l, r, r', hl, hl', hr⟩
  · exact abreast_behind hk (fun _ => rfl) _
  · obtain ⟨c, r, c', r', hleft, hright, ⟨_, hc, _⟩, _, hc', _⟩ := k.heads
    rw [hleft, hright, stringLiteral_none hc, stringLiteral_none hc']
    exact abreast_none
  · by_cases hstring : ∃ ps, l = .string ps
    · obtain ⟨ps, rfl⟩ := hstring
      rw [string_of_lexeme hl, string_of_lexeme hl']
      exact abreast_some rfl hr
    · have hnone : ∀ {cs r}, lexeme cs = some (l, r) → stringLiteral cs = none := by
        intro cs r hl
        rw [Option.eq_none_iff_forall_ne_some]
        intro y hy
        have hl₁ : lexeme cs = some (.string y.1, y.2) := lexeme_of_string hy
        cases hl.symm.trans hl₁
        exact hstring ⟨_, rfl⟩
      rw [hnone hl, hnone hl']
      exact abreast_none

theorem blank_none_of_lexeme {l : Lexeme} (hl : lexeme cs = some (l, r))
    (hblank : ∀ b, l ≠ .blank b) : blank cs = none := by
  rw [Option.eq_none_iff_forall_ne_some]
  intro y hy
  have hl₁ : lexeme cs = some (.blank y.1, y.2) := lexeme_of_blank hy
  cases hl.symm.trans hl₁
  exact hblank _ rfl

theorem keeps_blank : Keeps k blank blank fun _ _ => True := by
  intro cs cs' hcs
  rcases hcs.start with ⟨hk, rfl⟩ | ⟨rfl, rfl⟩ | ⟨l, r, r', hl, hl', hr⟩
  · exact abreast_behind hk (fun _ => trivial) _
  · cases k with
    | comment ls c rest hread hcomment hbare =>
      exact .inr ⟨c, .space ' ', rest, rest, hread, blank_space, trivial, .behind rfl rest⟩
    | brace ls r r' => exact .inl ⟨blank_none rfl, blank_none rfl⟩
  · by_cases hblank : ∃ b, l = .blank b
    · obtain ⟨b, rfl⟩ := hblank
      rw [blank_of_lexeme hl, blank_of_lexeme hl']
      exact abreast_some trivial hr
    · have hnot : ∀ b, l ≠ .blank b := fun b hb => hblank ⟨b, hb⟩
      exact .inl ⟨blank_none_of_lexeme hl hnot, blank_none_of_lexeme hl' hnot⟩

theorem keeps_gap : Keeps k gap gap fun _ _ => True :=
  (keeps_blank.many consumes_blank).mono fun _ _ _ => trivial

/-- A gap between other things. -/
theorem keeps_past_gap {f f' : Gap → Reader β} (hf : ∀ g g', Keeps k (f g) (f' g') T) :
    Keeps k (gap >>= f) (gap >>= f') T :=
  keeps_gap.bind fun g g' _ => hf g g'

theorem keeps_gap1 : Keeps k gap1 gap1 fun _ _ => True :=
  keeps_blank.bind fun _ _ _ => keeps_gap.bind fun _ _ _ => keeps_pure trivial

theorem keeps_past_gap1 {f f' : Gap → Reader β} (hf : ∀ g g', Keeps k (f g) (f' g') T) :
    Keeps k (gap1 >>= f) (gap1 >>= f') T :=
  keeps_gap1.bind fun g g' _ => hf g g'

end Gaps

section Brackets

variable {g : Gap} {ls : List Lexeme}

theorem gap_cons {b : Blank} {rest : List Char} (h : blank cs = some (b, r))
    (hr : gap r = some (g, rest)) : gap cs = some (b :: g, rest) :=
  (Run.step h (consumes_blank _ _ _ h) ((many_eq_some consumes_blank).mp hr)).many

/-- A gap goes on in what is behind the blanks that it begins with. -/
theorem gap_of_blanks {g' : Gap} {rest : List Char} (h : Scans cs (g.map .blank) r)
    (hr : gap r = some (g', rest)) : gap cs = some (g ++ g', rest) := by
  induction g generalizing cs with
  | nil =>
    cases h
    exact hr
  | cons b g ih =>
    cases h with
    | cons hl h => exact gap_cons (blank_of_lexeme hl) (ih h)

/-- A gap ends in front of the seam, or it contains the seam and ends behind it. -/
theorem gap_of_scans (h : Scans cs ls k.left) (h' : Scans cs' ls k.right) :
    (∃ (g : Gap) (ks : List Lexeme) (r r' : List Char), ls = g.map .blank ++ ks ∧
      gap cs = some (g, r) ∧ gap cs' = some (g, r') ∧ Scans r ks k.left ∧ Scans r' ks k.right) ∨
    k.isBrace = false ∧ ∃ (g i i' j : Gap) (r : List Char), ls = g.map .blank ∧
      gap cs = some (i, r) ∧ gap cs' = some (i', r) ∧ gap k.behind = some (j, r) := by
  induction ls generalizing cs cs' with
  | nil =>
    cases h
    cases h'
    -- a brace ends the gap, but a comment is part of it, and so is the space in its place
    cases k with
    | brace ls r r' =>
      exact .inl ⟨[], [], _, _, rfl, gap_nil (blank_none rfl), gap_nil (blank_none rfl), .nil _,
        .nil _⟩
    | comment ls c rest hread hcomment hbare =>
      obtain ⟨j, r, hrun⟩ := consumes_blank.exists_run rest
      exact .inr ⟨rfl, [], c :: j, .space ' ' :: j, j, r, rfl, gap_cons hread hrun.many,
        gap_cons blank_space hrun.many, hrun.many⟩
  | cons l ls ih =>
    obtain ⟨_, hl, hr⟩ : ∃ r, lexeme cs = some (l, r) ∧ Scans r ls k.left := by
      cases h with
      | cons hl hr => exact ⟨_, hl, hr⟩
    obtain ⟨_, hl', hr'⟩ : ∃ r, lexeme cs' = some (l, r) ∧ Scans r ls k.right := by
      cases h' with
      | cons hl hr => exact ⟨_, hl, hr⟩
    by_cases hblank : ∃ b, l = .blank b
    · obtain ⟨b, rfl⟩ := hblank
      rcases ih hr hr' with ⟨g, ks, r, r', rfl, hg, hg', hks, hks'⟩ |
        ⟨hk, g, i, i', j, r, rfl, hi, hi', hj⟩
      · exact .inl ⟨b :: g, ks, r, r', rfl, gap_cons (blank_of_lexeme hl) hg,
          gap_cons (blank_of_lexeme hl') hg', hks, hks'⟩
      · exact .inr ⟨hk, b :: g, b :: i, b :: i', j, r, rfl, gap_cons (blank_of_lexeme hl) hi,
          gap_cons (blank_of_lexeme hl') hi', hj⟩
    · have hnot : ∀ b, l ≠ .blank b := fun b hb => hblank ⟨b, hb⟩
      exact .inl ⟨[], l :: ls, cs, cs', rfl, gap_nil (blank_none_of_lexeme hl hnot),
        gap_nil (blank_none_of_lexeme hl' hnot), h, h'⟩

/-- A pair of brackets with a gap in it. -/
def emptyPair : Reader Gap := do
  exactly "["
  let inside ← gap
  exactly "]"
  return inside

theorem brackets_eq : brackets = do
    let before ← gap
    let inside ← emptyPair
    return ⟨before, inside⟩ := by
  simp only [brackets, emptyPair, bind_assoc, pure_bind]

theorem scans_of_inner {c : Char} {rest : List Char} (hc : isInner c = true)
    (hrest : startsInner rest = false) (h : Scans (c :: r) ls rest) :
    ∃ ks, ls = .char c :: ks ∧ Scans r ks rest := by
  cases h with
  | nil => cases hc.symm.trans hrest
  | cons hl hr =>
    cases (lexeme_of_isLone (isLone_of_isInner hc)).symm.trans hl
    exact ⟨_, rfl, hr⟩

theorem startsInner_seam (k : Seam) :
    startsInner k.left = false ∧ startsInner k.right = false := by
  obtain ⟨c, r, c', r', hleft, hright, hc, hc'⟩ := k.heads
  rw [hleft, hright]
  exact ⟨hc.1, hc'.1⟩

/-- A pair of brackets ends in front of the seam, or it would have the seam in it. -/
theorem abreast_emptyPair {ks : List Lexeme} (hls : g.map .blank ++ ks <:+ k.before)
    (h : Scans cs ks k.left) (h' : Scans cs' ks k.right) :
    Abreast k Eq (emptyPair cs) (emptyPair cs') := by
  have hnear : Near k cs cs' := .ahead ((List.suffix_append _ _).trans hls) h h'
  obtain ⟨hnone, hnone'⟩ | ⟨_, _, r, r', hr, hr', -, -⟩ :=
    keeps_exactly (s := "[") rfl cs cs' hnear
  · exact .inl ⟨bind_none hnone, bind_none hnone'⟩
  obtain rfl : cs = '[' :: r := exactly_eq_some.mp hr
  obtain rfl : cs' = '[' :: r' := exactly_eq_some.mp hr'
  obtain ⟨ks, rfl, hks⟩ := scans_of_inner rfl (startsInner_seam k).1 h
  obtain ⟨_, heq, hks'⟩ := scans_of_inner rfl (startsInner_seam k).2 h'
  cases heq
  have hopen : ∀ z, emptyPair ('[' :: z) =
      (gap >>= fun inside => exactly "]" >>= fun _ => pure inside : Reader Gap) z :=
    fun z => bind_of (exactly_append "[" z) rfl
  rw [hopen, hopen]
  rcases gap_of_scans hks hks' with ⟨i, ms, z, z', rfl, hi, hi', hms, hms'⟩ |
    ⟨hk, i, j, j', m, z, rfl, hj, hj', hm⟩
  · rw [bind_apply, bind_apply, hi, hi']
    have hsuffix : ms <:+ k.before := by
      refine List.IsSuffix.trans ⟨g.map .blank ++ .char '[' :: i.map .blank, ?_⟩ hls
      rw [List.append_assoc, List.cons_append]
    have hclose : Keeps k (exactly "]" >>= fun _ => (pure i : Reader Gap))
        (exactly "]" >>= fun _ => pure i) Eq := keeps_mark rfl (keeps_pure rfl)
    exact hclose z z' (.ahead hsuffix hms hms')
  · -- the gap has the comment in it, so a closing bracket behind it would make the pair empty
    have hnone : exactly "]" z = none := by
      rw [Option.eq_none_iff_forall_ne_some]
      intro x hx
      obtain rfl : z = ']' :: x.2 := exactly_eq_some.mp hx
      obtain ⟨ls, hls⟩ := hls
      refine Seam.not_inBrackets hk (.inr ⟨⟨ls ++ g.map .blank, i, ?_⟩, m, x.2, hm⟩)
      rw [← hls, List.append_assoc]
    exact .inl ⟨bind_of hj (bind_none hnone), bind_of hj' (bind_none hnone)⟩

theorem keeps_brackets : Keeps k brackets brackets Eq := by
  intro cs cs' hcs
  cases hcs with
  | behind hk => exact abreast_behind hk (fun _ => rfl) _
  | ahead hls h h' =>
    rw [brackets_eq]
    rcases gap_of_scans h h' with ⟨g, ks, r, r', rfl, hg, hg', hks, hks'⟩ |
      ⟨hk, g, i, i', j, r, rfl, hi, hi', hj⟩
    · rw [bind_apply, bind_apply, hg, hg']
      refine (abreast_emptyPair hls hks hks').bind fun a a' r r' ha hr => ?_
      subst ha
      exact abreast_some rfl hr
    · have hnone : emptyPair r = none := by
        rw [Option.eq_none_iff_forall_ne_some]
        intro x hx
        refine Seam.not_inBrackets hk (.inl ⟨(⟨j, x.1⟩, x.2), ?_⟩)
        rw [brackets_eq]
        exact bind_of hj (bind_of hx rfl)
      exact .inl ⟨bind_of hi (bind_none hnone), bind_of hi' (bind_none hnone)⟩

end Brackets

end Reader

end MethodFlow.Source
