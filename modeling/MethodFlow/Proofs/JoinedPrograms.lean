import MethodFlow.Proofs.SeamedPrograms

/-!
Programs on either side of a line break make one program: the methods of the first, and the methods
of the second further down.
-/

namespace MethodFlow.Source

open Attempt Reader

section Positions

variable {p p' : Pos} {n : Nat}

/-- The position in the same column of a line further down. -/
def Pos.down (n : Nat) (p : Pos) : Pos :=
  ⟨p.line + n, p.column⟩

theorem Pos.down_after (cs : List Char) : (p.down n).after cs = (p.after cs).down n := by
  induction cs generalizing p with
  | nil => rfl
  | cons c cs ih =>
    have hnext : (p.down n).next c = (p.next c).down n := by
      unfold Pos.next
      split
      · exact congrArg (Pos.mk · 1) (Nat.add_right_comm p.line n 1)
      · rfl
    exact (congrArg (Pos.after · cs) hnext).trans ih

theorem Pos.line_after (cs : List Char) : (p.after cs).line = p.line + cs.count '\n' := by
  induction cs generalizing p with
  | nil => rfl
  | cons c cs ih =>
    refine (ih (p := p.next c)).trans ?_
    unfold Pos.next
    by_cases hc : c = '\n'
    · rw [if_pos hc, hc, List.count_cons_self]
      exact Nat.add_right_comm p.line 1 _
    · rw [if_neg hc, List.count_cons_of_ne hc]

/-- What is behind a line break begins at the start of a line. -/
theorem Pos.after_break (cs : List Char) :
    Pos.start.after (cs ++ ['\n']) = Pos.start.down (1 + cs.count '\n') := by
  have hline := Pos.line_after (p := Pos.start) cs
  rw [Pos.after_append]
  exact congrArg (Pos.mk · 1) (by rw [hline, Pos.start]; omega)

/-- Methods further down mean the same, on lines further down. -/
theorem meanings_down (p : Pos) (n : Nat) (ds : List MethodDecl) :
    Likewise (List.Forall₂ (Method.Like fun l l' => l + n = l')) (meanings p ds).check
      (meanings (p.down n) ds).check := by
  let below : Pos → Pos → Prop := fun p p' => p' = p.down n
  have hbelow : ∀ p p' cs, below p p' → below (p.after cs) (p'.after cs) := by
    rintro p _ cs rfl
    exact Pos.down_after cs
  refine meanings_likewise below rfl (List.forall₂_same.mpr fun d _ p p' hp => ?_)
  refine ⟨?_, hbelow _ _ _ hp⟩
  refine MethodDecl.Like.meaning ?_ (MethodDecl.like_refl hbelow d) (hbelow _ _ _ (hbelow _ _ _ hp))
  rintro p _ rfl
  exact (Nat.cast_add p.line n).symm

theorem meanings_append {as bs : List MethodDecl} : (meanings p (as ++ bs)).check =
    ((meanings p as).check >>= fun ms =>
      (meanings (p.after (as.flatMap MethodDecl.text)) bs).check >>= fun ns =>
        pure (ms ++ ns)) := by
  induction as generalizing p with
  | nil =>
    have hnil : (meanings p []).check = .ok [] := rfl
    rw [hnil, Attempt.ok_bind]
    exact (bind_pure _).symm
  | cons d as ih =>
    rw [List.cons_append, meanings_cons, meanings_cons, ih, List.flatMap_cons, Pos.after_append]
    simp only [bind_assoc, pure_bind, List.cons_append]

end Positions

section Texts

variable {cs v w r r' z y : List Char} {g g' : Gap} {d : MethodDecl} {ds bs : List MethodDecl}

/-- Whether the lexemes in front of a text can stand in front of another one. -/
def AdmitsFor (r r' : List Char) : Prop :=
  ∀ l : Lexeme, l.Admits r.head? → l.Admits r'.head?

theorem admitsFor_nil (r : List Char) : AdmitsFor r [] := by
  intro l _
  cases l with
  | string ps => exact trivial
  | char d => exact fun _ => ⟨nofun, nofun⟩
  | blank b => cases b <;> first | trivial | exact nofun

theorem admitsFor_append (r : List Char) (hy : y.head? = some '\n') : AdmitsFor r (r ++ y) := by
  intro l hl
  cases r with
  | cons c r => exact hl
  | nil =>
    rw [List.nil_append, hy]
    cases l with
    | string ps => exact trivial
    | char d => exact fun _ => ⟨by decide, by decide⟩
    | blank b =>
      cases b with
      | line x => exact fun c hc => (Option.some.inj hc).symm
      | space d => exact trivial
      | block x => exact trivial

/-- A gap is read in front of another text, where it may go on. -/
theorem gap_retarget (h : gap v = some (g, r)) (hadmits : AdmitsFor r r')
    (hr : gap r' = some (g', z)) : gap (g.text ++ r') = some (g ++ g', z) := by
  have hretarget := (scans_gap ((many_eq_some consumes_blank).mp h)).retarget hadmits
  rw [textOf_gap] at hretarget
  exact gap_of_blanks hretarget hr

theorem text_of_gap (h : gap v = some (g, r)) : v = g.text ++ r := by
  have htext := spells_gap.text h
  rwa [spelling_gap, spelling_nil, List.append_nil] at htext

/-- The gap at the end of a text goes on in the text behind it. -/
theorem gap_append (h : gap v = some (g, r)) (hy : y.head? = some '\n')
    (hr : gap (r ++ y) = some (g', z)) : gap (v ++ y) = some (g ++ g', z) := by
  have hretarget := gap_retarget h (admitsFor_append r hy) hr
  rwa [← List.append_assoc, ← text_of_gap h] at hretarget

/-- Up to its closing brace, a method is read whatever is behind the brace. -/
theorem methodFront_retarget (h : methodFront cs = some (d, '\x7d' :: v)) (w : List Char) :
    ∃ d', methodFront (d.inner ++ '\x7d' :: w) = some (d', '\x7d' :: w) ∧ d'.inner = d.inner ∧
      ∀ p, Likewise (Method.Like Eq) (d.meaning p) (d'.meaning p) := by
  let ls := lexemesOf d.innerTokens
  have hls : Scans cs ls ('\x7d' :: v) := spells_methodFront.scans h
  let k := Seam.brace ls v w
  have hls' : Scans (d.inner ++ '\x7d' :: w) ls k.right := by
    rw [← d.spelling_innerTokens]
    exact hls.retarget fun l hl => hl
  rcases tracks_methodFront cs _ (.ahead (k := k) (List.suffix_refl ls) hls hls') with
    (⟨hnone, -⟩ | ⟨_, d', _, r', hread, hread', ⟨hinner, hmeaning⟩, -⟩) | ⟨-, _, _, hread, hlt⟩
  · cases h.symm.trans hnone
  · cases h.symm.trans hread
    have hinner := hinner rfl
    have hcs' := spells_methodFront.text hread'
    rw [d'.spelling_innerTokens, ← hinner, List.append_cancel_left_eq] at hcs'
    subst hcs'
    refine ⟨d', hread', hinner.symm, fun p => ?_⟩
    exact (hmeaning p p fun _ => rfl).mono fun m m' hm => hm.mono fun _ _ hl => hl rfl
  · cases h.symm.trans hread
    cases Nat.lt_irrefl _ hlt

/-- A method is read in front of another text, but the gap behind it may go on there. -/
theorem methodDecl_retarget (h : methodDecl cs = some (d, r)) (hadmits : AdmitsFor r r')
    (hr : gap r' = some (g, z)) :
    ∃ d', methodDecl (d.text ++ r') = some (d', z) ∧ d'.text = d.text ++ g.text ∧
      ∀ p, Likewise (Method.Like Eq) (d.meaning p) (d'.meaning p) := by
  rw [methodDecl_eq] at h ⊢
  obtain ⟨d, w, hfront, h⟩ := bind_eq_some.mp h
  obtain ⟨_, v, hclose, h⟩ := bind_eq_some.mp h
  obtain ⟨trail, _, hgap, h⟩ := bind_eq_some.mp h
  cases h
  cases exactly_eq_some.mp hclose
  obtain ⟨d', hfront', hinner, hmeaning⟩ := methodFront_retarget hfront (trail.text ++ r')
  have htext : ({ d with trail := trail } : MethodDecl).text ++ r' =
      d.inner ++ '\x7d' :: (trail.text ++ r') := by
    rw [MethodDecl.text_eq, List.append_assoc]
    rfl
  refine ⟨{ d' with trail := trail ++ g }, ?_, ?_, hmeaning⟩
  · rw [htext]
    refine bind_of hfront' (bind_of (exactly_append "\x7d" _) ?_)
    exact bind_of (gap_retarget hgap hadmits hr) rfl
  · have hinner' : ({ d' with trail := trail ++ g } : MethodDecl).inner =
        ({ d with trail := trail } : MethodDecl).inner := hinner
    rw [MethodDecl.text_eq, MethodDecl.text_eq, hinner', List.append_assoc, List.cons_append]
    exact congrArg (fun t => _ ++ '\x7d' :: t) List.flatMap_append

theorem text_of_methodDecl (h : methodDecl cs = some (d, r)) : cs = d.text ++ r :=
  d.spelling_tokens ▸ spells_methodDecl.text h

/-- A method is read in front of any text, but the gap behind it may go on there. -/
theorem methodDecl_append (h : methodDecl cs = some (d, r)) (hy : y.head? = some '\n')
    (hr : gap (r ++ y) = some (g, z)) :
    ∃ d', methodDecl (cs ++ y) = some (d', z) ∧ d'.text = d.text ++ g.text ∧
      ∀ p, Likewise (Method.Like Eq) (d.meaning p) (d'.meaning p) := by
  have hretarget := methodDecl_retarget h (admitsFor_append r hy) hr
  rwa [← List.append_assoc, ← text_of_methodDecl h] at hretarget

theorem gap_of_methodDecl (h : methodDecl cs = some (d, r)) (y : List Char) :
    gap (cs ++ y) = some ([], cs ++ y) := by
  obtain ⟨_, w, hw, -⟩ := bind_eq_some.mp h
  rw [exactly_eq_some.mp hw]
  exact gap_nil (blank_none rfl)

/-- The methods of a text are read in front of another text, and those of the other one after
them. -/
theorem methods_append (h : Run methodDecl cs ds []) (hy : y.head? = some '\n')
    (hg : gap y = some (g, z)) (hbs : Run methodDecl z bs []) :
    ∃ (g' : Gap) (z' : List Char) (ds' : List MethodDecl), gap (cs ++ y) = some (g', z') ∧
      Run methodDecl z' (ds' ++ bs) [] ∧
      g'.text ++ ds'.flatMap MethodDecl.text = cs ++ g.text ∧
      ∀ p, Likewise (List.Forall₂ (Method.Like Eq)) (meanings p ds).check
        (meanings (p.after g'.text) ds').check := by
  generalize hrest : [] = rest at h
  induction h with
  | stop =>
    subst hrest
    exact ⟨g, z, [], hg, hbs, List.append_nil _, fun p => likewise_ok .nil⟩
  | @step cs r _ d ds hread _ _ ih =>
    obtain ⟨g', z', ds', hg', hrun, htext, hmeanings⟩ := ih hrest
    obtain ⟨d', hread', htext', hmeaning⟩ := methodDecl_append hread hy hg'
    refine ⟨[], cs ++ y, d' :: ds', gap_of_methodDecl hread y,
      .step hread' (consumes_methodDecl _ _ _ hread') hrun, ?_, fun p => ?_⟩
    · rw [text_of_methodDecl hread, List.flatMap_cons, htext', List.append_assoc, htext,
        List.append_assoc]
      rfl
    · refine meanings_cons_likewise (hmeaning p) ?_
      rw [htext', Pos.after_append]
      exact hmeanings _

end Texts

section Programs

variable {cs cs' : List Char} {x x' : Program} {ms ms' : List Method} {text text' : String}

/-- A program and another one behind a line break are one program. -/
theorem program_append (h : program cs = some (x, [])) (h' : program cs' = some (x', [])) :
    ∃ y ds, program (cs ++ '\n' :: cs') = some (y, []) ∧ y.methods = ds ++ x'.methods ∧
      y.lead.text ++ ds.flatMap MethodDecl.text = cs ++ ['\n'] ++ x'.lead.text ∧
      Likewise (List.Forall₂ (Method.Like Eq))
        (meanings (Pos.start.after x.lead.text) x.methods).check
        (meanings (Pos.start.after y.lead.text) ds).check := by
  obtain ⟨lead, v, hlead, h⟩ := bind_eq_some.mp h
  obtain ⟨ds, _, hds, h⟩ := bind_eq_some.mp h
  cases h
  obtain ⟨lead', v', hlead', h'⟩ := bind_eq_some.mp h'
  obtain ⟨ds', _, hds', h'⟩ := bind_eq_some.mp h'
  cases h'
  have hbreak : gap ('\n' :: cs') = some (.space '\n' :: lead', v') :=
    gap_cons (orElse_some (map_some (satisfying_some rfl))) hlead'
  obtain ⟨g, z, es, hg, hrun, htext, hmeanings⟩ := methods_append
    ((many_eq_some consumes_methodDecl).mp hds) rfl hbreak
    ((many_eq_some consumes_methodDecl).mp hds')
  have hgap : (lead ++ g : Gap).text = lead.text ++ g.text := List.flatMap_append
  refine ⟨⟨lead ++ g, es ++ ds'⟩, es, bind_of (gap_append hlead rfl hg) (bind_of hrun.many rfl),
    rfl, ?_, ?_⟩
  · rw [hgap, text_of_gap hlead, List.append_assoc, htext, List.append_assoc, List.append_assoc]
    rfl
  · rw [hgap, Pos.after_append]
    exact hmeanings _

theorem Program.check_eq_ok : x.meaning.check = .ok ms ↔
    (meanings (Pos.start.after x.lead.text) x.methods).check = .ok ms ∧
      (ms.map Method.name).Nodup := by
  rw [x.check_meaning, bind_eq_ok]
  constructor
  · rintro ⟨ms, hms, h⟩
    split at h
    · cases h
    · rename_i hnone
      cases h
      exact ⟨hms, repeatedMethod?_eq_none.mp hnone⟩
  · rintro ⟨hms, hnodup⟩
    refine ⟨ms, hms, ?_⟩
    rw [repeatedMethod?_eq_none.mpr hnodup]

/-- What two programs mean that make one program. -/
theorem meanings_joined (h : program cs = some (x, [])) (h' : program cs' = some (x', []))
    (hms : x.meaning.check = .ok ms) (hms' : x'.meaning.check = .ok ms') :
    ∃ y, program (cs ++ '\n' :: cs') = some (y, []) ∧
      (meanings (Pos.start.after y.lead.text) y.methods).check =
        .ok (ms ++ ms'.map (Method.mapLines (· + (1 + cs.count '\n' : Nat)))) := by
  obtain ⟨y, ds, hy, hmethods, htext, hmeanings⟩ := program_append h h'
  obtain ⟨ns, hns, hlike⟩ := hmeanings.forth ms (Program.check_eq_ok.mp hms).1
  obtain ⟨ns', hns', hlike'⟩ := (meanings_down _ (1 + cs.count '\n') _).forth ms'
    (Program.check_eq_ok.mp hms').1
  have hsame : ms = ns := by
    have heq := mapLines_eq_of_like (f := id) (g := id) hlike fun _ _ hl => hl
    rwa [Method.mapLines_id, List.map_id, List.map_id] at heq
  have hdown : ms'.map (Method.mapLines (· + (1 + cs.count '\n' : Nat))) = ns' := by
    have heq := mapLines_eq_of_like (g := id) hlike' fun _ _ hl => hl
    rwa [Method.mapLines_id, List.map_id] at heq
  refine ⟨y, hy, ?_⟩
  rw [hmethods, meanings_append, hns, ← Pos.after_append, htext, Pos.after_append, Pos.after_break,
    Pos.down_after, Attempt.ok_bind, hns', hsame, hdown]
  rfl

theorem nodup_names_joined {f : Int → Int} (h : (ms.map Method.name).Nodup)
    (h' : (ms'.map Method.name).Nodup) :
    ((ms ++ ms'.map (Method.mapLines f)).map Method.name).Nodup ↔
      ∀ m ∈ ms, ∀ m' ∈ ms', m.name ≠ m'.name := by
  have hlines : (ms'.map (Method.mapLines f)).map Method.name = ms'.map Method.name :=
    List.map_map
  rw [List.map_append, hlines, List.nodup_append, List.forall_mem_map]
  simp only [h, h', true_and, List.forall_mem_map]

/-- Texts that are accepted make one text that is accepted, unless they share the name of a method:
the methods of both, where those of the second stand on lines further down. -/
theorem parse_joined (h : parse text = .ok ms) (h' : parse text' = .ok ms') :
    ((∀ m ∈ ms, ∀ m' ∈ ms', m.name ≠ m'.name) → parse (text ++ "\n" ++ text') =
      .ok (ms ++ ms'.map (Method.mapLines (· + (1 + text.toList.count '\n' : Nat))))) ∧
    ((∃ m ∈ ms, ∃ m' ∈ ms', m.name = m'.name) → ∃ e name, parse (text ++ "\n" ++ text') = .error e ∧
      e.cause = .methodTwice name ∧ e.cause.severity = .meaningless) := by
  obtain ⟨x, hx, hms⟩ := program_of_parse h
  obtain ⟨x', hx', hms'⟩ := program_of_parse h'
  obtain ⟨y, hy, hmeanings⟩ := meanings_joined hx hx' hms hms'
  have htext : (text ++ "\n" ++ text').toList = text.toList ++ '\n' :: text'.toList := by
    simp
  have hnames := nodup_names_joined (f := (· + (1 + text.toList.count '\n' : Nat)))
    (Program.check_eq_ok.mp hms).2 (Program.check_eq_ok.mp hms').2
  rw [parse_of_program (htext ▸ hy)]
  refine ⟨fun hdistinct => Program.check_eq_ok.mpr ⟨hmeanings, hnames.mpr hdistinct⟩, ?_⟩
  rintro ⟨m, hm, m', hm', hname⟩
  rw [y.check_meaning, hmeanings, Attempt.ok_bind]
  split
  · rename_i name _
    exact ⟨_, name, rfl, rfl, rfl⟩
  · rename_i hnone
    exact absurd hname (hnames.mp (repeatedMethod?_eq_none.mp hnone) m hm m' hm')

/-- A method with a comment behind it that goes on to the end of the text. -/
def firstText : String :=
  "method void f() \x7b return; \x7d//c"

def secondText : String :=
  "\nmethod void g() \x7b return; \x7d"

set_option maxRecDepth 20000 in
theorem parse_joined_first_second :
    let f : Method := ⟨"f", [], .void, [], [⟨.ret none, 1⟩]⟩
    let g : Method := ⟨"g", [], .void, [], [⟨.ret none, 2⟩]⟩
    parse firstText = .ok [f] ∧ parse secondText = .ok [g] ∧
      parse (firstText ++ "\n" ++ secondText) = .ok [f, g.mapLines (· + 1)] ∧
      ∃ e name, parse (firstText ++ "\n" ++ firstText) = .error e ∧
        e.cause = .methodTwice name ∧ e.cause.severity = .meaningless := by
  intro f g
  have hf : parse firstText = .ok [f] := by
    simp only [parse, firstText, String.reduceToList]
    rfl
  have hg : parse secondText = .ok [g] := by
    simp only [parse, secondText, String.reduceToList]
    rfl
  have hlines : firstText.toList.count '\n' = 0 := by
    simp only [firstText, String.reduceToList]
    decide
  have hdistinct : ∀ m ∈ [f], ∀ m' ∈ [g], m.name ≠ m'.name := by
    simp [f, g]
  have hjoined := (parse_joined hf hg).1 hdistinct
  rw [hlines] at hjoined
  have hf_mem : f ∈ [f] := List.mem_singleton_self f
  exact ⟨hf, hg, hjoined, (parse_joined hf hf).2 ⟨f, hf_mem, f, hf_mem, rfl⟩⟩

end Programs

end MethodFlow.Source
