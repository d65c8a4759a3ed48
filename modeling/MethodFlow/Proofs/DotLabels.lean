import MethodFlow.Proofs.DotStrings
import MethodFlow.Proofs.RoundTrip
import MethodFlow.Proofs.SafePipeline
import MethodFlow.Proofs.WrittenGraphs

/-!
Labels of graphs in the DOT language: the label of a node is read back from its line exactly when no
string literal of the statement holds a backslash or a quotation mark. Printing the statement puts a
backslash before these, and the label is written with that backslash as it is.
-/

namespace MethodFlow

open Source

namespace Expr

mutual

/-- The texts of the string literals in an expression. -/
def strings : Expr → List String
  | str x => [x]
  | var _ | int _ | null | new _ | static _ _ => []
  | bin _ a b => a.strings ++ b.strings
  | neg e => e.strings
  | newArray _ n => n.strings
  | cast _ e => e.strings
  | field b _ => b.strings
  | element b i => b.strings ++ i.strings
  | call _ _ args => stringsOfAll args

def stringsOfAll : List Expr → List String
  | [] => []
  | e :: r => e.strings ++ stringsOfAll r

end

theorem stringsOfAll_eq_flatMap (es : List Expr) : stringsOfAll es = es.flatMap strings := by
  induction es with
  | nil => rfl
  | cons e es ih => rw [stringsOfAll, ih, List.flatMap_cons]

end Expr

/-- The texts of the string literals in a statement. -/
def Instr.strings {τ : Type} : Instr τ → List String
  | assign q e => q.toExpr.strings ++ e.strings
  | call q e => q.elim [] (fun q => q.toExpr.strings) ++ e.strings
  | branch c _ => c.strings
  | ret e => e.elim [] Expr.strings
  | goto _ | switch _ _ _ _ | nop => []

namespace Dot

/-- A text without the characters that are escaped by themselves in a literal. -/
def IsPlain (x : String) : Prop :=
  '\\' ∉ x.toList ∧ '"' ∉ x.toList

def IsClear (t : String) : Prop :=
  '\\' ∉ t.toList

instance (t : String) : Decidable (IsClear t) :=
  inferInstanceAs (Decidable (¬ _))

/-- In front of any text, whether a text is tame hangs on the string literals in it. -/
def Shows (t : String) (xs : List String) : Prop :=
  ∀ r, isTame (t.toList ++ r) = true ↔ (∀ x ∈ xs, IsPlain x) ∧ isTame r = true

section Laws

variable {t t' : String} {xs xs' : List String}

theorem isTame_append_of_notMem {w : List Char} (h : '\\' ∉ w) (r : List Char) :
    isTame (w ++ r) = isTame r := by
  induction w with
  | nil => rfl
  | cons c w ih =>
    rw [List.mem_cons, not_or] at h
    rw [List.cons_append, isTame_cons (Ne.symm h.1), ih h.2]

theorem IsClear.shows (h : IsClear t) : Shows t [] := by
  intro r
  rw [isTame_append_of_notMem h]
  simp

theorem Shows.append (h : Shows t xs) (h' : Shows t' xs') : Shows (t ++ t') (xs ++ xs') := by
  intro r
  rw [String.toList_append, List.append_assoc, h, h', List.forall_mem_append, and_assoc]

theorem Shows.before (h : Shows t xs) (h' : IsClear t') : Shows (t ++ t') xs := by
  have happend := h.append h'.shows
  rwa [List.append_nil] at happend

theorem Shows.behind (h : Shows t xs) (h' : IsClear t') : Shows (t' ++ t) xs :=
  h'.shows.append h

theorem Shows.isTame (h : Shows t xs) : isTame t.toList = true ↔ ∀ x ∈ xs, IsPlain x := by
  have hnil := h []
  rw [List.append_nil] at hnil
  rw [hnil]
  exact and_iff_left rfl

theorem Shows.between {a b : String} (h : Shows t xs) (ha : IsClear a) (hb : IsClear b) :
    Shows (a ++ t ++ b) xs :=
  (h.behind ha).before hb

theorem Shows.intercalate {α : Type} {f : α → String} {g : α → List String} {sep : String}
    (hsep : IsClear sep) {as : List α} (h : ∀ a ∈ as, Shows (f a) (g a)) :
    Shows (sep.intercalate (as.map f)) (as.flatMap g) := by
  induction as with
  | nil => exact IsClear.shows List.not_mem_nil
  | cons a as ih =>
    obtain ⟨ha, has⟩ := List.forall_mem_cons.mp h
    cases as with
    | nil =>
      rw [List.map_singleton, String.intercalate_singleton, List.flatMap_singleton]
      exact ha
    | cons b as =>
      rw [List.map_cons, List.map_cons, String.intercalate_cons_cons, ← List.map_cons,
        List.flatMap_cons]
      exact (ha.before hsep).append (ih has)

theorem IsClear.append (h : IsClear t) (h' : IsClear t') : IsClear (t ++ t') := by
  rw [IsClear, String.toList_append, List.mem_append, not_or]
  exact ⟨h, h'⟩

theorem IsClear.intercalate {sep : String} (hsep : IsClear sep) {ts : List String}
    (h : ∀ t ∈ ts, IsClear t) : IsClear (sep.intercalate ts) := by
  induction ts with
  | nil => exact List.not_mem_nil
  | cons t ts ih =>
    obtain ⟨ht, hts⟩ := List.forall_mem_cons.mp h
    cases ts with
    | nil => rwa [String.intercalate_singleton]
    | cons u ts =>
      rw [String.intercalate_cons_cons]
      exact (ht.append hsep).append (ih hts)

end Laws

section Parts

variable {x : String}

/-- A character of a literal is tame unless it is escaped by itself. -/
theorem isTame_encodeChar (c : Char) (r : List Char) :
    isTame (Text.Escaped.encodeChar c ++ r) = true ↔ (c ≠ '\\' ∧ c ≠ '"') ∧ isTame r = true := by
  unfold Text.Escaped.encodeChar
  split
  · rename_i hc
    have htame : isTame (['\\', c] ++ r) = (c != '\\' && c != '"' && isTame r) := rfl
    rw [htame]
    simp
  · rename_i hc
    rw [not_or] at hc
    refine Iff.trans ?_ (and_iff_right hc).symm
    split
    · rename_i e he
      have hletters : ∀ e ∈ Text.Escaped.letters, e.1 ≠ '\\' ∧ e.1 ≠ '"' := by decide
      have hletter := hletters e (List.mem_of_find?_eq_some he)
      have htame : isTame (['\\', e.1] ++ r) = (e.1 != '\\' && e.1 != '"' && isTame r) := rfl
      rw [htame]
      simp [hletter]
    · rw [List.singleton_append, isTame_cons hc.1]

theorem isTame_encodeChars (cs r : List Char) :
    isTame (cs.flatMap Text.Escaped.encodeChar ++ r) = true ↔
      ('\\' ∉ cs ∧ '"' ∉ cs) ∧ isTame r = true := by
  induction cs with
  | nil => simp
  | cons c cs ih =>
    rw [List.flatMap_cons, List.append_assoc, isTame_encodeChar, ih]
    simp only [List.mem_cons, not_or, ne_comm, ne_eq]
    tauto

theorem shows_str (x : String) : Shows (Expr.str x).text [x] := by
  intro r
  rw [Expr.text, String.toList_ofList, Text.Escaped.encode, List.cons_append, List.cons_append,
    List.append_assoc, isTame_cons (by decide), isTame_encodeChars, List.singleton_append,
    isTame_cons (by decide), List.forall_mem_singleton, IsPlain]

theorem isClear_name (h : IsName x.toList) : IsClear x := by
  intro hmem
  cases h.all_isNameChar _ hmem

theorem isClear_type {t : Ty} (h : t.IsLegible) : IsClear t.render := by
  obtain ⟨base, n, hbase, htext, -⟩ := h
  rw [IsClear, htext, List.mem_append, not_or]
  constructor
  · intro hmem
    cases hbase.all_isTypeChar _ hmem
  · simp [emptyBrackets]

theorem isClear_int (n : Int) : IsClear (toString n) := by
  intro h
  rcases mem_toString h with h | h <;> cases h

theorem isClear_target (t : Target) : IsClear t.render := by
  cases t with
  | stmt i => exact IsClear.append (by decide) (isClear_int i)
  | unresolved => decide
  | foreign k =>
    have houtside : IsClear "@-1" := by decide
    exact houtside

theorem isClear_symbol (op : BinOp) : IsClear op.symbol := by
  cases op <;> decide

end Parts

end Dot

open Dot

section Code

variable {s : Scope} {e : Expr} {q : Place}

theorem Expr.IsLegibleAtom.shows (h : e.IsLegibleAtom s) : Shows e.text e.strings := by
  cases e with
  | var v => exact (isClear_name h.1.isName).shows
  | int n => exact (isClear_int n).shows
  | str x => exact shows_str x
  | null => exact IsClear.shows (by decide)
  | _ => exact h.elim

theorem Place.IsLegible.shows (h : q.IsLegible s) : Shows q.toExpr.text q.toExpr.strings := by
  cases q with
  | var v => exact (isClear_name h.isName).shows
  | field b f =>
    obtain ⟨⟨v, rfl, hv⟩, hf⟩ := h
    exact (((isClear_name hv.isName).append (by decide)).append (isClear_name hf)).shows
  | static c f =>
    obtain ⟨-, hc, hf⟩ := h
    exact (((isClear_name hc).append (by decide)).append (isClear_name hf)).shows
  | element b i =>
    obtain ⟨⟨v, rfl, hv⟩, hi⟩ := h
    exact hi.shows.between ((isClear_name hv.isName).append (by decide)) (by decide)

theorem Receiver.IsLegible.isClear {r : Receiver} (h : r.IsLegible s) : IsClear r.render := by
  cases r with
  | none => decide
  | object c => exact (isClear_name h.2).append (by decide)
  | var v => exact (isClear_name h.isName).append (by decide)

theorem Expr.IsLegible.shows (h : e.IsLegible s) : Shows e.text e.strings := by
  cases e with
  | bin op a b =>
    have hleft : Shows (a.text ++ " " ++ op.symbol) a.strings :=
      (h.1.shows.before (by decide)).before (isClear_symbol op)
    exact (hleft.before (by decide)).append h.2.shows
  | neg e =>
    obtain ⟨v, rfl, hv⟩ := h
    exact (IsClear.append (by decide) (isClear_name hv.isName)).shows
  | new t => exact (IsClear.append (by decide) (isClear_type h.1)).shows
  | newArray t n =>
    have hfront : IsClear ("newarray " ++ t.render) :=
      IsClear.append (by decide) (isClear_type h.1)
    exact h.2.shows.between (hfront.append (by decide)) (by decide)
  | cast t e =>
    have hfront : IsClear ("(" ++ t.render) := IsClear.append (by decide) (isClear_type h.1)
    exact h.2.shows.behind (hfront.append (by decide))
  | field b f => exact h.1.shows
  | static c f => exact h.1.shows
  | element b i => exact h.1.shows
  | call r x args =>
    obtain ⟨hr, hx, hargs⟩ := h
    rw [text, textAll_eq_map, strings, stringsOfAll_eq_flatMap]
    have hfront : IsClear ("invoke " ++ r.render ++ x) :=
      (IsClear.append (by decide) hr.isClear).append (isClear_name hx)
    have hcomma : IsClear ", " := by decide
    have hlist := Shows.intercalate hcomma fun a ha => (hargs a ha).shows
    exact hlist.between (hfront.append (by decide)) (by decide)
  | var v => exact Expr.IsLegibleAtom.shows h
  | int n => exact (isClear_int n).shows
  | str x => exact shows_str x
  | null => exact IsClear.shows (by decide)

theorem Instr.mem_of_mem_halveBlanks {c : Char} {cs : List Char} (h : c ∈ halveBlanks cs) :
    c ∈ cs := by
  fun_induction halveBlanks cs with
  | case1 r ih =>
    rcases List.mem_cons.mp h with rfl | h
    · exact List.mem_cons_self
    · exact List.mem_cons_of_mem _ (List.mem_cons_of_mem _ (ih h))
  | case2 d r _ ih =>
    rcases List.mem_cons.mp h with rfl | h
    · exact List.mem_cons_self
    · exact List.mem_cons_of_mem _ (ih h)
  | case3 => exact h

theorem Instr.isClear_switchText {v : Var} (hv : IsName v.name.toList)
    (cases : List (Int × Target)) (d : Target) : IsClear (switchText Target.render v cases d) := by
  have hcases : IsClear (" ".intercalate (cases.map (caseText Target.render))) := by
    refine IsClear.intercalate (by decide) (List.forall_mem_map.mpr fun c _ => ?_)
    have hvalue : IsClear ("case " ++ toString c.1) :=
      IsClear.append (by decide) (isClear_int c.1)
    exact ((hvalue.append (by decide)).append (isClear_target c.2)).append (by decide)
  have hhead : IsClear ("switch (" ++ v.name ++ ") \x7b ") :=
    (IsClear.append (by decide) (isClear_name hv)).append (by decide)
  have hdefault := (hhead.append hcases).append (by decide : IsClear " default: goto ")
  exact (hdefault.append (isClear_target d)).append (by decide)

theorem Instr.IsLegible.shows {jump : Target → Prop} {i : Instr Target} (h : i.IsLegible s jump) :
    Shows (i.textWith Target.render) i.strings := by
  cases i with
  | assign q e => exact ((h.1.shows.before (by decide)).append h.2.1.shows).before (by decide)
  | call q e =>
    cases q with
    | none => exact h.2.1.shows.before (by decide)
    | some q =>
      obtain ⟨v, rfl, hv⟩ := h.1 q rfl
      exact h.2.1.shows.between ((isClear_name hv.isName).append (by decide)) (by decide)
  | branch c t =>
    cases c with
    | bin op a b =>
      have hc : (Expr.bin op a b).IsLegible s := h.1.2
      have hcondition : Shows ("if (" ++ (Expr.bin op a b).text) (Expr.bin op a b).strings :=
        hc.shows.behind (by decide)
      exact ((hcondition.before (by decide)).before (isClear_target t)).before (by decide)
    | _ => exact h.1.elim
  | goto t => exact ((IsClear.append (by decide) (isClear_target t)).append (by decide)).shows
  | switch v ks ts d =>
    have hclear : IsClear ((Instr.switch v ks ts d).textWith Target.render) := by
      intro hmem
      rw [textWith, String.toList_ofList] at hmem
      exact isClear_switchText h.1.isName (ks.zip ts) d (mem_of_mem_halveBlanks hmem)
    exact hclear.shows
  | ret e =>
    cases e with
    | none => exact IsClear.shows (by decide)
    | some e => exact (h e rfl).shows.between (by decide) (by decide)
  | nop => exact IsClear.shows (by decide)

end Code

section Labels

variable {m : Method} {n : Node} {behind : List Char}

theorem Node.shows_text (hm : m.IsLegible) (n : Node) : Shows (n.text m) (n.instr m).strings := by
  have hinstr : Shows ((n.instr m).textWith Target.render) (n.instr m).strings := by
    rcases n.instr_cases m with hn | ⟨x, hx, hn⟩
    · rw [hn]
      exact IsClear.shows (by decide)
    · rw [hn]
      exact (hm.body x hx).shows
  cases n with
  | entry =>
    have hclear : IsClear "[entry]" := by decide
    exact hclear.shows
  | exit =>
    have hclear : IsClear "[exit]" := by decide
    exact hclear.shows
  | stmt i => exact hinstr.behind ((isClear_int i).append (by decide))
  | foreign k => exact hinstr.behind ((isClear_int (-1)).append (by decide))

namespace Cfg

/-- What stands behind the label in the line of a node. -/
def closing (n : Node) : List Char :=
  (nodeColor n ++ "];").toList

/-- What stands behind the first quotation mark of a text. -/
def behindMark (cs : List Char) : List Char :=
  (cs.dropWhile (· ≠ '"')).tail

/-- In front of the rest of a text, the string that is opened in the line of a node closes at the
mark that was written behind the label, and stands for the label. -/
def QuotesLabel (n : Node) (label line : String) (behind : List Char) : Prop :=
  ∃ inside, behindMark line.toList = inside ++ '"' :: closing n ∧
    Dot.scan (behindMark line.toList ++ behind) = some (inside, closing n ++ behind) ∧
    Dot.decode inside = label.toList

theorem quote_notMem_dotName (n : Node) : '"' ∉ n.dotName.toList := by
  have hindex : ∀ k : Int, '"' ∉ ("s" ++ toString k).toList := by
    intro k h
    rw [String.toList_append, List.mem_append] at h
    rcases h with h | h
    · revert h
      decide
    · rcases mem_toString h with h | h <;> cases h
  cases n with
  | stmt i => exact hindex i
  | foreign k => exact hindex (-1)
  | _ => decide

theorem behindMark_nodeText (m : Method) (n : Node) :
    behindMark (nodeText m n).toList = Dot.escape (n.text m).toList ++ '"' :: closing n := by
  have hline : (nodeText m n).toList = ("  ".toList ++ n.dotName.toList ++ " [label=".toList) ++
      '"' :: (Dot.escape (n.text m).toList ++ '"' :: closing n) := by
    simp [nodeText, closing, toList_escapeLabel]
  have hfront : ∀ c ∈ "  ".toList ++ n.dotName.toList ++ " [label=".toList,
      (decide (c ≠ '"')) = true := by
    intro c hc
    rw [decide_eq_true_eq]
    rintro rfl
    have hdot := quote_notMem_dotName n
    simp [hdot] at hc
  rw [hline, behindMark, List.dropWhile_append_of_pos hfront]
  rfl

/-- The label of a node is read back exactly when it is tame. -/
theorem quotesLabel_iff_isTame :
    QuotesLabel n (n.text m) (nodeText m n) behind ↔ Dot.isTame (n.text m).toList = true := by
  have htame : Dot.Closes (Dot.escape (n.text m).toList) (closing n ++ behind) ∧
      Dot.decode (Dot.escape (n.text m).toList) = (n.text m).toList ↔
        Dot.isTame (n.text m).toList = true := closes_decode_iff
  rw [← htame, QuotesLabel, behindMark_nodeText, List.append_assoc, List.cons_append]
  constructor
  · rintro ⟨inside, hinside, hscan, hdecode⟩
    cases List.append_cancel_right hinside
    exact ⟨hscan, hdecode⟩
  · rintro ⟨hscan, hdecode⟩
    exact ⟨_, rfl, hscan, hdecode⟩

theorem infix_intercalate {t sep : String} {ts : List String} (h : t ∈ ts) :
    t.toList <:+: (sep.intercalate ts).toList := by
  induction ts with
  | nil => cases h
  | cons u ts ih =>
    cases ts with
    | nil =>
      rw [List.mem_singleton.mp h, String.intercalate_singleton]
    | cons v ts =>
      rw [String.intercalate_cons_cons, String.toList_append, String.toList_append]
      rcases List.mem_cons.mp h with rfl | h
      · exact (List.prefix_append _ _).isInfix.trans (List.prefix_append _ _).isInfix
      · exact (ih h).trans (List.suffix_append _ _).isInfix

/-- The line of a node stands in the text of its graph. -/
theorem nodeText_infix {g : Cfg} (hn : n ∈ g.nodes) (title : String) :
    (nodeText m n).toList <:+: (g.text m title).toList := by
  refine infix_intercalate ?_
  have hline := List.mem_map_of_mem (f := nodeText m) hn
  simp only [List.mem_append]
  exact .inl (.inl (.inr hline))

/-- The graph of a method that is read from a text can be written exactly when all integers of the
method can. It has a line for each node then, in which the label of the node is read back exactly
when it is tame. If there are no comments in the type names of the text, this is so exactly when the
string literals of the statement hold neither backslashes nor quotation marks. -/
theorem toDot_quotesLabel_iff {text : String} {ms : List Method} (h : parse text = .ok ms)
    (hm : m ∈ ms) : ∃ g, build m = .ok g ∧ ∀ title,
      ((∃ t, toDot m g title = .ok t) ↔ ∀ k ∈ m.numbers, Text.isWritable k = true) ∧
      ∀ t, toDot m g title = .ok t → ∀ n ∈ g.nodes, ∃ label line front behind,
        n.label m = .ok label ∧ nodeLine m n = .ok line ∧
        t.toList = front ++ line.toList ++ behind ∧
        (QuotesLabel n label line behind ↔ Dot.isTame label.toList = true) ∧
        ((∀ t ∈ (Program.ofText text.toList).1.types, t.isBare = true) →
          (QuotesLabel n label line behind ↔
            ∀ x ∈ (n.instr m).strings, '\\' ∉ x.toList ∧ '"' ∉ x.toList)) := by
  refine ⟨graphOf m, build_eq_ok.mpr ⟨(isClosed_of_parse h hm).resolved, rfl⟩, fun title => ?_⟩
  refine ⟨⟨fun ⟨t, ht⟩ => (toDot_graphOf_eq_ok.mp ht).1,
    fun hall => ⟨_, toDot_graphOf_eq_ok.mpr ⟨hall, rfl⟩⟩⟩, ?_⟩
  intro t ht n hn
  obtain ⟨hall, rfl⟩ := toDot_graphOf_eq_ok.mp ht
  have hnumbers : ∀ k ∈ n.numbers m, Text.isWritable k = true :=
    fun k hk => hall k (Node.mem_numbers hk)
  obtain ⟨front, behind, htext⟩ := nodeText_infix (m := m) hn title
  refine ⟨n.text m, nodeText m n, front, behind, ?_, ?_, htext.symm, quotesLabel_iff_isTame,
    fun hbare => ?_⟩
  · rw [Node.label_eq, Text.written_of hnumbers]
  · rw [nodeLine_eq, Text.written_of hnumbers]
  · exact quotesLabel_iff_isTame.trans (n.shows_text (isLegible_of_parse h hbare hm)).isTame

def tabbedText : String :=
  "method void f(String s) \x7b s = \"a\\tb\"; \x7d"

/-- What is read of `tabbedText`. -/
def tabbed : Method :=
  let v : Var := ⟨"s", .object "String"⟩
  ⟨"f", [v], .void, [v], [⟨.assign (.var v) (.str "a\tb"), 1⟩]⟩

set_option maxRecDepth 20000 in
/-- A tab is written with a backslash and a letter, and these are read back. -/
theorem toDot_quotesLabel_iff_tabbed : ∃ g t, build tabbed = .ok g ∧ toDot tabbed g "" = .ok t ∧
    ∃ label line front behind, (Node.stmt 0).label tabbed = .ok label ∧
      nodeLine tabbed (.stmt 0) = .ok line ∧ t.toList = front ++ line.toList ++ behind ∧
      QuotesLabel (.stmt 0) label line behind := by
  have htext : parse tabbedText = .ok [tabbed] := by
    simp only [parse, tabbedText, String.reduceToList]
    rfl
  have hbare : ∀ t ∈ (Program.ofText tabbedText.toList).1.types, t.isBare = true := by
    simp only [tabbedText, String.reduceToList]
    decide
  obtain ⟨g, hg, hlabels⟩ := toDot_quotesLabel_iff htext (List.mem_singleton_self tabbed)
  have hn : Node.stmt 0 ∈ g.nodes := by
    obtain ⟨-, rfl⟩ := build_eq_ok.mp hg
    decide
  obtain ⟨hwritten, hlines⟩ := hlabels ""
  obtain ⟨t, ht⟩ := hwritten.mpr (by decide)
  obtain ⟨label, line, front, behind, hlabel, hline, hplace, -, hplain⟩ := hlines t ht (.stmt 0) hn
  have hquotes := (hplain hbare).mpr (by decide)
  exact ⟨g, t, hg, ht, label, line, front, behind, hlabel, hline, hplace, hquotes⟩

def quotedText : String :=
  "method void f(String s) \x7b s = \"a\\\"b\"; \x7d"

/-- What is read of `quotedText`. -/
def quotedMethod : Method :=
  let v : Var := ⟨"s", .object "String"⟩
  ⟨"f", [v], .void, [v], [⟨.assign (.var v) (.str "a\"b"), 1⟩]⟩

set_option maxRecDepth 20000 in
/-- The backslash that is printed in front of a quotation mark takes the one that the label adds, so
the mark closes the string. -/
theorem quotedMethod_label : parse quotedText = .ok [quotedMethod] ∧
    (Node.stmt 0).label quotedMethod = .ok "0: s = \"a\\\"b\";" ∧
    nodeLine quotedMethod (.stmt 0) = .ok "  s0 [label=\"0: s = \\\"a\\\\\"b\\\";\"];" ∧
    behindMark "  s0 [label=\"0: s = \\\"a\\\\\"b\\\";\"];".toList =
      "0: s = \\\"a\\\\\"b\\\";\"];".toList ∧
    Dot.scan "0: s = \\\"a\\\\\"b\\\";\"];".toList =
      some ("0: s = \\\"a\\\\".toList, "b\\\";\"];".toList) ∧
    ∀ behind, ¬ QuotesLabel (.stmt 0) "0: s = \"a\\\"b\";"
      "  s0 [label=\"0: s = \\\"a\\\\\"b\\\";\"];" behind := by
  have hlabel : (Node.stmt 0).label quotedMethod = .ok "0: s = \"a\\\"b\";" := by cbv
  have hline : nodeLine quotedMethod (.stmt 0) =
      .ok "  s0 [label=\"0: s = \\\"a\\\\\"b\\\";\"];" := by cbv
  refine ⟨?_, hlabel, hline, by cbv, by decide, fun behind => ?_⟩
  · simp only [parse, quotedText, String.reduceToList]
    rfl
  · have hnumbers : ∀ n ∈ (Node.stmt 0).numbers quotedMethod, Text.isWritable n = true :=
      List.forall_mem_nil _
    rw [Node.label_eq, Text.written_of hnumbers] at hlabel
    rw [nodeLine_eq, Text.written_of hnumbers] at hline
    rw [← Except.ok.inj hlabel, ← Except.ok.inj hline, quotesLabel_iff_isTame]
    decide

end Cfg

end Labels

end MethodFlow
