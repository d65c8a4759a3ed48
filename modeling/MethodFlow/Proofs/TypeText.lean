import MethodFlow.Proofs.WordText
import MethodFlow.Source.Meaning

/-!
The text of a type: a word and pairs of brackets. It is read as a type of that text, and a type
written with nothing but blanks between its word and its brackets has such a text.
-/

namespace MethodFlow

open Source

/-- Pairs of brackets with nothing between them. -/
def emptyBrackets (n : Nat) : List Char :=
  (List.replicate n ['[', ']']).flatten

theorem emptyBrackets_succ (n : Nat) :
    emptyBrackets (n + 1) = '[' :: ']' :: emptyBrackets n := by
  simp [emptyBrackets, List.replicate_succ]

theorem emptyBrackets_succ_append (n : Nat) :
    emptyBrackets (n + 1) = emptyBrackets n ++ ['[', ']'] := by
  simp [emptyBrackets, List.replicate_succ']

/-- A text that does not end in a pair of brackets. -/
def Unbracketed (cs : List Char) : Prop :=
  ¬ ['[', ']'] <:+ cs

theorem unbracketed_of_notMem {cs : List Char} (h : ']' ∉ cs) : Unbracketed cs :=
  fun hs => h (hs.subset (by simp))

namespace Ty

variable {base cs : List Char} {n : Nat} {t : Ty}

theorem render_ofName (x : String) : (ofName x).render = x := by
  unfold ofName
  split
  · rename_i h
    exact h.symm
  · split
    · rename_i p hp
      have hname := List.find?_some hp
      rw [decide_eq_true_eq] at hname
      exact hname
    · rfl

theorem ofName_eq_void {n : String} : ofName n = void ↔ n = "void" := by
  unfold ofName
  split
  · rename_i h
    exact iff_of_true rfl h
  · rename_i h
    refine iff_of_false ?_ h
    split
    · exact nofun
    · exact nofun

theorem exists_ofName_eq_object {n : String} :
    (∃ c, ofName n = object c) ↔ n ≠ "void" ∧ ∀ q : Prim, n ≠ q.name := by
  unfold ofName
  split
  · rename_i h
    exact iff_of_false (fun ⟨_, h⟩ => nomatch h) fun hn => hn.1 h
  · rename_i h
    split
    · rename_i q hq
      have hname := List.find?_some hq
      exact iff_of_false (fun ⟨_, h⟩ => nomatch h) fun hn =>
        hn.2 q (of_decide_eq_true hname).symm
    · rename_i hnone
      refine iff_of_true ⟨n, rfl⟩ ⟨h, fun q hq => ?_⟩
      have hmem : q ∈ Prim.all := by cases q <;> decide
      exact List.find?_eq_none.mp hnone q hmem (decide_eq_true hq.symm)

theorem render_arrays (n : Nat) (t : Ty) :
    (arrays n t).render.toList = t.render.toList ++ emptyBrackets n := by
  induction n with
  | zero => simp [arrays, emptyBrackets]
  | succ n ih =>
    rw [arrays, render, String.toList_append, ih, emptyBrackets_succ_append, List.append_assoc]
    rfl

theorem stripBrackets_reverse (hbase : Unbracketed base) (n : Nat) :
    stripBrackets (base ++ emptyBrackets n).reverse = (n, base.reverse) := by
  induction n with
  | zero =>
    rw [show emptyBrackets 0 = [] from rfl, List.append_nil]
    unfold stripBrackets
    split
    · rename_i r hr
      exact absurd ⟨r.reverse, by rw [List.reverse_eq_iff.mp hr]; simp⟩ hbase
    · rfl
  | succ n ih =>
    rw [emptyBrackets_succ_append, ← List.append_assoc, List.reverse_append]
    rw [show ['[', ']'].reverse = [']', '['] from rfl]
    simp only [List.cons_append, List.nil_append, stripBrackets, ih]

/-- The type that a word with pairs of brackets behind it names. -/
theorem ofText?_of_squeeze (hbase : Unbracketed base)
    (h : Text.squeeze cs = base ++ emptyBrackets n) :
    ofText? cs = match ofName (String.ofList base) with
      | void => if n = 0 then some void else none
      | t => some (arrays n t) := by
  rw [ofText?, h, stripBrackets_reverse hbase]
  cases hname : ofName (String.ofList base) <;> simp only [List.reverse_reverse, hname]

theorem render_of_squeeze (hbase : Unbracketed base) (h : Text.squeeze cs = base ++ emptyBrackets n)
    (ht : ofText? cs = some t) : t.render.toList = base ++ emptyBrackets n := by
  rw [ofText?_of_squeeze hbase h] at ht
  have hname : (ofName (String.ofList base)).render.toList = base := by
    rw [render_ofName, String.toList_ofList]
  split at ht
  · rename_i hv
    obtain ⟨hn, ht⟩ := Option.ite_none_right_eq_some.mp ht
    cases ht
    rw [hv] at hname
    rw [hn, hname]
    exact (List.append_nil base).symm
  · cases ht
    rw [render_arrays, hname]

/-- A type whose text is a word and pairs of brackets, and is read as the type. -/
def IsLegible (t : Ty) : Prop :=
  ∃ base n, IsWordOf isTypeChar base ∧ t.render.toList = base ++ emptyBrackets n ∧
    ofText? t.render.toList = some t

end Ty

namespace Source

open Reader

section Reading

variable {base rest : List Char} {t : Ty}

theorem run_brackets (n : Nat) (h : brackets rest = none) :
    Run brackets (emptyBrackets n ++ rest) (List.replicate n ⟨[], []⟩) rest := by
  induction n with
  | zero => exact .stop h
  | succ n ih =>
    rw [emptyBrackets_succ]
    refine .step ?_ ?_ ih
    · exact bind_of (gap_nil (blank_none rfl)) (bind_of (exactly_append "[" _)
        (bind_of (gap_nil (blank_none rfl)) (bind_of (exactly_append "]" _) rfl)))
    · simp only [List.cons_append, List.length_cons]
      omega

theorem typeName_append (hbase : IsWordOf isTypeChar base) (n : Nat)
    (hstop : stops isTypeChar rest = true) (hrest : brackets rest = none) :
    typeName (base ++ (emptyBrackets n ++ rest)) =
      some (⟨base, List.replicate n ⟨[], []⟩⟩, rest) := by
  have hword : stops isTypeChar (emptyBrackets n ++ rest) = true := by
    cases n with
    | zero => exact hstop
    | succ n => rw [emptyBrackets_succ]; rfl
  refine bind_of (wordOf_append (fun _ h => isTypeChar_of_isNameChar h) hbase hword) ?_
  exact bind_of (run_brackets n hrest).many rfl

theorem brackets_none {g : Gap} {r : List Char} (hgap : gap rest = some (g, r))
    (hr : exactly "[" r = none) : brackets rest = none :=
  (bind_of hgap rfl).trans (bind_none hr)

theorem blank_of_isLegible (ht : t.IsLegible) : blank (t.render.toList ++ rest) = none := by
  obtain ⟨base, n, hbase, htext, _⟩ := ht
  obtain ⟨c, z, rfl⟩ := List.exists_cons_of_ne_nil hbase.ne_nil
  rw [htext]
  exact blank_none (isSolid_of_isNameChar (isNameChar_of_isNameStart hbase.1))

/-- The text of a legible type is read as a name of the type. -/
theorem typeName_of_isLegible (ht : t.IsLegible) :
    ∃ x : TypeName, (∀ p, x.meaning p = .ok t) ∧
      ∀ rest, stops isTypeChar rest = true → brackets rest = none →
        typeName (t.render.toList ++ rest) = some (x, rest) := by
  obtain ⟨base, n, hbase, htext, hread⟩ := ht
  refine ⟨⟨base, List.replicate n ⟨[], []⟩⟩, fun p => ?_, fun rest hstop hrest => ?_⟩
  · have hx : TypeName.text ⟨base, List.replicate n ⟨[], []⟩⟩ = t.render.toList := by
      rw [htext, TypeName.text, List.flatMap_replicate]
      rfl
    rw [TypeName.meaning, hx, hread]
  · rw [htext, List.append_assoc]
    exact typeName_append hbase n hstop hrest

end Reading

section Writing

variable {x : TypeName} {p : Pos} {t : Ty}

theorem isSpacing_of_isTypeChar {c : Char} (h : isTypeChar c = true) :
    Text.isSpacing c = false := by
  have hr := isTypeChar_range h
  simp [Text.isSpacing, isBlank_eq_false hr]
  omega

theorem IsWordOf.all_isTypeChar {base : List Char} (h : IsWordOf isTypeChar base) :
    ∀ c ∈ base, isTypeChar c = true := by
  cases base with
  | nil => exact h.elim
  | cons c r =>
    intro d hd
    rcases List.mem_cons.mp hd with rfl | hd
    · exact isTypeChar_of_isNameChar (isNameChar_of_isNameStart h.1)
    · exact h.2.1 d hd

def Blank.isSpace : Blank → Bool
  | .space _ => true
  | _ => false

/-- A type name without a comment between the name and any of its brackets. -/
def TypeName.isBare (x : TypeName) : Bool :=
  x.dims.all fun d => d.before.all Blank.isSpace && d.inside.all Blank.isSpace

/-- A gap without comments, as one is read. -/
def Gap.IsBlank (g : Gap) : Prop :=
  ∀ b ∈ g, ∃ c, b = .space c ∧ Text.isBlank c = true

theorem squeeze_gap {g : Gap} (h : g.IsBlank) : Text.squeeze g.text = [] := by
  induction g with
  | nil => rfl
  | cons b g ih =>
    obtain ⟨c, rfl, hc⟩ := h b List.mem_cons_self
    have hs : Text.isSpacing c = true := by simp [Text.isSpacing, hc]
    have htail := ih fun d hd => h d (List.mem_cons_of_mem _ hd)
    rw [Text.squeeze] at htail ⊢
    rw [Gap.text, List.flatMap_cons, List.filter_append, ← Gap.text, htail]
    simp [Blank.text, hs]

theorem squeeze_brackets {ds : List Brackets}
    (h : ∀ d ∈ ds, d.before.IsBlank ∧ d.inside.IsBlank) :
    Text.squeeze (ds.flatMap Brackets.text) = emptyBrackets ds.length := by
  induction ds with
  | nil => rfl
  | cons d ds ih =>
    obtain ⟨hbefore, hinside⟩ := h d List.mem_cons_self
    have htail := ih fun e he => h e (List.mem_cons_of_mem _ he)
    have hb := squeeze_gap hbefore
    have hi := squeeze_gap hinside
    rw [Text.squeeze] at htail hb hi ⊢
    rw [List.flatMap_cons, List.filter_append, htail, List.length_cons, emptyBrackets_succ,
      Brackets.text]
    simp only [List.filter_append, List.filter_cons, hb, hi]
    rfl

theorem TypeName.squeeze_text (hbase : IsWordOf isTypeChar x.base)
    (h : ∀ d ∈ x.dims, d.before.IsBlank ∧ d.inside.IsBlank) :
    Text.squeeze x.text = x.base ++ emptyBrackets x.dims.length := by
  have hself : Text.squeeze x.base = x.base := List.filter_eq_self.mpr fun c hc => by
    rw [isSpacing_of_isTypeChar (hbase.all_isTypeChar c hc)]
    rfl
  have hdims := squeeze_brackets h
  rw [Text.squeeze] at hself hdims ⊢
  rw [TypeName.text, List.filter_append, hself, hdims]

/-- The type that a name without comments means is legible. -/
theorem TypeName.isLegible_of_meaning (hbase : IsWordOf isTypeChar x.base)
    (h : ∀ d ∈ x.dims, d.before.IsBlank ∧ d.inside.IsBlank) (ht : x.meaning p = .ok t) :
    t.IsLegible := by
  have hread : Ty.ofText? x.text = some t := by
    unfold TypeName.meaning at ht
    split at ht
    · rename_i u hu
      cases ht
      exact hu
    · cases ht
  have hclose : Unbracketed x.base := unbracketed_of_notMem fun hmem => by
    cases hbase.all_isTypeChar _ hmem
  have hsqueeze := TypeName.squeeze_text hbase h
  have htext := Ty.render_of_squeeze hclose hsqueeze hread
  have hself : Text.squeeze t.render.toList = x.base ++ emptyBrackets x.dims.length := by
    rw [htext, ← hsqueeze, Text.squeeze, Text.squeeze, List.filter_filter]
    simp
  refine ⟨x.base, x.dims.length, hbase, htext, ?_⟩
  rw [Ty.ofText?_of_squeeze hclose hself, ← hread, Ty.ofText?_of_squeeze hclose hsqueeze]

end Writing

end Source

end MethodFlow
