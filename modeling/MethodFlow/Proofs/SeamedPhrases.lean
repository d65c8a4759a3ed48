import MethodFlow.Proofs.LikeMeanings
import MethodFlow.Proofs.Seams

/-!
Phrases are read side by side on two texts that part at a seam, as phrases that mean the same.
-/

namespace MethodFlow.Source.Reader

open Attempt

variable {α : Type} {k : Seam} {S : α → α → Prop} {cs cs' r r' : List Char}

section Atoms

theorem keeps_typeName : Keeps k typeName typeName Eq := by
  refine (keeps_wordOf fun _ => isInner_of_isTypeChar).bindEq fun base => ?_
  refine (keeps_brackets.many (spells_brackets.consumes fun b h => ?_)).bind fun ds ds' h => ?_
  · rw [b.spelling_tokens, Brackets.text, List.append_eq_nil_iff] at h
    cases h.2
  · rw [List.forall₂_eq_eq_eq] at h
    exact keeps_pure (h ▸ rfl)

theorem isInner_of_isLone {c : Char} (h : isLone c = true) (hbrace : c ≠ '\x7d') :
    isInner c = true :=
  Bool.and_eq_true_iff.mpr ⟨h, bne_iff_ne.mpr hbrace⟩

theorem keeps_number : Keeps k number number Eq := by
  have hhex : Keeps k hexDigits hexDigits Eq := by
    refine keeps_mark rfl ((keeps_satisfying fun c hc => ?_).bindEq fun _ =>
      (keeps_span1 fun c hc => isInner_of_isLone (isLone_of_isHexDigit hc) ?_).bindEq fun _ =>
        keeps_pure rfl)
    · rw [Bool.or_eq_true, beq_iff_eq, beq_iff_eq] at hc
      rcases hc with rfl | rfl <;> rfl
    · rintro rfl
      cases hc
  have hdecimal : Keeps k decimalDigits decimalDigits Eq :=
    (keeps_span1 fun c hc => isInner_of_isNameChar (isNameChar_of_isDigit hc)).bindEq fun _ =>
      keeps_pure rfl
  refine (keeps_exactly rfl).optional.bind fun sign sign' hsign => ?_
  refine (hhex.orElse hdecimal).bindEq fun digits => keeps_pure ?_
  cases hsign <;> rfl

theorem keeps_atom : Keeps k atom atom Eq := by
  have hmap : ∀ {β : Type} {p : Reader β} (f : β → Atom), Keeps k p p Eq →
      Keeps k (f <$> p) (f <$> p) Eq := fun f h => .map (h.mono fun _ _ => congrArg f)
  refine .orElse (.orElse (hmap _ keeps_number) (.orElse (hmap _ keeps_stringLiteral) ?_))
    (hmap _ keeps_name)
  exact keeps_mark rfl (keeps_pure rfl)

end Atoms

section Places

theorem keeps_member : Keeps k member member fun m m' =>
    m.owner = m'.owner ∧ m.name = m'.name := by
  refine keeps_name.bindEq fun owner => keeps_past_gap fun _ _ => keeps_mark rfl ?_
  exact keeps_past_gap fun _ _ => keeps_name.bindEq fun _ => keeps_pure ⟨rfl, rfl⟩

theorem keeps_element : Keeps k element element fun e e' =>
    e.base = e'.base ∧ e.index = e'.index := by
  refine keeps_name.bindEq fun base => keeps_past_gap fun _ _ => keeps_mark rfl ?_
  refine keeps_past_gap fun _ _ => keeps_atom.bindEq fun index => keeps_past_gap fun _ _ => ?_
  exact keeps_mark rfl (keeps_pure ⟨rfl, rfl⟩)

theorem keeps_leftSide : Keeps k leftSide leftSide LeftSide.Like := by
  refine .orElse (.map (keeps_element.mono ?_)) (.orElse (.map (keeps_member.mono ?_))
    (.map (keeps_name.mono ?_)))
  · exact fun e e' h => LeftSide.like_element h.1 h.2
  · exact fun m m' h => LeftSide.like_member h.1 h.2
  · exact fun x x' h => h ▸ LeftSide.like_name x

end Places

section Calls

theorem keeps_listed {item : Reader α} {t : α → List Token} (hitem : Spells [] item t)
    (h : Keeps k item item S) :
    Keeps k (listed item) (listed item) fun l l' => List.Forall₂ S l.items l'.items := by
  have hlater : Keeps k (later item) (later item) fun x x' => S x.item x'.item := by
    refine keeps_past_gap fun _ _ => keeps_mark rfl (keeps_past_gap fun _ _ => ?_)
    exact h.bind fun _ _ hS => keeps_pure hS
  have hconsumes : Consumes (later item) := by
    refine (spells_later hitem).consumes fun x hx => ?_
    rw [x.spelling_tokens, Later.text, Later.head, List.append_eq_nil_iff,
      List.append_eq_nil_iff] at hx
    cases hx.1.2
  refine h.bind fun a a' ha => (hlater.many hconsumes).bind fun xs xs' hxs => keeps_pure ?_
  refine .cons ha ?_
  rwa [List.forall₂_map_left_iff, List.forall₂_map_right_iff]

theorem keeps_arguments : Keeps k arguments arguments fun a a' =>
    a.atoms.items = a'.atoms.items := by
  refine (keeps_listed spells_atom keeps_atom).bind fun l l' h => ?_
  refine keeps_past_gap fun _ _ => keeps_pure ?_
  rwa [List.forall₂_eq_eq_eq] at h

theorem keeps_invocation : Keeps k invocation invocation Invocation.Like := by
  have hcallee : Keeps k callee callee fun c c' => ∀ s, c.meaning s = c'.meaning s := by
    refine .orElse (.map (keeps_member.mono ?_)) (.map (keeps_name.mono ?_))
    · exact fun m m' h s => Callee.meaning_congr s h.1 h.2
    · rintro x _ rfl s
      rfl
  refine keeps_mark rfl (keeps_past_gap1 fun _ _ => hcallee.bind fun c c' hc => ?_)
  refine keeps_past_gap fun _ _ => keeps_mark rfl (keeps_past_gap fun _ _ => ?_)
  refine keeps_arguments.optional.bind fun a a' ha => keeps_mark rfl (keeps_pure ?_)
  exact Invocation.like hc ha

end Calls

section Operations

variable {β : Type} {p p' q q' : Reader α} {f f' : α → Reader β} {T : β → β → Prop}

/-- Readers that stay side by side where no blank begins: a seam is behind them there. -/
def KeepsSolid (k : Seam) (p p' : Reader α) (S : α → α → Prop) : Prop :=
  ∀ cs cs', Near k cs cs' → blank cs = none → blank cs' = none → Abreast k S (p cs) (p' cs')

theorem KeepsSolid.past_gap {f f' : Gap → Reader β} (hf : ∀ g g', KeepsSolid k (f g) (f' g') T) :
    Keeps k (gap >>= f) (gap >>= f') T := by
  intro cs cs' hcs
  rw [bind_apply, bind_apply]
  obtain ⟨h, h'⟩ | ⟨g, g', r, r', hg, hg', -, hr⟩ := keeps_gap cs cs' hcs
  · rw [h, h']
    exact abreast_none
  · rw [hg, hg']
    exact hf g g' r r' hr ((many_eq_some consumes_blank).mp hg).stops
      ((many_eq_some consumes_blank).mp hg').stops

theorem KeepsSolid.bindEq (hp : KeepsSolid k p p' Eq) (hf : ∀ a, Keeps k (f a) (f' a) T) :
    KeepsSolid k (p >>= f) (p' >>= f') T :=
  fun cs cs' hcs h h' => (hp cs cs' hcs h h').bind fun a _ r r' ha hr => ha ▸ hf a r r' hr

theorem KeepsSolid.orElse (hp : KeepsSolid k p p' S) (hq : KeepsSolid k q q' S) :
    KeepsSolid k (p <|> q) (p' <|> q') S := by
  intro cs cs' hcs hblank hblank'
  rw [orElse_apply, orElse_apply]
  obtain ⟨h, h'⟩ | ⟨a, a', r, r', h, h', hS, hr⟩ := hp cs cs' hcs hblank hblank'
  · rw [h, h']
    exact hq cs cs' hcs hblank hblank'
  · rw [h, h']
    exact abreast_some hS hr

theorem keepsSolid_slash : KeepsSolid k (exactly "/") (exactly "/") Eq := by
  intro cs cs' hcs hblank hblank'
  rcases hcs.start with ⟨hk, rfl⟩ | ⟨rfl, rfl⟩ | ⟨l, r, r', hl, hl', hr⟩
  · exact abreast_behind hk (fun _ => rfl) _
  · cases k with
    | comment ls c rest hread hcomment hbare => cases hblank.symm.trans hread
    | brace ls r r' => exact abreast_none
  · by_cases hslash : l = .char '/'
    · subst hslash
      obtain rfl := (lexeme_eq_some hl).1
      obtain rfl := (lexeme_eq_some hl').1
      exact abreast_some rfl hr
    · have hnone : ∀ {cs r}, lexeme cs = some (l, r) → blank cs = none →
          exactly "/" cs = none := by
        intro cs r hl hblank
        rw [(lexeme_eq_some hl).1]
        cases l with
        | blank b => cases hblank.symm.trans (blank_of_lexeme hl)
        | string ps => exact exactly_none rfl (by decide)
        | char c => exact exactly_none rfl fun h => hslash (congrArg Lexeme.char h)
      exact .inl ⟨hnone hl hblank, hnone hl' hblank'⟩

theorem keepsSolid_operatorOf (ops : List BinOp) :
    KeepsSolid k (operatorOf ops) (operatorOf ops) Eq := by
  induction ops with
  | nil => exact fun _ _ _ _ _ => abreast_none
  | cons op ops ih =>
    refine KeepsSolid.orElse (KeepsSolid.bindEq ?_ fun _ => keeps_pure rfl) ih
    by_cases hop : op = .div
    · rw [hop]
      exact keepsSolid_slash
    · have hsymbol : op.symbol.toList.all isInner = true := by
        cases op <;> first | rfl | exact absurd rfl hop
      exact fun cs cs' hcs _ _ => keeps_exactly hsymbol cs cs' hcs

theorem keeps_operation {op : Reader BinOp} (hop : KeepsSolid k op op Eq) :
    Keeps k (operation op) (operation op) fun o o' =>
      o.left = o'.left ∧ o.op = o'.op ∧ o.right = o'.right := by
  refine keeps_atom.bindEq fun left => KeepsSolid.past_gap fun _ _ => hop.bindEq fun sign => ?_
  exact keeps_past_gap fun _ _ => keeps_atom.bindEq fun right => keeps_pure ⟨rfl, rfl, rfl⟩

theorem keeps_condition : Keeps k condition condition fun o o' =>
    o.left = o'.left ∧ o.op = o'.op ∧ o.right = o'.right :=
  keeps_operation (keepsSolid_operatorOf _)

theorem keeps_binary : Keeps k binary binary fun o o' =>
    o.left = o'.left ∧ o.op = o'.op ∧ o.right = o'.right := by
  refine keeps_operation (.orElse (keepsSolid_operatorOf _) ?_)
  refine (keepsSolid_operatorOf _).bindEq fun op => ?_
  exact (keeps_ahead fun _ _ h => endsWord_of_near h).bindEq fun _ => keeps_pure rfl

end Operations

section RightSides

theorem keeps_newArray : Keeps k newArray newArray fun a a' =>
    a.elem = a'.elem ∧ a.length = a'.length := by
  refine keeps_mark rfl (keeps_past_gap1 fun _ _ => keeps_typeName.bindEq fun elem => ?_)
  refine keeps_past_gap fun _ _ => keeps_mark rfl (keeps_past_gap fun _ _ => ?_)
  refine keeps_atom.bindEq fun length => keeps_past_gap fun _ _ => ?_
  exact keeps_mark rfl (keeps_pure ⟨rfl, rfl⟩)

theorem keeps_newObject : Keeps k newObject newObject fun n n' => n.type = n'.type :=
  keeps_mark rfl (keeps_past_gap1 fun _ _ => keeps_typeName.bindEq fun _ => keeps_pure rfl)

theorem keeps_cast : Keeps k cast cast fun c c' => c.type = c'.type ∧ c.operand = c'.operand := by
  refine keeps_mark rfl (keeps_past_gap fun _ _ => keeps_typeName.bindEq fun type => ?_)
  refine keeps_past_gap fun _ _ => keeps_mark rfl (keeps_past_gap fun _ _ => ?_)
  exact keeps_atom.bindEq fun operand => keeps_pure ⟨rfl, rfl⟩

theorem keeps_negation : Keeps k negation negation fun n n' => n.name = n'.name :=
  keeps_mark rfl (keeps_past_gap fun _ _ => keeps_name.bindEq fun _ => keeps_pure rfl)

theorem keeps_rightSide : Keeps k rightSide rightSide RightSide.Like := by
  refine .orElse (.map (keeps_newArray.mono ?_)) <| .orElse (.map (keeps_newObject.mono ?_)) <|
    .orElse (.map (keeps_invocation.mono ?_)) <| .orElse (.map (keeps_cast.mono ?_)) <|
      .orElse (.map (keeps_binary.mono ?_)) <| .orElse (.map (keeps_negation.mono ?_)) <|
        .orElse (.map (keeps_element.mono ?_)) <| .orElse (.map (keeps_member.mono ?_))
          (.map (keeps_atom.mono ?_))
  · exact fun a a' h => RightSide.like_newArray h.1 h.2
  · exact fun n n' h => RightSide.like_newObject h
  · exact fun i i' h => RightSide.like_call h
  · exact fun c c' h => RightSide.like_cast h.1 h.2
  · exact fun o o' h => RightSide.like_operation h.1 h.2.1 h.2.2
  · exact fun n n' h => RightSide.like_negation h
  · exact fun e e' h => RightSide.like_element h.1 h.2
  · exact fun m m' h => RightSide.like_member h.1 h.2
  · exact fun a a' h => h ▸ RightSide.like_atom a

end RightSides

end MethodFlow.Source.Reader
