import MethodFlow.Proofs.TypeText

/-!
What a reader tells of the values it reads. Some letters end a name but no keyword: in front of one,
a keyword is read as a name. Nothing in a program begins with such a letter, so what a reader tells
hangs on what its text goes on with, and is passed on from the end of a text to its front.
-/

namespace MethodFlow.Source

/-- Whether a character is part of a word but of no name. -/
def isForeign (c : Char) : Bool :=
  Text.isWordChar c && !isNameChar c

/-- A text that does not begin with a foreign character. -/
def Native (cs : List Char) : Prop :=
  ∀ c r, cs = c :: r → isForeign c = false

section Characters

variable {c : Char} {r : List Char}

theorem native_nil : Native [] := fun _ _ h => nomatch h

theorem native_cons (h : isForeign c = false) : Native (c :: r) := by
  intro d z hd
  cases hd
  exact h

theorem isForeign_of_isNameChar (h : isNameChar c = true) : isForeign c = false := by
  simp [isForeign, h]

theorem isForeign_of_ascii (h : c.toNat < 128) : isForeign c = false := by
  have hall : ∀ n < 128, isForeign (Char.ofNat n) = false := by decide +kernel
  rw [← Char.ofNat_toNat c]
  exact hall _ h

/-- The code points of blank characters. -/
def blankPoints : List Nat :=
  [9, 10, 11, 12, 13, 0x20, 0x85, 0xA0, 0x1680, 0x2000, 0x2001, 0x2002, 0x2003, 0x2004, 0x2005,
    0x2006, 0x2007, 0x2008, 0x2009, 0x200A, 0x2028, 0x2029, 0x202F, 0x205F, 0x3000]

theorem isForeign_of_isBlank (h : Text.isBlank c = true) : isForeign c = false := by
  have hall : ∀ n ∈ blankPoints, isForeign (Char.ofNat n) = false := by decide +kernel
  rw [← Char.ofNat_toNat c]
  refine hall _ ?_
  simp only [Text.isBlank, Bool.or_eq_true, Bool.and_eq_true, decide_eq_true_eq, beq_iff_eq] at h
  simp only [blankPoints, List.mem_cons, List.not_mem_nil, or_false]
  omega

/-- In front of a native text, what ends a name ends a word. -/
theorem Native.endsWord {cs : List Char} (h : Native cs)
    (hstop : Reader.stops isNameChar cs = true) : endsWord cs = true := by
  cases cs with
  | nil => rfl
  | cons c r =>
    have hforeign := h c r rfl
    simp only [Reader.stops, Bool.not_eq_true'] at hstop
    simpa [isForeign, hstop, Source.endsWord] using hforeign

end Characters

namespace Reader

variable {α β : Type} {p q : Reader α} {f : α → Reader β} {g : α → β} {P P' : α → Prop}
  {Q : β → Prop}

/-- In front of a native text, a value that is read has a property and was read off a native
text. -/
def Tells (p : Reader α) (P : α → Prop) : Prop :=
  ∀ cs a rest, p cs = some (a, rest) → Native rest → P a ∧ Native cs

section Laws

theorem Tells.mono (h : Tells p P) (hP : ∀ a, P a → P' a) : Tells p P' :=
  fun cs a rest hp hrest => (h cs a rest hp hrest).imp_left (hP a)

theorem tells_pure {a : α} (h : P a) : Tells (pure a) P := by
  intro cs b rest hp hrest
  cases hp
  exact ⟨h, hrest⟩

/-- What the first of two readers tells is known of the value that the second one hands on. -/
theorem Tells.bind (hp : Tells p P) (hf : ∀ a, Tells (f a) fun b => P a → Q b) :
    Tells (p >>= f) Q := by
  intro cs b rest h hrest
  obtain ⟨a, r, ha, hb⟩ := bind_eq_some.mp h
  obtain ⟨hQ, hr⟩ := hf a r b rest hb hrest
  obtain ⟨hP, hcs⟩ := hp cs a r ha hr
  exact ⟨hQ hP, hcs⟩

theorem Tells.map (h : Tells p fun a => Q (g a)) : Tells (g <$> p) Q := by
  intro cs b rest hp hrest
  obtain ⟨a, ha, rfl⟩ := map_eq_some.mp hp
  exact h cs a rest ha hrest

theorem Tells.orElse (hp : Tells p P) (hq : Tells q P) : Tells (p <|> q) P := by
  intro cs a rest h hrest
  rcases orElse_eq_some.mp h with h | ⟨_, h⟩
  · exact hp cs a rest h hrest
  · exact hq cs a rest h hrest

theorem Tells.optional (h : Tells p P) : Tells (optional p) fun o => ∀ a, o = some a → P a := by
  refine .orElse (.map (h.mono ?_)) (tells_pure fun _ h => nomatch h)
  intro a ha b hb
  cases hb
  exact ha

theorem Tells.atMost (h : Tells p P) (n : Nat) : Tells (atMost p n) fun as => ∀ a ∈ as, P a := by
  have hnil : Tells (pure []) fun as : List α => ∀ a ∈ as, P a := tells_pure fun _ h => nomatch h
  induction n with
  | zero => exact hnil
  | succ n ih =>
    refine .orElse (h.bind fun a => ih.bind fun as => tells_pure fun has ha => ?_) hnil
    exact List.forall_mem_cons.mpr ⟨ha, has⟩

theorem Tells.many (h : Tells p P) : Tells (many p) fun as => ∀ a ∈ as, P a :=
  fun cs => h.atMost cs.length cs

theorem Tells.many1 (h : Tells p P) : Tells (many1 p) fun as => ∀ a ∈ as, P a :=
  h.bind fun _ => h.many.bind fun _ => tells_pure fun has ha => List.forall_mem_cons.mpr ⟨ha, has⟩

end Laws

section Words

variable {t : Char → Bool} {s : String}

theorem tells_satisfying (h : ∀ c, t c = true → isForeign c = false) :
    Tells (satisfying t) fun c => t c = true := by
  intro cs c rest hp _
  obtain ⟨rfl, hc⟩ := satisfying_eq_some.mp hp
  exact ⟨hc, native_cons (h c hc)⟩

/-- Whether a string begins with a character of ASCII. -/
def isMark (s : String) : Bool :=
  s.toList.head?.any fun c => c.toNat < 128

/-- A text that is read from a mark on is native. -/
theorem native_of_exactly {cs r : List Char} {u : Unit} (h : exactly s cs = some (u, r))
    (hs : isMark s = true) : Native cs := by
  obtain ⟨c, hc, hlt⟩ := (Option.any_eq_true _ _).mp hs
  intro d z hcs
  have hhead := congrArg List.head? (hcs.symm.trans (exactly_eq_some.mp h))
  rw [List.head?_append, hc] at hhead
  cases hhead
  exact isForeign_of_ascii (of_decide_eq_true hlt)

theorem tells_ahead {test : List Char → Bool} : Tells (ahead test) fun _ => True := by
  intro cs u rest h hrest
  rw [ahead, Option.ite_none_right_eq_some] at h
  cases h.2
  exact ⟨trivial, hrest⟩

/-- A mark between other things. -/
theorem tells_mark {f : Unit → Reader β} (hs : isMark s = true) (hf : Tells (f ()) Q) :
    Tells (exactly s >>= f) Q := by
  intro cs b rest h hrest
  obtain ⟨_, r, hr, hb⟩ := bind_eq_some.mp h
  exact ⟨(hf r b rest hb hrest).1, native_of_exactly hr hs⟩

/-- Behind a mark anything may stand, as in comments and string literals. -/
theorem tells_opening {f : Unit → Reader β} (hs : isMark s = true)
    (hf : ∀ cs b rest, f () cs = some (b, rest) → Q b) : Tells (exactly s >>= f) Q := by
  intro cs b rest h _
  obtain ⟨_, r, hr, hb⟩ := bind_eq_some.mp h
  exact ⟨hf r b rest hb, native_of_exactly hr hs⟩

theorem tells_wordOf {isChar : Char → Bool} (hsub : ∀ c, isNameChar c = true → isChar c = true) :
    Tells (wordOf isChar) (IsWordOf isChar) := by
  intro cs x rest h hrest
  obtain ⟨rfl, hstop, hword⟩ := wordOf_eq_some h
  have hx := hword (hrest.endsWord (stops_of_imp hsub hstop))
  refine ⟨hx, ?_⟩
  obtain ⟨c, z, rfl⟩ := List.exists_cons_of_ne_nil hx.ne_nil
  exact native_cons (isForeign_of_isNameChar (isNameChar_of_isNameStart hx.1))

theorem tells_name : Tells name IsName :=
  tells_wordOf fun _ h => h

end Words

section Gaps

theorem tells_comment : Tells comment fun b => b.isSpace = false := by
  refine .orElse (tells_opening rfl ?_) (tells_opening rfl ?_)
  · intro cs b rest h
    obtain ⟨_, _, _, h⟩ := bind_eq_some.mp h
    cases h
    rfl
  · intro cs b rest h
    obtain ⟨_, _, _, h⟩ := bind_eq_some.mp h
    cases h
    rfl

theorem tells_blank :
    Tells blank fun b => b.isSpace = true → ∃ c, b = .space c ∧ Text.isBlank c = true := by
  refine .orElse (.map ?_) (tells_comment.mono fun b hb h => ?_)
  · exact (tells_satisfying fun c => isForeign_of_isBlank).mono fun c hc _ => ⟨c, rfl, hc⟩
  · cases hb.symm.trans h

theorem tells_gap : Tells gap fun g => g.all Blank.isSpace = true → g.IsBlank :=
  tells_blank.many.mono fun _ h hall b hb => h b hb (List.all_eq_true.mp hall b hb)

/-- A gap between other things. -/
theorem tells_past_gap {f : Gap → Reader β} (hf : ∀ g, Tells (f g) Q) : Tells (gap >>= f) Q :=
  tells_gap.bind fun g => (hf g).mono fun _ h _ => h

theorem tells_past_gap1 {f : Gap → Reader β} (hf : ∀ g, Tells (f g) Q) : Tells (gap1 >>= f) Q :=
  tells_blank.many1.bind fun g => (hf g).mono fun _ h _ => h

end Gaps

section Types

theorem tells_brackets : Tells brackets fun d =>
    d.before.all Blank.isSpace = true → d.inside.all Blank.isSpace = true →
      d.before.IsBlank ∧ d.inside.IsBlank := by
  refine tells_gap.bind fun before => tells_mark rfl ?_
  refine tells_gap.bind fun inside => tells_mark rfl (tells_pure ?_)
  intro hinside hbefore hb hi
  exact ⟨hbefore hb, hinside hi⟩

/-- A type name that was read without comments means legible types only. -/
theorem tells_typeName :
    Tells typeName fun x => x.isBare = true → ∀ p t, x.meaning p = .ok t → t.IsLegible := by
  refine .bind (tells_wordOf fun _ h => isTypeChar_of_isNameChar h) fun base => ?_
  refine tells_brackets.many.bind fun dims => tells_pure ?_
  intro hdims hbase hbare p t ht
  refine TypeName.isLegible_of_meaning hbase (fun d hd => ?_) ht
  have hd' := List.all_eq_true.mp hbare d hd
  rw [Bool.and_eq_true] at hd'
  exact hdims d hd hd'.1 hd'.2

end Types

end Reader

end MethodFlow.Source
