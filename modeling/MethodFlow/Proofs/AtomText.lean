import MethodFlow.Proofs.LegibleCode

/-!
The text of an atom: numbers, string literals, `null` and variables are read as what was printed.
-/

namespace MethodFlow

namespace Source

open Reader

variable {rest r : List Char}

section Numbers

/-- Decimal digits are no hexadecimal number. -/
theorem hexDigits_none {ds : List Char} (hds : ∀ c ∈ ds, c.isDigit = true)
    (hrest : stops isNameChar rest = true) : hexDigits (ds ++ rest) = none := by
  apply bind_none_of
  intro u r h
  apply bind_none
  have hr : ∀ c ∈ r.head?, c.isDigit = true ∨ isNameChar c = false := by
    have heq : ds ++ rest = '0' :: r := exactly_eq_some.mp h
    intro c hc
    cases ds with
    | nil =>
      rw [List.nil_append] at heq
      rw [heq] at hrest
      cases hrest
    | cons d ds =>
      cases heq
      cases ds with
      | nil =>
        cases rest with
        | nil => cases hc
        | cons e z =>
          cases hc
          right
          simpa [stops] using hrest
      | cons e ds =>
        cases hc
        left
        exact hds _ (List.mem_cons_of_mem _ List.mem_cons_self)
  cases r with
  | nil => rfl
  | cons c z =>
    apply satisfying_none
    have hc := hr c rfl
    have hx : c ≠ 'x' := by
      rintro rfl
      rcases hc with hc | hc <;> cases hc
    have hX : c ≠ 'X' := by
      rintro rfl
      rcases hc with hc | hc <;> cases hc
    simp [hx, hX]

theorem stops_isDigit (h : stops isNameChar rest = true) : stops Char.isDigit rest = true := by
  cases rest with
  | nil => rfl
  | cons c z =>
    simp only [stops, isNameChar, Char.isAlphanum, Bool.not_eq_true', Bool.or_eq_false_iff] at h ⊢
    exact h.1.1.2

theorem isDigit_of_mem {n : Nat} {c : Char} (h : c ∈ Nat.toDigits 10 n) : c.isDigit = true :=
  Nat.isDigit_of_mem_toDigits (by decide) (by decide) h

theorem toDigits_head (n : Nat) : ∃ d ds, Nat.toDigits 10 n = d :: ds ∧ d.isDigit = true := by
  obtain ⟨d, ds, h⟩ := List.exists_cons_of_ne_nil (Nat.toDigits_ne_nil (n := n) (b := 10))
  exact ⟨d, ds, h, isDigit_of_mem (h ▸ List.mem_cons_self)⟩

theorem digits_append (n : Nat) (hrest : stops isNameChar rest = true) :
    (hexDigits <|> decimalDigits) (Nat.toDigits 10 n ++ rest) =
      some (.decimal (Nat.toDigits 10 n), rest) := by
  rw [orElse_none (hexDigits_none (fun _ => isDigit_of_mem) hrest)]
  exact bind_of (span1_append Nat.toDigits_ne_nil (fun _ => isDigit_of_mem) (stops_isDigit hrest))
    rfl

theorem ofDigits_toDigits (n : Nat) :
    Text.ofDigits 10 ((Nat.toDigits 10 n).map hexValue) = n := by
  have hfold : ∀ (ds : List Char) (k : Nat), (∀ c ∈ ds, c.isDigit = true) →
      ds.foldl (fun m c => m * 10 + hexValue c) k = Nat.ofDigitChars 10 ds k := by
    intro ds
    induction ds with
    | nil => intro k _; rfl
    | cons c ds ih =>
      intro k h
      have hc : hexValue c = c.toNat - '0'.toNat := by simp [hexValue, h c List.mem_cons_self]
      rw [List.foldl_cons, ih _ fun d hd => h d (List.mem_cons_of_mem c hd), hc,
        Nat.ofDigitChars_cons, Nat.mul_comm]
  rw [Text.ofDigits, List.foldl_map, hfold _ 0 fun _ => isDigit_of_mem,
    Nat.ofDigitChars_toDigits (by decide) (by decide)]

/-- The digits of a number that can be written are not too many to be read. -/
theorem value_toDigits {n : Nat} (hn : Text.isWritable n = true) :
    (Digits.decimal (Nat.toDigits 10 n)).value = .ok n := by
  have hlength : ((Nat.toDigits 10 n).map hexValue).length ≤ Text.digitLimit := by
    rw [List.length_map]
    exact of_decide_eq_true hn
  rw [Digits.value, Text.readDecimal, if_pos hlength, ofDigits_toDigits]

theorem toList_toString_ofNat (n : Nat) :
    (toString (n : Int)).toList = Nat.toDigits 10 n := by
  rw [show toString (n : Int) = n.repr from rfl, Nat.toList_repr]

theorem toList_toString_neg {n : Int} (h : n < 0) :
    (toString n).toList = '-' :: Nat.toDigits 10 (-n).toNat := by
  rw [Int.toString_eq_repr, Int.repr_eq_if, if_neg (by omega), String.toList_append,
    Nat.toList_repr]
  rfl

theorem mem_toString {n : Int} {c : Char} (h : c ∈ (toString n).toList) :
    c = '-' ∨ c.isDigit = true := by
  rcases Int.lt_or_le n 0 with hn | hn
  · rw [toList_toString_neg hn, List.mem_cons] at h
    exact h.imp_right isDigit_of_mem
  · obtain ⟨k, rfl⟩ := Int.eq_ofNat_of_zero_le hn
    rw [toList_toString_ofNat] at h
    exact .inr (isDigit_of_mem h)

/-- A printed number is read as a number of its value, if it can be written. -/
theorem number_append (n : Int) :
    ∃ x : Number, (Text.isWritable n = true → x.value = .ok n) ∧
      ∀ rest, stops isNameChar rest = true →
        number ((toString n).toList ++ rest) = some (x, rest) := by
  rcases Int.lt_or_le n 0 with hn | hn
  · refine ⟨⟨true, .decimal (Nat.toDigits 10 (-n).toNat)⟩, fun hw => ?_, fun rest hrest => ?_⟩
    · have habs : (((-n).toNat : Nat) : Int).natAbs = n.natAbs := by omega
      have hvalue := value_toDigits (n := (-n).toNat) (by rwa [Text.isWritable, habs])
      refine Attempt.bind_eq_ok.mpr ⟨_, hvalue, congrArg Except.ok ?_⟩
      rw [if_pos rfl]
      omega
    · rw [toList_toString_neg hn]
      refine bind_of (optional_some (exactly_append "-" _)) ?_
      exact bind_of (digits_append _ hrest) rfl
  · obtain ⟨k, rfl⟩ := Int.eq_ofNat_of_zero_le hn
    refine ⟨⟨false, .decimal (Nat.toDigits 10 k)⟩, fun hw => ?_, fun rest hrest => ?_⟩
    · exact Attempt.bind_eq_ok.mpr ⟨_, value_toDigits hw, rfl⟩
    · rw [toList_toString_ofNat]
      have hsign : exactly "-" (Nat.toDigits 10 k ++ rest) = none := by
        obtain ⟨d, ds, hds, hd⟩ := toDigits_head k
        rw [hds]
        refine exactly_none rfl ?_
        rintro rfl
        cases hd
      refine bind_of (optional_none hsign) ?_
      exact bind_of (digits_append _ hrest) rfl

end Numbers

section Strings

theorem letters_spec : ∀ e ∈ Text.Escaped.letters,
    Text.Escaped.decodeChar e.1 = e.2 ∧ e.1 ≠ '\n' := by
  decide

/-- A character of a literal is read as a piece that stands for it. -/
theorem piece_append (c : Char) :
    ∃ x : Piece, x.value = c ∧
      ∀ rest, piece (Text.Escaped.encodeChar c ++ rest) = some (x, rest) := by
  have hback : ∀ d r, d ≠ '\n' → piece ('\\' :: d :: r) = some (.escaped d, r) := by
    intro d r hd
    refine (orElse_none (map_none (satisfying_none rfl))).trans ?_
    refine bind_of (exactly_append "\\" (d :: r)) ?_
    exact bind_of (satisfying_some (by simpa using hd)) rfl
  unfold Text.Escaped.encodeChar
  split
  · rename_i h
    refine ⟨.escaped c, ?_, fun rest => hback c rest ?_⟩
    · rcases h with rfl | rfl <;> rfl
    · rcases h with rfl | rfl <;> decide
  · rename_i h
    split
    · rename_i e he
      obtain ⟨hvalue, hline⟩ := letters_spec e (List.mem_of_find?_eq_some he)
      have hc : e.2 = c := by simpa using List.find?_some he
      exact ⟨.escaped e.1, hvalue.trans hc, fun rest => hback e.1 rest hline⟩
    · rw [not_or] at h
      refine ⟨.plain c, rfl, fun rest => orElse_some (map_some (satisfying_some ?_))⟩
      simp [h.1, h.2]

theorem run_pieces (cs : List Char) :
    ∃ ps : List Piece, ps.map Piece.value = cs ∧ ∀ rest,
      Run piece (cs.flatMap Text.Escaped.encodeChar ++ '"' :: rest) ps ('"' :: rest) := by
  induction cs with
  | nil => exact ⟨[], rfl, fun rest => .stop rfl⟩
  | cons c cs ih =>
    obtain ⟨x, hx, hread⟩ := piece_append c
    obtain ⟨ps, hps, hrun⟩ := ih
    refine ⟨x :: ps, by rw [List.map_cons, hx, hps], fun rest => ?_⟩
    rw [List.flatMap_cons, List.append_assoc]
    refine .step (hread _) ?_ (hrun rest)
    have hlen : 0 < (Text.Escaped.encodeChar c).length := by
      unfold Text.Escaped.encodeChar
      split
      · simp
      · split <;> simp
    simp only [List.length_append]
    omega

/-- A printed literal is read to its end, as pieces that stand for its text. -/
theorem stringLiteral_encode (cs : List Char) :
    ∃ ps : List Piece, ps.map Piece.value = cs ∧ ∀ rest,
      stringLiteral (Text.Escaped.encode cs ++ rest) = some (ps, rest) := by
  obtain ⟨ps, hps, hrun⟩ := run_pieces cs
  refine ⟨ps, hps, fun rest => ?_⟩
  rw [Text.Escaped.encode, List.cons_append, List.cons_append, List.append_assoc]
  refine bind_of (exactly_append "\"" _) ?_
  refine bind_of (hrun rest).many ?_
  exact bind_of (exactly_append "\"" rest) rfl

end Strings

section Starts

variable {c : Char}

/-- The characters that an atom begins with. -/
def isAtomStart (c : Char) : Bool :=
  isNameChar c || c == '-' || c == '"'

theorem isSolid_of_isAtomStart (h : isAtomStart c = true) : isSolid c = true := by
  simp only [isAtomStart, Bool.or_eq_true, beq_iff_eq] at h
  rcases h with (h | rfl) | rfl
  · exact isSolid_of_isNameChar h
  · rfl
  · rfl

theorem isNameChar_of_isDigit (h : c.isDigit = true) : isNameChar c = true := by
  simp [isNameChar, Char.isAlphanum, h]

theorem isDigit_of_isNameStart (h : isNameStart c = true) : c.isDigit = false := by
  simp only [isNameStart, Char.isAlpha, Char.isUpper, Char.isLower, Bool.or_eq_true,
    Bool.and_eq_true, decide_eq_true_eq, beq_iff_eq, ge_iff_le, UInt32.le_iff_toNat_le] at h
  change ((((65 ≤ c.toNat ∧ c.toNat ≤ 90) ∨ (97 ≤ c.toNat ∧ c.toNat ≤ 122)) ∨ c = '_') ∨
    c = '$') at h
  rw [← Bool.not_eq_true, Char.isDigit, Bool.and_eq_true, decide_eq_true_eq, decide_eq_true_eq,
    ge_iff_le, UInt32.le_iff_toNat_le, UInt32.le_iff_toNat_le]
  change ¬ (48 ≤ c.toNat ∧ c.toNat ≤ 57)
  rcases h with ((h | h) | rfl) | rfl
  · omega
  · omega
  · decide
  · decide

theorem isNameStart_of_isDigit (h : c.isDigit = true) : isNameStart c = false := by
  rw [← Bool.not_eq_true]
  intro hs
  cases h.symm.trans (isDigit_of_isNameStart hs)

theorem number_none (hminus : c ≠ '-') (hdigit : c.isDigit = false) : number (c :: r) = none := by
  have hzero : c ≠ '0' := by
    rintro rfl
    cases hdigit
  refine (bind_of (optional_none (exactly_none rfl hminus)) rfl).trans ?_
  apply bind_none
  refine (orElse_none (bind_none (exactly_none rfl hzero))).trans ?_
  exact bind_none (bind_none (satisfying_none hdigit))

theorem stringLiteral_none (h : c ≠ '"') : stringLiteral (c :: r) = none :=
  bind_none (exactly_none rfl h)

/-- Where no number and no string is read, only `null` is left. -/
theorem literal_apply (hminus : c ≠ '-') (hdigit : c.isDigit = false) (hquote : c ≠ '"') :
    literal (c :: r) = (do exactly "null"; return Atom.null : Reader Atom) (c :: r) :=
  (orElse_none (map_none (number_none hminus hdigit))).trans
    (orElse_none (map_none (stringLiteral_none hquote)))

theorem atom_none (h : isAtomStart c = false) : atom (c :: r) = none := by
  simp only [isAtomStart, Bool.or_eq_false_iff, beq_eq_false_iff_ne] at h
  obtain ⟨⟨hname, hminus⟩, hquote⟩ := h
  have hdigit : c.isDigit = false := by
    rw [← Bool.not_eq_true]
    intro hd
    cases (isNameChar_of_isDigit hd).symm.trans hname
  have hn : c ≠ 'n' := by
    rintro rfl
    cases hname
  have hstart : isNameStart c = false := by
    rw [← Bool.not_eq_true]
    intro hs
    cases (isNameChar_of_isNameStart hs).symm.trans hname
  have hliteral : literal (c :: r) = none := by
    rw [literal_apply hminus hdigit hquote]
    exact bind_none (exactly_none rfl hn)
  rw [atom, orElse_none hliteral]
  exact map_none (wordOf_none hstart)

theorem literal_null : literal ("null".toList ++ r) = some (.null, r) :=
  (literal_apply (by decide) rfl (by decide)).trans (bind_of (exactly_append "null" r) rfl)

theorem atom_null : atom ("null".toList ++ r) = some (.null, r) :=
  orElse_some literal_null

/-- A name is no literal, unless it begins with `null`. -/
theorem literal_none {x : List Char} (hx : IsName x) (hnull : ¬ "null".toList <+: x)
    (hrest : stops isNameChar rest = true) : literal (x ++ rest) = none := by
  have hnone : exactly "null" (x ++ rest) = none := by
    rw [Option.eq_none_iff_forall_ne_some]
    intro y hy
    obtain ⟨z, hz, _⟩ := literal_in_word rfl hrest (exactly_eq_some.mp hy)
    exact hnull ⟨z, hz.symm⟩
  cases x with
  | nil => exact hx.elim
  | cons c x =>
    have hminus : c ≠ '-' := by
      rintro rfl
      cases hx.1
    have hquote : c ≠ '"' := by
      rintro rfl
      cases hx.1
    rw [List.cons_append, literal_apply hminus (isDigit_of_isNameStart hx.1) hquote]
    exact bind_none hnone

/-- A name in front of what cannot continue it is read as an atom, unless it begins with `null`. -/
theorem atom_name {x : List Char} (hx : IsName x) (hnull : ¬ "null".toList <+: x)
    (hrest : stops isNameChar rest = true) : atom (x ++ rest) = some (.name x, rest) :=
  (orElse_none (literal_none hx hnull hrest)).trans (map_some (name_append hx hrest))

end Starts

end Source

open Source Reader

variable {s : Scope} {e : Expr}

theorem Source.Scope.Knows.lookup {v : Var} (h : s.Knows v) (p : Pos) :
    s.lookup p v.name.toList = .ok v := by
  rw [Scope.lookup, String.ofList_toList, h.named]

theorem toString_head (n : Int) :
    ∃ c r, (toString n).toList = c :: r ∧ (c = '-' ∨ c.isDigit = true) := by
  rcases Int.lt_or_le n 0 with hn | hn
  · exact ⟨_, _, toList_toString_neg hn, .inl rfl⟩
  · obtain ⟨k, rfl⟩ := Int.eq_ofNat_of_zero_le hn
    obtain ⟨d, ds, hds, hd⟩ := toDigits_head k
    exact ⟨d, ds, (toList_toString_ofNat k).trans hds, .inr hd⟩

namespace Expr

theorem text_int (n : Int) : (Expr.int n).text = toString n := rfl

theorem text_str (x : String) :
    (Expr.str x).text.toList = Text.Escaped.encode x.toList := by
  rw [text, String.toList_ofList]

theorem IsLegibleAtom.head (h : e.IsLegibleAtom s) :
    ∃ c r, e.text.toList = c :: r ∧ isAtomStart c = true := by
  cases e with
  | var v =>
    obtain ⟨c, r, hr⟩ := List.exists_cons_of_ne_nil h.1.isName.ne_nil
    refine ⟨c, r, hr, ?_⟩
    have hc := h.1.isName.all_isNameChar c (hr ▸ List.mem_cons_self)
    simp [isAtomStart, hc]
  | int n =>
    obtain ⟨c, r, hr, hc⟩ := toString_head n
    refine ⟨c, r, hr, ?_⟩
    rcases hc with rfl | hc
    · rfl
    · simp [isAtomStart, isNameChar_of_isDigit hc]
  | str x => exact ⟨'"', _, text_str x, rfl⟩
  | null => exact ⟨'n', _, rfl, rfl⟩
  | _ => exact h.elim

/-- The text of an atom is read as an atom that means the same. -/
theorem IsLegibleAtom.reads (h : e.IsLegibleAtom s) (hw : e.IsWritable) :
    ∃ a : Atom, (∀ p, a.meaning s p = .ok e) ∧
      ∀ rest, stops isNameChar rest = true → atom (e.text.toList ++ rest) = some (a, rest) := by
  cases e with
  | var v =>
    refine ⟨.name v.name.toList, fun p => ?_, fun rest hrest => ?_⟩
    · rw [Atom.meaning, h.1.lookup]
      rfl
    · exact atom_name h.1.isName h.2 hrest
  | int n =>
    obtain ⟨x, hx, hread⟩ := number_append n
    refine ⟨.int x, fun p => ?_, fun rest hrest => ?_⟩
    · rw [Atom.meaning, hx (isWritable_int.mp hw)]
      rfl
    · exact orElse_some (orElse_some (map_some (hread rest hrest)))
  | str x =>
    obtain ⟨ps, hps, hread⟩ := stringLiteral_encode x.toList
    refine ⟨.string ps, fun p => by rw [Atom.meaning, hps, String.ofList_toList],
      fun rest _ => ?_⟩
    have hnone : ∀ r, number ('"' :: r) = none := fun r => number_none (by decide) rfl
    rw [text_str]
    refine orElse_some ((orElse_none (map_none (hnone _))).trans ?_)
    exact orElse_some (map_some (hread rest))
  | null =>
    refine ⟨.null, fun p => rfl, fun rest _ => orElse_some ?_⟩
    exact (literal_apply (by decide) rfl (by decide)).trans
      (bind_of (exactly_append "null" rest) rfl)
  | _ => exact h.elim

theorem IsLegibleAtom.opensFreely {rest : List Char} (h : e.IsLegibleAtom s)
    (hrest : stops isNameChar rest = true) : OpensFreely (e.text.toList ++ rest) := by
  cases e with
  | var v => exact h.1.isName.opensFreely hrest
  | int n =>
    obtain ⟨c, r, hr, hc⟩ := toString_head n
    rw [text_int, hr]
    apply opensFreely_cons
    rcases hc with rfl | hc
    · rfl
    · exact isNameStart_of_isDigit hc
  | str x =>
    rw [text_str]
    exact opensFreely_cons rfl
  | null =>
    intro k hk hnull r h
    simp only [keywords, List.mem_cons, List.not_mem_nil, or_false] at hk
    change 'n' :: 'u' :: 'l' :: 'l' :: rest = k.toList ++ r at h
    rcases hk with rfl | rfl | rfl | rfl | rfl | rfl | rfl | rfl | rfl | rfl | rfl | rfl
    all_goals first | exact absurd rfl hnull | cases h
  | _ => exact h.elim

end Expr

end MethodFlow
