import Mathlib
import MethodFlow.Proofs.ReaderLaws
import MethodFlow.Source.Word

/-!
Words as they stand in a text: which texts are words, and that a word is read off the front of a
text that does not go on with it.
-/

namespace MethodFlow.Source

open Reader

/-- The words that are no keyword and begin with none that ends before a `$`. -/
def IsWordOf (isChar : Char → Bool) : List Char → Prop
  | [] => False
  | c :: r => isNameStart c = true ∧ (∀ d ∈ r, isChar d = true) ∧ afterKeyword? (c :: r) = none

abbrev IsName : List Char → Prop :=
  IsWordOf isNameChar

section Characters

variable {c : Char}

theorem isNameChar_of_isNameStart (h : isNameStart c = true) : isNameChar c = true := by
  simp only [isNameStart, isNameChar, Char.isAlphanum, Bool.or_eq_true] at h ⊢
  rcases h with (h | h) | h
  · exact .inl (.inl (.inl h))
  · exact .inl (.inr h)
  · exact .inr h

theorem isTypeChar_of_isNameChar (h : isNameChar c = true) : isTypeChar c = true := by
  simp [isTypeChar, h]

/-- Names and types consist of printable characters of ASCII. -/
theorem isTypeChar_range (h : isTypeChar c = true) : 0x24 ≤ c.toNat ∧ c.toNat ≤ 0x7A := by
  simp only [isTypeChar, isNameChar, Char.isAlphanum, Char.isAlpha, Char.isUpper, Char.isLower,
    Char.isDigit, Bool.or_eq_true, Bool.and_eq_true, decide_eq_true_eq, beq_iff_eq, ge_iff_le,
    UInt32.le_iff_toNat_le] at h
  change (((((65 ≤ c.toNat ∧ c.toNat ≤ 90) ∨ (97 ≤ c.toNat ∧ c.toNat ≤ 122)) ∨
    (48 ≤ c.toNat ∧ c.toNat ≤ 57)) ∨ c = '_') ∨ c = '$') ∨ c = '.' at h
  rcases h with ((((h | h) | h) | rfl) | rfl) | rfl
  · omega
  · omega
  · omega
  · decide
  · decide
  · decide

theorem isBlank_eq_false (h : 0x24 ≤ c.toNat ∧ c.toNat ≤ 0x7A) : Text.isBlank c = false := by
  simp [Text.isBlank]
  omega

theorem isSolid_of_isNameChar (h : isNameChar c = true) : isSolid c = true := by
  have hb := isBlank_eq_false (isTypeChar_range (isTypeChar_of_isNameChar h))
  have hc : c ≠ '/' := by
    rintro rfl
    cases h
  simp [isSolid, hb, hc]

end Characters

section Words

variable {x : List Char} {isChar : Char → Bool}

theorem IsWordOf.ne_nil (h : IsWordOf isChar x) : x ≠ [] := by
  rintro rfl
  exact h

theorem IsWordOf.free (h : IsWordOf isChar x) : afterKeyword? x = none := by
  cases x with
  | nil => exact h.elim
  | cons c r => exact h.2.2

theorem IsWordOf.all_isNameChar (h : IsName x) : ∀ c ∈ x, isNameChar c = true := by
  cases x with
  | nil => exact h.elim
  | cons c r =>
    intro d hd
    rcases List.mem_cons.mp hd with rfl | hd
    · exact isNameChar_of_isNameStart h.1
    · exact h.2.1 d hd

theorem IsWordOf.isTypeWord (h : IsName x) : IsWordOf isTypeChar x := by
  cases x with
  | nil => exact h.elim
  | cons c r => exact ⟨h.1, fun d hd => isTypeChar_of_isNameChar (h.2.1 d hd), h.2.2⟩

end Words

section Keywords

variable {x rest r : List Char} {k : String} {isChar : Char → Bool}

theorem afterKeyword?_eq_none {cs : List Char} :
    afterKeyword? cs = none ↔ ∀ k ∈ keywords, ∀ r, cs = k.toList ++ r → endsWord r = false := by
  simp [afterKeyword?, after?_eq_some, Option.filter_eq_none_iff]

/-- A literal of name characters at the front of a word ends inside the word. -/
theorem literal_in_word (hk : k.toList.all isNameChar = true)
    (hrest : stops isNameChar rest = true) (h : x ++ rest = k.toList ++ r) :
    ∃ z, x = k.toList ++ z ∧ r = z ++ rest := by
  rcases List.append_eq_append_iff.mp h with ⟨z, hz, hr⟩ | ⟨z, hx, hr⟩
  · cases z with
    | nil => exact ⟨[], by simpa using hz.symm, by simpa using hr.symm⟩
    | cons c z =>
      have hc := List.all_eq_true.mp hk c (by simp [hz])
      simp [hr, stops, hc] at hrest
  · exact ⟨z, hx, hr⟩

theorem isNameChar_of_mem_keyword (hk : k ∈ keywords) : k.toList.all isNameChar = true := by
  have hall : keywords.all (fun k => k.toList.all isNameChar) = true := rfl
  exact List.all_eq_true.mp hall k hk

/-- No keyword begins with a character that begins no name. -/
theorem keyword_literal_none {c : Char} (hk : k ∈ keywords) (hc : isNameStart c = false) :
    exactly k (c :: r) = none := by
  have hall : ∀ k ∈ keywords, k.toList.head?.any isNameStart = true := by decide
  obtain ⟨d, hd, hstart⟩ := (Option.any_eq_true _ _).mp (hall k hk)
  refine exactly_none hd ?_
  rintro rfl
  cases hstart.symm.trans hc

theorem afterKeyword?_append (hx : afterKeyword? x = none)
    (hrest : stops isNameChar rest = true) : afterKeyword? (x ++ rest) = none := by
  rw [afterKeyword?_eq_none] at hx ⊢
  intro k hk r h
  obtain ⟨z, rfl, rfl⟩ := literal_in_word (isNameChar_of_mem_keyword hk) hrest h
  have hz := hx k hk z rfl
  cases z with
  | nil => cases hz
  | cons c z => exact hz

theorem afterKeyword?_of_append (h : afterKeyword? (x ++ rest) = none)
    (hrest : endsWord rest = true) : afterKeyword? x = none := by
  rw [afterKeyword?_eq_none] at h ⊢
  intro k hk z hz
  have hr := h k hk (z ++ rest) (by rw [hz, List.append_assoc])
  cases z with
  | nil => cases hr.symm.trans hrest
  | cons c z => exact hr

/-- Behind any keyword but `null` at its front, a text goes on with a name: no phrase that begins
with such a keyword can be read. -/
def OpensFreely (cs : List Char) : Prop :=
  ∀ k ∈ keywords, k ≠ "null" → ∀ r, cs = k.toList ++ r → ∃ c z, r = c :: z ∧ isNameChar c = true

theorem OpensFreely.keyword_none {α : Type} {f : Unit → Reader α} {cs : List Char}
    (h : OpensFreely cs) (hk : k ∈ keywords) (hnull : k ≠ "null")
    (hf : ∀ c z, isNameChar c = true → f () (c :: z) = none) : (exactly k >>= f) cs = none := by
  apply bind_none_of
  intro u r hr
  obtain ⟨c, z, rfl, hc⟩ := h k hk hnull r (exactly_eq_some.mp hr)
  exact hf c z hc

theorem IsWordOf.opensFreely (hx : IsName x) (hrest : stops isNameChar rest = true) :
    OpensFreely (x ++ rest) := by
  intro k hk _ r h
  obtain ⟨z, rfl, rfl⟩ := literal_in_word (isNameChar_of_mem_keyword hk) hrest h
  cases hz : z with
  | nil =>
    have hfree := afterKeyword?_eq_none.mp hx.free k hk [] (by rw [hz])
    cases hfree
  | cons c z =>
    exact ⟨c, z ++ rest, rfl, hx.all_isNameChar c (by simp [hz])⟩

theorem opensFreely_cons {c : Char} (hc : isNameStart c = false) : OpensFreely (c :: r) := by
  intro k hk _ r' h
  have hread : exactly k (c :: r) = some ((), r') := exactly_eq_some.mpr h
  cases (keyword_literal_none hk hc).symm.trans hread

end Keywords

section Reading

variable {x cs rest : List Char} {isChar : Char → Bool}

theorem stops_of_imp (hsub : ∀ c, isNameChar c = true → isChar c = true)
    (h : stops isChar rest = true) : stops isNameChar rest = true := by
  cases rest with
  | nil => rfl
  | cons c r =>
    simp only [stops, Bool.not_eq_true'] at h ⊢
    exact Bool.eq_false_iff.mpr fun hc => Bool.eq_false_iff.mp h (hsub c hc)

theorem wordOf_append (hsub : ∀ c, isNameChar c = true → isChar c = true) (hx : IsWordOf isChar x)
    (hrest : stops isChar rest = true) : wordOf isChar (x ++ rest) = some (x, rest) := by
  obtain ⟨c, r, rfl⟩ := List.exists_cons_of_ne_nil hx.ne_nil
  have hstop := stops_of_imp hsub hrest
  have hfree : ahead (fun cs => (afterKeyword? cs).isNone) (c :: r ++ rest) =
      some ((), c :: r ++ rest) := by
    simp only [ahead, afterKeyword?_append hx.free hstop, Option.isNone_none, if_true]
  refine bind_of hfree ?_
  refine bind_of (satisfying_some hx.1) ?_
  exact bind_of (span_append hx.2.1 hrest) rfl

theorem name_append (hx : IsName x) (hrest : stops isNameChar rest = true) :
    name (x ++ rest) = some (x, rest) :=
  wordOf_append (fun _ h => h) hx hrest

/-- What is read as a word is one, unless it goes on with a letter that no word is made of. -/
theorem wordOf_eq_some (h : wordOf isChar cs = some (x, rest)) :
    cs = x ++ rest ∧ stops isChar rest = true ∧ (endsWord rest = true → IsWordOf isChar x) := by
  obtain ⟨u, cs', hfree, h⟩ := bind_eq_some.mp h
  obtain ⟨c, r, hc, h⟩ := bind_eq_some.mp h
  obtain ⟨z, r', hz, h⟩ := bind_eq_some.mp h
  cases h
  rw [ahead, Option.ite_none_right_eq_some] at hfree
  obtain ⟨hkey, hcs⟩ := hfree
  cases hcs
  obtain ⟨rfl, hstart⟩ := satisfying_eq_some.mp hc
  obtain ⟨rfl, hall, hstop⟩ := span_eq_some hz
  refine ⟨rfl, hstop, fun hend => ⟨hstart, hall, ?_⟩⟩
  exact afterKeyword?_of_append (Option.isNone_iff_eq_none.mp hkey) hend

/-- No word begins with a character that begins no name. -/
theorem wordOf_none {c : Char} {r : List Char} (h : isNameStart c = false) :
    wordOf isChar (c :: r) = none := by
  apply bind_none_of
  intro u cs' hfree
  rw [ahead, Option.ite_none_right_eq_some] at hfree
  cases hfree.2
  exact bind_none (satisfying_none h)

/-- No word begins with a whole keyword. -/
theorem wordOf_keyword {k : String} {r : List Char} (hk : k ∈ keywords) (hr : endsWord r = true) :
    wordOf isChar (k.toList ++ r) = none := by
  have hkey : afterKeyword? (k.toList ++ r) ≠ none := by
    intro h
    cases (afterKeyword?_eq_none.mp h k hk r rfl).symm.trans hr
  apply bind_none
  rw [ahead, if_neg (by simpa using hkey)]

end Reading

end MethodFlow.Source
