import MethodFlow.Config
import MethodFlow.Proofs.AtomText
import MethodFlow.Proofs.Attempt
import MethodFlow.Proofs.TextCuts

/-!
The text of options. Values keep their kind: what was read as a truth value, a number or another
text is shown as a text that is read so again. The text of an option adds that option.
-/

namespace MethodFlow

open Source

namespace Text

variable {c : Char} {n : Int}

theorem digitValue?_of_isDigit (h : c.isDigit = true) : digitValue? c = some (hexValue c) := by
  have hrange : 0x30 ≤ c.toNat ∧ c.toNat ≤ 0x39 := Char.isDigit_iff_toNat.mp h
  rw [digitValue?, digitZeros, List.find?_cons_of_pos (by simpa using hrange), hexValue, if_pos h]
  rfl

theorem mapM_digitValue? {ds : List Char} (h : ∀ c ∈ ds, c.isDigit = true) :
    ds.mapM digitValue? = some (ds.map hexValue) := by
  induction ds with
  | nil => rfl
  | cons c ds ih =>
    obtain ⟨hc, hds⟩ := List.forall_mem_cons.mp h
    rw [List.mapM_cons, digitValue?_of_isDigit hc, ih hds]
    rfl

theorem magnitude?_toDigits {n : Nat} (h : isWritable n = true) :
    wholeNumber?.magnitude? (Nat.toDigits 10 n) = .ok (some n) := by
  obtain ⟨d, ds, hds, _⟩ := toDigits_head n
  have hread := mapM_digitValue? fun _ => isDigit_of_mem (n := n)
  have hlength : ((Nat.toDigits 10 n).map hexValue).length ≤ digitLimit := by
    rw [List.length_map]
    exact of_decide_eq_true h
  have hempty : (Nat.toDigits 10 n).isEmpty = false := by rw [hds, List.isEmpty_cons]
  rw [wholeNumber?.magnitude?, hempty, if_neg Bool.false_ne_true, hread, Option.mapM_some,
    readDecimal, if_pos hlength, ofDigits_toDigits]
  rfl

/-- A number that can be written is read off its own text. -/
theorem wholeNumber?_toString {n : Int} (h : isWritable n = true) :
    wholeNumber? (toString n).toList = .ok (some n) := by
  rcases Int.lt_or_le n 0 with hn | hn
  · have habs : (((-n).toNat : Nat) : Int).natAbs = n.natAbs := by omega
    have hread := magnitude?_toDigits (n := (-n).toNat) (by rwa [isWritable, habs])
    have hneg : -(((-n).toNat : Nat) : Int) = n := by omega
    rw [toList_toString_neg hn, wholeNumber?, hread]
    exact congrArg (fun k => Except.ok (some k)) hneg
  · obtain ⟨k, rfl⟩ := Int.eq_ofNat_of_zero_le hn
    obtain ⟨d, ds, hds, hd⟩ := toDigits_head k
    have hminus : d ≠ '-' := by
      rintro rfl
      cases hd
    have hread := magnitude?_toDigits h
    rw [hds] at hread
    rw [toList_toString_ofNat, hds, wholeNumber?, hread]
    · rfl
    · intro cs hcs
      cases hcs
      exact hminus rfl

theorem digitValue?_le {v : Nat} (h : digitValue? c = some v) : v ≤ 9 := by
  obtain ⟨z, hz, rfl⟩ := Option.map_eq_some_iff.mp h
  have hrange := List.find?_some hz
  simp only [Bool.and_eq_true, decide_eq_true_eq] at hrange
  omega

theorem le_of_mapM_digitValue? {cs : List Char} {ds : List Nat}
    (h : cs.mapM digitValue? = some ds) : ∀ d ∈ ds, d ≤ 9 := by
  induction cs generalizing ds with
  | nil =>
    cases h
    exact List.forall_mem_nil _
  | cons c cs ih =>
    rw [List.mapM_cons] at h
    obtain ⟨d, hd, h⟩ := Option.bind_eq_some_iff.mp h
    obtain ⟨ds', hds, h⟩ := Option.bind_eq_some_iff.mp h
    cases h
    exact List.forall_mem_cons (p := (· ≤ 9)).mpr ⟨digitValue?_le hd, ih hds⟩

theorem ofDigits_lt {ds : List Nat} (h : ∀ d ∈ ds, d ≤ 9) : ofDigits 10 ds < 10 ^ ds.length := by
  have hfold : ∀ k, ds.foldl (fun n d => n * 10 + d) k < (k + 1) * 10 ^ ds.length := by
    induction ds with
    | nil => simp
    | cons d ds ih =>
      intro k
      obtain ⟨hd, hds⟩ := List.forall_mem_cons.mp h
      have hstep : (k * 10 + d + 1) * 10 ^ ds.length ≤ (k + 1) * 10 * 10 ^ ds.length :=
        Nat.mul_le_mul_right _ (by omega)
      rw [List.foldl_cons, List.length_cons, Nat.pow_succ', ← Nat.mul_assoc]
      exact (ih hds _).trans_le hstep
  have hzero := hfold 0
  rwa [Nat.zero_add, Nat.one_mul] at hzero

/-- A number that is read has no more digits than can be written. -/
theorem isWritable_of_magnitude? {cs : List Char} {k : Nat}
    (h : wholeNumber?.magnitude? cs = .ok (some k)) : isWritable k = true := by
  unfold wholeNumber?.magnitude? at h
  split at h
  · cases h
  · cases hds : cs.mapM digitValue? with
    | none =>
      rw [hds] at h
      cases h
    | some ds =>
      rw [hds, Option.mapM_some] at h
      obtain ⟨m, hm, h⟩ := Attempt.bind_eq_ok.mp h
      cases h
      unfold readDecimal at hm
      split at hm
      · rename_i hlength
        cases hm
        have hlt := (ofDigits_lt (le_of_mapM_digitValue? hds)).trans_le
          (Nat.pow_le_pow_right (by decide) hlength)
        exact decide_eq_true ((Nat.length_toDigits_le_iff (by decide) (by decide)).mpr hlt)
      · cases hm

theorem isWritable_of_wholeNumber? {cs : List Char} (h : wholeNumber? cs = .ok (some n)) :
    isWritable n = true := by
  unfold wholeNumber? at h
  split at h
  · obtain ⟨k, hk, h⟩ := Attempt.bind_eq_ok.mp h
    cases k with
    | none => cases h
    | some k =>
      have hn : n = -(k : Int) := (Option.some.inj (Except.ok.inj h)).symm
      rw [hn, isWritable, Int.natAbs_neg]
      exact isWritable_of_magnitude? hk
  · obtain ⟨k, hk, h⟩ := Attempt.bind_eq_ok.mp h
    cases k with
    | none => cases h
    | some k =>
      have hn : n = (k : Int) := (Option.some.inj (Except.ok.inj h)).symm
      rw [hn]
      exact isWritable_of_magnitude? hk

theorem isSpacing_of_mem_toString (h : c ∈ (toString n).toList) :
    isSpacing c = false := by
  rcases mem_toString h with rfl | hc
  · rfl
  · exact isSpacing_of_isTypeChar (isTypeChar_of_isNameChar (isNameChar_of_isDigit hc))

end Text

namespace OptionValue

open Text

variable {c : Char} {cs r : List Char}

theorem toLower_of_isDigit (h : c.isDigit = true) : c.toLower = c ∧ c.isLower = false := by
  have hrange : 0x30 ≤ c.toNat ∧ c.toNat ≤ 0x39 := Char.isDigit_iff_toNat.mp h
  have hupper : ¬ c.isUpper = true := by
    simp [Char.isUpper, UInt32.le_iff_toNat_le]
    omega
  have hlower : ¬ c.isLower = true := by
    simp [Char.isLower, UInt32.le_iff_toNat_le]
    omega
  exact ⟨Char.toLower_eq_of_not_isUpper hupper, Bool.eq_false_of_not_eq_true hlower⟩

/-- The words for truth values begin with letters, which no number does. -/
theorem notMem_words (hc : c = '-' ∨ c.isDigit = true) :
    String.ofList ((c :: r).map Char.toLower) ∉ truths ++ falsehoods := by
  have hall : ∀ w ∈ truths ++ falsehoods, w.toList.head?.any Char.isLower = true := by decide
  have hlower : c.toLower = c ∧ c.isLower = false := by
    rcases hc with rfl | hc
    · decide
    · exact toLower_of_isDigit hc
  intro hmem
  have hw := hall _ hmem
  rw [String.toList_ofList, List.map_cons, List.head?_cons, Option.any_some, hlower.1,
    hlower.2] at hw
  cases hw

theorem ofText_toString {n : Int} (h : isWritable n = true) :
    ofText (toString n).toList = .ok (int n) := by
  obtain ⟨c, r, hcs, hc⟩ := toString_head n
  have hwords := notMem_words (r := r) hc
  rw [List.mem_append, not_or, ← hcs] at hwords
  have htrim := (isTrimmed_of_solid fun _ => isSpacing_of_mem_toString (n := n)).trim_eq_self
  rw [ofText, htrim, if_neg hwords.1, if_neg hwords.2, wholeNumber?_toString h, Attempt.ok_bind,
    Option.elim_some]
  rfl

/-- The text of a value if its number, where it is one, can be written. -/
def text : OptionValue → String
  | bool true => "True"
  | bool false => "False"
  | int n => toString n
  | str s => s

/-- A text is read as a truth value, as a number, or as itself without the spacing around it. -/
theorem cases_of_ofText {v : OptionValue} (h : ofText cs = .ok v) :
    (∃ b, v = bool b) ∨ (∃ n, v = int n ∧ isWritable n = true) ∨
      v = str (String.ofList (trim cs)) := by
  simp only [ofText] at h
  split at h
  · cases h
    exact .inl ⟨true, rfl⟩
  · split at h
    · cases h
      exact .inl ⟨false, rfl⟩
    · obtain ⟨n, hn, h⟩ := Attempt.bind_eq_ok.mp h
      cases n with
      | none =>
        cases h
        exact .inr (.inr rfl)
      | some n =>
        cases h
        exact .inr (.inl ⟨n, rfl, isWritable_of_wholeNumber? hn⟩)

variable {v : OptionValue}

/-- A value that was read can be written. -/
theorem render_of_ofText (h : ofText cs = .ok v) : v.render = .ok v.text := by
  rcases cases_of_ofText h with ⟨b, rfl⟩ | ⟨n, rfl, hn⟩ | rfl
  · cases b <;> rfl
  · exact if_pos hn
  · rfl

/-- A value that was read is read off its own text. -/
theorem ofText_text (h : ofText cs = .ok v) : ofText v.text.toList = .ok v := by
  rcases cases_of_ofText h with ⟨b, rfl⟩ | ⟨n, rfl, hn⟩ | rfl
  · cases b <;> rfl
  · exact ofText_toString hn
  · have hagain : ofText (trim cs) = ofText cs := by
      rw [ofText, (isTrimmed_trim cs).trim_eq_self]
      rfl
    rw [text, String.toList_ofList, hagain, h]

theorem isTrimmed_text (h : ofText cs = .ok v) : IsTrimmed v.text.toList := by
  rcases cases_of_ofText h with ⟨b, rfl⟩ | ⟨n, rfl, _⟩ | rfl
  · have hword : (bool b).text.toList.all isTypeChar = true := by cases b <;> rfl
    exact isTrimmed_of_solid fun c hc => isSpacing_of_isTypeChar (List.all_eq_true.mp hword c hc)
  · exact isTrimmed_of_solid fun _ => isSpacing_of_mem_toString
  · rw [text, String.toList_ofList]
    exact isTrimmed_trim cs

/-- The text of a value has no semicolon in it that the value was not read from. -/
theorem notMem_text (hv : ofText cs = .ok v) (h : ';' ∉ cs) : ';' ∉ v.text.toList := by
  rcases cases_of_ofText hv with ⟨b, rfl⟩ | ⟨n, rfl, _⟩ | rfl
  · cases b <;> decide
  · intro hmem
    rcases mem_toString hmem with hc | hc <;> cases hc
  · rw [text, String.toList_ofList]
    exact fun hmem => h (mem_of_mem_trim hmem)

end OptionValue

namespace OrderedMap

variable {κ ν : Type} [DecidableEq κ] {k : κ} {v : ν} {es : List (κ × ν)}

theorem mem_put {e : κ × ν} (h : e ∈ put k v es) : e = (k, v) ∨ e ∈ es := by
  induction es with
  | nil => exact .inl (List.mem_singleton.mp h)
  | cons d es ih =>
    unfold put at h
    split at h
    · exact (List.mem_cons.mp h).imp_right (List.mem_cons_of_mem d)
    · rcases List.mem_cons.mp h with rfl | h
      · exact .inr List.mem_cons_self
      · exact (ih h).imp_right (List.mem_cons_of_mem d)

theorem put_of_notMem (h : k ∉ es.map Prod.fst) : put k v es = es ++ [(k, v)] := by
  induction es with
  | nil => rfl
  | cons e es ih =>
    rw [List.map_cons, List.mem_cons, not_or] at h
    rw [put, if_neg fun he => h.1 he.symm, ih h.2, List.cons_append]

end OrderedMap

namespace Config

open Text

variable {id : String} {m m' : OrderedMap String OptionValue} {item : List Char}
  {o : String × OptionValue}

/-- An option that can be written: its key is not empty and has no spacing around it, what tells
options and their parts from each other is not in them, and its value was read off a text. -/
structure IsOption (o : String × OptionValue) : Prop where
  ne_nil : o.1.toList ≠ []
  trimmed : IsTrimmed o.1.toList
  notMem_key : ':' ∉ o.1.toList ∧ ';' ∉ o.1.toList
  exists_text : ∃ cs, ';' ∉ cs ∧ OptionValue.ofText cs = .ok o.2

/-- The text of an option. -/
def optionText (o : String × OptionValue) : List Char :=
  o.1.toList ++ ':' :: o.2.text.toList

theorem addOption_eq_ok : addOption id m item = .ok m' ↔ ∃ a b, cutAt ':' item = (a, some b) ∧
    trim a ≠ [] ∧ ∃ v, OptionValue.ofText b = .ok v ∧
      m.insert (String.ofList (trim a)) v = m' := by
  unfold addOption
  obtain ⟨a, after⟩ := cutAt ':' item
  cases after with
  | none => exact ⟨nofun, fun ⟨_, _, h, _⟩ => nomatch h⟩
  | some b =>
    simp only [List.isEmpty_iff, Prod.mk.injEq, Option.some.injEq]
    by_cases hne : trim a = []
    · rw [if_pos hne]
      refine ⟨nofun, ?_⟩
      rintro ⟨_, _, ⟨rfl, rfl⟩, h, _⟩
      exact absurd hne h
    · rw [if_neg hne, Attempt.bind_eq_ok]
      constructor
      · rintro ⟨v, hv, h⟩
        exact ⟨a, b, ⟨rfl, rfl⟩, hne, v, Attempt.mapError_eq_ok.mp hv, Except.ok.inj h⟩
      · rintro ⟨_, _, ⟨rfl, rfl⟩, _, v, hv, h⟩
        exact ⟨v, Attempt.mapError_eq_ok.mpr hv, congrArg Except.ok h⟩

/-- What an item adds to options is an option. -/
theorem isOption_of_addOption (hitem : ';' ∉ item) (hm : ∀ o ∈ m.entries, IsOption o)
    (h : addOption id m item = .ok m') : ∀ o ∈ m'.entries, IsOption o := by
  obtain ⟨a, b, hcut, hne, v, hv, rfl⟩ := addOption_eq_ok.mp h
  obtain ⟨rfl, hcolon⟩ := eq_append_of_cutAt hcut
  rw [List.mem_append, List.mem_cons, not_or, not_or] at hitem
  intro o ho
  rcases OrderedMap.mem_put ho with rfl | ho
  · refine ⟨?_, ?_, ⟨?_, ?_⟩, b, hitem.2.2, hv⟩
    all_goals rw [String.toList_ofList]
    · exact hne
    · exact isTrimmed_trim a
    · exact fun hmem => hcolon (mem_of_mem_trim hmem)
    · exact fun hmem => hitem.1 (mem_of_mem_trim hmem)
  · exact hm o ho

theorem isOption_of_foldlM {items : List (List Char)} (hitems : ∀ item ∈ items, ';' ∉ item)
    (hm : ∀ o ∈ m.entries, IsOption o) (h : items.foldlM (addOption id) m = .ok m') :
    ∀ o ∈ m'.entries, IsOption o := by
  induction items generalizing m with
  | nil =>
    cases h
    exact hm
  | cons item items ih =>
    obtain ⟨hitem, hitems⟩ := List.forall_mem_cons.mp hitems
    rw [List.foldlM_cons] at h
    obtain ⟨m₁, hm₁, h⟩ := Attempt.bind_eq_ok.mp h
    exact ih hitems (isOption_of_addOption hitem hm hm₁) h

namespace IsOption

/-- The text of an option adds it. -/
theorem addOption_text (h : IsOption o) :
    addOption id m (optionText o) = .ok (m.insert o.1 o.2) := by
  obtain ⟨cs, _, hvalue⟩ := h.exists_text
  have htrim := h.trimmed.trim_eq_self
  refine addOption_eq_ok.mpr ⟨_, _, cutAt_append h.notMem_key.1 _, ?_, o.2, ?_, ?_⟩
  · rw [htrim]
    exact h.ne_nil
  · exact OptionValue.ofText_text hvalue
  · rw [htrim, String.ofList_toList]

theorem isTrimmed (h : IsOption o) : IsTrimmed (optionText o) := by
  obtain ⟨cs, _, hvalue⟩ := h.exists_text
  exact isTrimmed_joined h.trimmed h.ne_nil rfl (OptionValue.isTrimmed_text hvalue)

theorem notMem_text (h : IsOption o) : ';' ∉ optionText o := by
  obtain ⟨cs, hcs, hvalue⟩ := h.exists_text
  rw [optionText, List.mem_append, List.mem_cons, not_or, not_or]
  exact ⟨h.notMem_key.2, by decide, OptionValue.notMem_text hvalue hcs⟩

end IsOption

/-- The texts of options with different keys add these options in their order. -/
theorem foldlM_optionText {os : List (String × OptionValue)} (hos : ∀ o ∈ os, IsOption o)
    (hkeys : ((m.entries ++ os).map Prod.fst).Nodup) :
    (os.map optionText).foldlM (addOption id) m = .ok ⟨m.entries ++ os, hkeys⟩ := by
  induction os generalizing m with
  | nil =>
    obtain ⟨es, _⟩ := m
    simp
  | cons o os ih =>
    obtain ⟨ho, hos⟩ := List.forall_mem_cons.mp hos
    have hnew : o.1 ∉ m.entries.map Prod.fst := by
      rw [List.map_append, List.map_cons, List.nodup_append] at hkeys
      exact fun hmem => hkeys.2.2 _ hmem _ List.mem_cons_self rfl
    have hentries : (m.insert o.1 o.2).entries = m.entries ++ [o] := OrderedMap.put_of_notMem hnew
    rw [List.map_cons, List.foldlM_cons, ho.addOption_text, Attempt.ok_bind, ih hos]
    · simp only [hentries, List.append_assoc, List.singleton_append]
    · rw [hentries, List.append_assoc]
      exact hkeys

end Config

end MethodFlow
