import MethodFlow.Cfg.Dot

/-!
Quoted strings of the DOT language: which labels are read back from what is written for them. A
backslash of the label is written as it is, so it counts for what stands behind it.
-/

namespace MethodFlow

namespace Dot

/-- The quoted string at the front of a text, behind its opening mark: a backslash takes the next
character with it, and the first other quotation mark closes the string. -/
def scan : List Char → Option (List Char × List Char)
  | [] => none
  | '"' :: r => some ([], r)
  | '\\' :: c :: r => (scan r).map fun x => ('\\' :: c :: x.1, x.2)
  | c :: r => (scan r).map fun x => (c :: x.1, x.2)

/-- What the inside of a quoted string stands for. -/
def decode : List Char → List Char
  | [] => []
  | '\\' :: '"' :: r => '"' :: decode r
  | '\\' :: '\\' :: r => '\\' :: decode r
  | c :: r => c :: decode r

/-- A string closes at the mark that was written behind its inside. -/
def Closes (inside rest : List Char) : Prop :=
  scan (inside ++ '"' :: rest) = some (inside, rest)

/-- Whether each backslash of a text stands in front of a character that is neither a backslash nor
a quotation mark. -/
def isTame : List Char → Bool
  | [] => true
  | '\\' :: c :: r => c != '\\' && c != '"' && isTame r
  | c :: r => c != '\\' && isTame r

/-- A text as it is written between quotation marks. -/
def escape (cs : List Char) : List Char :=
  cs.flatMap fun c => if c = '"' then ['\\', '"'] else [c]

variable {c : Char} {cs r x rest : List Char}

section Steps

theorem isTame_cons (h : c ≠ '\\') : isTame (c :: r) = isTame r := by
  rw [isTame]
  · simp [h]
  · rintro d z rfl
    exact absurd rfl h

theorem decode_cons (h : c ≠ '\\') : decode (c :: r) = c :: decode r := by
  rw [decode]
  · rintro z rfl
    exact absurd rfl h
  · rintro z rfl
    exact absurd rfl h

theorem decode_backslash (hquote : c ≠ '"') (hslash : c ≠ '\\') :
    decode ('\\' :: c :: r) = '\\' :: c :: decode r := by
  rw [decode, decode_cons hslash]
  · intro z _ h
    exact hquote (List.cons.inj h).1
  · intro z _ h
    exact hslash (List.cons.inj h).1

theorem scan_cons (hquote : c ≠ '"') (hslash : c ≠ '\\') :
    scan (c :: r) = (scan r).map fun x => (c :: x.1, x.2) := by
  rw [scan]
  · rintro rfl
    exact absurd rfl hquote
  · rintro d z rfl
    exact absurd rfl hslash

theorem closes_nil : Closes [] rest := rfl

theorem closes_cons (hquote : c ≠ '"') (hslash : c ≠ '\\') :
    Closes (c :: x) rest ↔ Closes x rest := by
  rw [Closes, List.cons_append, scan_cons hquote hslash, Option.map_eq_some_iff, Closes]
  constructor
  · rintro ⟨y, hy, h⟩
    cases h
    exact hy
  · intro h
    exact ⟨_, h, rfl⟩

theorem closes_backslash : Closes ('\\' :: c :: x) rest ↔ Closes x rest := by
  rw [Closes, List.cons_append, List.cons_append, scan, Option.map_eq_some_iff, Closes]
  constructor
  · rintro ⟨y, hy, h⟩
    cases h
    exact hy
  · intro h
    exact ⟨_, h, rfl⟩

/-- A mark that no backslash stands in front of closes the string. -/
theorem not_closes_quote : ¬ Closes ('"' :: x) rest := by
  intro h
  cases h

/-- A backslash takes the mark that was to close the string. -/
theorem not_closes_backslash : ¬ Closes ['\\'] rest := by
  intro h
  obtain ⟨y, -, hy⟩ := Option.map_eq_some_iff.mp h
  cases hy

theorem escape_quote : escape ('"' :: r) = '\\' :: '"' :: escape r := rfl

theorem escape_cons (h : c ≠ '"') : escape (c :: r) = c :: escape r := by
  rw [escape, List.flatMap_cons, if_neg h]
  rfl

end Steps

/-- What is written for a text stands for no longer a text. -/
theorem length_decode_escape (cs : List Char) : (decode (escape cs)).length ≤ cs.length := by
  fun_induction isTame cs with
  | case1 => exact Nat.le_refl _
  | case2 c r ih =>
    rw [escape_cons (by decide)]
    by_cases hquote : c = '"'
    · subst hquote
      rw [escape_quote, decode, decode_cons (by decide)]
      exact Nat.succ_le_succ (Nat.succ_le_succ ih)
    rw [escape_cons hquote]
    by_cases hslash : c = '\\'
    · subst hslash
      rw [decode]
      exact Nat.le_succ_of_le (Nat.succ_le_succ ih)
    · rw [decode_backslash hquote hslash]
      exact Nat.succ_le_succ (Nat.succ_le_succ ih)
  | case3 c r hlone ih =>
    by_cases hquote : c = '"'
    · subst hquote
      rw [escape_quote, decode]
      exact Nat.succ_le_succ ih
    rw [escape_cons hquote]
    by_cases hslash : c = '\\'
    · subst hslash
      cases r with
      | nil => exact Nat.le_refl _
      | cons d z => exact absurd rfl (hlone d z rfl)
    · rw [decode_cons hslash]
      exact Nat.succ_le_succ ih

/-- The string written for a text closes where it should and stands for the text exactly when the
text is tame. -/
theorem closes_decode_iff :
    Closes (escape cs) rest ∧ decode (escape cs) = cs ↔ isTame cs = true := by
  fun_induction isTame cs with
  | case1 => exact iff_of_true ⟨closes_nil, rfl⟩ rfl
  | case2 c r ih =>
    rw [escape_cons (by decide)]
    by_cases hquote : c = '"'
    · subst hquote
      rw [escape_quote, closes_backslash]
      exact iff_of_false (fun h => not_closes_quote h.1) (by simp)
    rw [escape_cons hquote]
    by_cases hslash : c = '\\'
    · subst hslash
      rw [decode]
      -- two backslashes stand for one, and what follows them does not get longer
      refine iff_of_false ?_ (by simp)
      rintro ⟨-, h⟩
      have hlen := congrArg List.length (List.cons.inj h).2
      have hle := length_decode_escape r
      rw [List.length_cons] at hlen
      omega
    · rw [closes_backslash, decode_backslash hquote hslash, List.cons_inj_right,
        List.cons_inj_right, ih]
      simp [hquote, hslash]
  | case3 c r hlone ih =>
    by_cases hquote : c = '"'
    · subst hquote
      rw [escape_quote, closes_backslash, decode, List.cons_inj_right, ih]
      rfl
    rw [escape_cons hquote]
    by_cases hslash : c = '\\'
    · subst hslash
      cases r with
      | nil => exact iff_of_false (fun h => not_closes_backslash h.1) Bool.false_ne_true
      | cons d z => exact absurd rfl (hlone d z rfl)
    · rw [closes_cons hquote hslash, decode_cons hslash, List.cons_inj_right, ih]
      simp [hslash]

theorem toList_escapeLabel (s : String) : (Cfg.escapeLabel s).toList = escape s.toList := by
  rw [Cfg.escapeLabel, String.toList_ofList, escape]

end Dot

end MethodFlow
