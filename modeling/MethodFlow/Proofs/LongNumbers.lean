import MethodFlow.Proofs.MethodText

/-!
Programs of one method that returns a number, and numbers of any length in them: a hexadecimal one
is read however long it is, a decimal one is not.
-/

namespace MethodFlow.Source

open Reader

variable {ds : Digits}

/-- The text behind the beginning of a body that returns a number. -/
def returningTail (ds : Digits) : List Char :=
  "return".toList ++ ' ' :: (ds.text ++ [';', ' ', '\x7d'])

/-- A program of one method, which returns a number. -/
def returningText (ds : Digits) : String :=
  String.ofList ("method".toList ++ ' ' :: (['i', 'n', 't'] ++ ' ' ::
    (['f'] ++ '(' :: ')' :: ' ' :: '\x7b' :: ' ' :: returningTail ds)))

def returningItem (ds : Digits) : Item :=
  .statement ⟨.ret (some ⟨[.space ' '], .int ⟨false, ds⟩⟩) [], [.space ' ']⟩

def returningDecl (ds : Digits) : MethodDecl :=
  ⟨[.space ' '], ⟨['i', 'n', 't'], []⟩, [.space ' '], ['f'], [], [], none, [.space ' '],
    [.space ' '], [], [returningItem ds], []⟩

/-- The method of `returningText` for the number that it returns. -/
def returningMethod (n : Int) : Method :=
  ⟨"f", [], .prim .int, [], [⟨.ret (some (.int n)), 1⟩]⟩

/-- Digits that are read back in front of what cannot continue them. -/
structure Digits.IsReadBack (ds : Digits) : Prop where
  head : ∃ c r, ds.text = c :: r ∧ c.isDigit = true
  reads : ∀ rest, stops isNameChar rest = true →
    (hexDigits <|> decimalDigits) (ds.text ++ rest) = some (ds, rest)

theorem isNameChar_of_isHexDigit {c : Char} (h : isHexDigit c = true) : isNameChar c = true := by
  have hall : ∀ n < 103, isHexDigit (Char.ofNat n) = true → isNameChar (Char.ofNat n) = true := by
    decide +kernel
  have hrange : c.toNat < 103 := by
    simp only [isHexDigit, Char.isDigit, Bool.or_eq_true, Bool.and_eq_true, decide_eq_true_eq,
      Char.le_def, UInt32.le_iff_toNat_le] at h
    change ((48 ≤ c.toNat ∧ c.toNat ≤ 57) ∨ (97 ≤ c.toNat ∧ c.toNat ≤ 102)) ∨
      (65 ≤ c.toNat ∧ c.toNat ≤ 70) at h
    omega
  rw [← Char.ofNat_toNat c] at h ⊢
  exact hall _ hrange h

theorem Digits.isReadBack_hex (n : Nat) :
    (Digits.hex 'x' (List.replicate (n + 1) 'F')).IsReadBack := by
  refine ⟨⟨'0', _, rfl, rfl⟩, fun rest hrest => orElse_some ?_⟩
  have hstop : stops isHexDigit rest = true := by
    cases rest with
    | nil => rfl
    | cons c r =>
      simp only [stops, Bool.not_eq_true'] at hrest ⊢
      rw [← Bool.not_eq_true] at hrest ⊢
      exact fun hc => hrest (isNameChar_of_isHexDigit hc)
  refine bind_of (exactly_append "0" _) (bind_of (satisfying_some rfl) ?_)
  exact bind_of (span1_append (by simp) (fun c hc => List.eq_of_mem_replicate hc ▸ rfl) hstop) rfl

theorem Digits.isReadBack_decimal (n : Nat) :
    (Digits.decimal (List.replicate (n + 1) '1')).IsReadBack := by
  have hdigit : ∀ c ∈ List.replicate (n + 1) '1', c.isDigit = true :=
    fun c hc => List.eq_of_mem_replicate hc ▸ rfl
  refine ⟨⟨'1', _, rfl, rfl⟩, fun rest hrest => ?_⟩
  refine (orElse_none (hexDigits_none hdigit hrest)).trans ?_
  exact bind_of (span1_append (by simp) hdigit (stops_isDigit hrest)) rfl

/-- The number of as many digits that each are one less than the base. -/
theorem ofDigits_replicate {b d : Nat} (hb : b = d + 1) (n : Nat) :
    Text.ofDigits b (List.replicate n d) = b ^ n - 1 := by
  induction n with
  | zero => rfl
  | succ n ih =>
    have hpos : 0 < b ^ n := Nat.pow_pos (hb ▸ d.succ_pos)
    rw [Text.ofDigits] at ih
    rw [Text.ofDigits, List.replicate_succ', List.foldl_append, ih, List.foldl_cons, List.foldl_nil,
      Nat.pow_succ, Nat.sub_mul]
    have hle : b ≤ b ^ n * b := Nat.le_mul_of_pos_left _ hpos
    omega

theorem Digits.IsReadBack.atom (h : ds.IsReadBack) {rest : List Char}
    (hrest : stops isNameChar rest = true) :
    Reader.atom (ds.text ++ rest) = some (.int ⟨false, ds⟩, rest) := by
  obtain ⟨c, r, hc, hdigit⟩ := h.head
  have hsign : exactly "-" (ds.text ++ rest) = none := by
    rw [hc]
    refine exactly_none rfl ?_
    rintro rfl
    cases hdigit
  refine orElse_some (orElse_some (map_some (bind_of (optional_none hsign) ?_)))
  exact bind_of (h.reads rest hrest) rfl

theorem Digits.IsReadBack.blank_append (h : ds.IsReadBack) (rest : List Char) :
    blank (ds.text ++ rest) = none := by
  obtain ⟨c, r, hc, hdigit⟩ := h.head
  rw [hc]
  exact blank_none (isSolid_of_isNameChar (isNameChar_of_isDigit hdigit))

/-- The item is all that is read of a body that returns a number. -/
theorem items_returning (h : ds.IsReadBack) :
    many varDecl (returningTail ds) = some ([], returningTail ds) ∧
      many item (returningTail ds) = some ([returningItem ds], ['\x7d']) := by
  have hname : ∀ isChar, wordOf isChar (returningTail ds) = none :=
    fun _ => wordOf_keyword (by decide) rfl
  have hreturned : returned (' ' :: (ds.text ++ [';', ' ', '\x7d'])) =
      some (⟨[.space ' '], .int ⟨false, ds⟩⟩, [';', ' ', '\x7d']) :=
    bind_of (gap1_space (h.blank_append _)) (bind_of (h.atom rfl) rfl)
  have hcommand : command (returningTail ds) =
      some (.ret (some ⟨[.space ' '], .int ⟨false, ds⟩⟩) [], [' ', '\x7d']) :=
    orElse_some (bind_of (exactly_append "return" _) (bind_of (optional_some hreturned) rfl))
  have hitem : item (returningTail ds) = some (returningItem ds, ['\x7d']) :=
    (orElse_none (map_none (bind_none (hname _)))).trans (map_some (bind_of hcommand rfl))
  refine ⟨many_none (bind_none (bind_none (hname _))), (Run.step hitem ?_ (.stop rfl)).many⟩
  change 1 < ("return".toList ++ ' ' :: (ds.text ++ [';', ' ', '\x7d'])).length
  simp only [List.length_append, List.length_cons, List.length_nil]
  omega

theorem program_returning (h : ds.IsReadBack) :
    program (returningText ds).toList = some (⟨[], [returningDecl ds]⟩, []) := by
  obtain ⟨hdecls, hitems⟩ := items_returning h
  have hsolid : blank (returningTail ds) = none := blank_none rfl
  have hint : IsWordOf isTypeChar ['i', 'n', 't'] := by
    exact ⟨rfl, by simp [isTypeChar, isNameChar], by decide +kernel⟩
  have hname : IsName ['f'] := ⟨rfl, List.forall_mem_nil _, by decide +kernel⟩
  have hmethod : methodDecl ("method".toList ++ ' ' :: (['i', 'n', 't'] ++ ' ' ::
      (['f'] ++ '(' :: ')' :: ' ' :: '\x7b' :: ' ' :: returningTail ds))) =
        some (returningDecl ds, []) := by
    refine bind_of (exactly_append "method" _) ?_
    refine bind_of (gap1_space (blank_none rfl)) ?_
    refine bind_of (typeName_append hint 0 rfl (brackets_space hname)) ?_
    refine bind_of (gap1_space (blank_none rfl)) ?_
    refine bind_of (name_append hname rfl) ?_
    refine bind_of (gap_nil (blank_none rfl)) ?_
    refine bind_of (exactly_append "(" _) ?_
    refine bind_of (gap_nil (blank_none rfl)) ?_
    refine bind_of (optional_none (bind_none rfl)) ?_
    refine bind_of (exactly_append ")" _) ?_
    refine bind_of (gap_space (blank_none rfl)) ?_
    refine bind_of (exactly_append "\x7b" _) ?_
    refine bind_of (gap_space hsolid) ?_
    exact bind_of hdecls (bind_of hitems rfl)
  have htext := String.toList_ofList (l := "method".toList ++ ' ' :: (['i', 'n', 't'] ++ ' ' ::
      (['f'] ++ '(' :: ')' :: ' ' :: '\x7b' :: ' ' :: returningTail ds)))
  refine (congrArg program htext).trans (bind_of (gap_nil (blank_none rfl)) ?_)
  refine bind_of (Run.step hmethod ?_ (.stop rfl)).many rfl
  simp

theorem add_returningItem (p : Pos) : Layout.add [] p .empty (returningItem ds) = (do
    return ⟨[], [⟨.ret (some (.int (← Number.value ⟨false, ds⟩))), p.line⟩]⟩ :
      Checked (Layout LabelRef)) := by
  rw [returningItem, Layout.add, Command.meaning, Atom.meaning]
  cases Number.value ⟨false, ds⟩ <;> rfl

/-- A program means its method, if its number can be read. -/
theorem parse_returning (h : ds.IsReadBack) : parse (returningText ds) = (do
    return [returningMethod (← Number.value ⟨false, ds⟩)] : Checked (List Method)) := by
  have htype : Ty.ofText? (returningDecl ds).type.text = some (.prim .int) :=
    (by decide +kernel : Ty.ofText? (TypeName.text ⟨['i', 'n', 't'], []⟩) = some (.prim .int))
  have hret : ∀ p, (returningDecl ds).type.meaning p = .ok (.prim .int) := fun p => by
    rw [TypeName.meaning, htype]
  have hmeaning : (returningDecl ds).meaning (Pos.start.after (Gap.text [])) = (do
      return returningMethod (← Number.value ⟨false, ds⟩) : Checked Method) := by
    rw [MethodDecl.meaning, hret, Attempt.ok_bind]
    change (do
      let l ← Layout.ofItems [] _ .empty [returningItem ds]
      return Method.make (String.ofList ['f']) [] (.prim .int) [] (← l.body)) = _
    rw [Layout.ofItems, add_returningItem]
    cases Number.value ⟨false, ds⟩ <;> rfl
  rw [parse, readText_of_program (program_returning h), Program.meaning, meanings, hmeaning]
  cases Number.value ⟨false, ds⟩ <;> rfl

end MethodFlow.Source
