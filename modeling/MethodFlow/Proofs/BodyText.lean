import MethodFlow.Proofs.StatementText

/-!
The text of a body, a label in front of each statement, is read as items whose layout has the same
statements: every label leads to the statement behind it.
-/

namespace MethodFlow

open Source Reader

/-- The text of a statement of a body behind its label. -/
def Method.statementText (k : Nat) (x : Stmt) : String :=
  labelName k ++ ": " ++ x.instr.textWith Target.labelled

section Spaces

variable {cs rest : List Char}

/-- A text that begins with blanks and goes on with no blank. -/
def Source.LeadsTo (cs rest : List Char) : Prop :=
  blank rest = none ∧ ∃ n, cs = List.replicate n ' ' ++ rest

theorem Source.LeadsTo.gap (h : LeadsTo cs rest) : ∃ g, Reader.gap cs = some (g, rest) := by
  obtain ⟨hsolid, n, rfl⟩ := h
  exact ⟨_, gap_spaces n hsolid⟩

theorem Source.LeadsTo.space (h : LeadsTo cs rest) : LeadsTo (' ' :: cs) rest := by
  obtain ⟨hsolid, n, rfl⟩ := h
  exact ⟨hsolid, n + 1, rfl⟩

theorem Source.leadsTo_self (h : blank cs = none) : LeadsTo cs cs :=
  ⟨h, 0, rfl⟩

theorem Source.LeadsTo.length_le (h : LeadsTo cs rest) : rest.length ≤ cs.length := by
  obtain ⟨_, n, rfl⟩ := h
  simp

end Spaces

section Items

variable {s : Scope} {n : Nat}

/-- The labels of the statements from an index on, each with the index it leads to. -/
def numbered (k count : Nat) : List (String × Nat) :=
  (List.range' k count).map fun i => (labelName i, i)

/-- What a mark says: the name of a label and where it leads. -/
def Source.Mark.entry (m : Mark) : String × Nat :=
  (m.label.name, m.index)

/-- A pending statement that becomes a statement once its labels lead where they should. -/
def Source.Pending.Becomes (n : Nat) (x : Stmt) (y : Pending LabelRef) : Prop :=
  ∀ l : Layout LabelRef, l.Resolves n → l.resolveInstr y.instr = .ok x.instr

/-- Items that lay out statements, each behind its label, from an index on. -/
def Source.LaysOut (s : Scope) (n k : Nat) (xs : List Stmt) (items : List Item) : Prop :=
  ∀ (p : Pos) (l : Layout LabelRef), l.stmts.length = k →
    ∃ (ms : List Mark) (ys : List (Pending LabelRef)),
      ms.map Mark.entry = numbered k xs.length ∧ List.Forall₂ (Pending.Becomes n) xs ys ∧
      Layout.ofItems s p l items = .ok ⟨l.marks ++ ms, l.stmts ++ ys⟩

theorem item_label (k : Nat) {r : List Char} (h : blank r = none) :
    item ((labelName k).toList ++ ':' :: ' ' :: r) =
      some (.label ⟨(labelName k).toList, [], [.space ' ']⟩, r) := by
  refine orElse_some (map_some ?_)
  refine bind_of (name_append (isName_labelName k) rfl) ?_
  refine bind_of (gap_nil (blank_none rfl)) ?_
  refine bind_of (exactly_append ":" _) ?_
  exact bind_of (gap_space h) rfl

/-- Behind a label, a text is no declaration. -/
theorem varDecl_label (k : Nat) (r : List Char) :
    varDecl ((labelName k).toList ++ ':' :: r) = none := by
  have hend : brackets (':' :: r) = none := brackets_none (gap_nil (blank_none rfl)) rfl
  have htype : typeName ((labelName k).toList ++ ':' :: r) = some (_, ':' :: r) :=
    typeName_append (isName_labelName k).isTypeWord 0 rfl hend
  exact (bind_of htype rfl).trans (bind_none (gap1_none (blank_none rfl)))

/-- The label and the command in front of items that lay out the statements after them. -/
theorem Source.LaysOut.cons {k : Nat} {x : Stmt} {xs : List Stmt} {items : List Item} {c : Command}
    (h : LaysOut s n (k + 1) xs items) (g : Gap) (hc : ∀ p, ∃ y, c.meaning s p = .ok y ∧
      ∀ l : Layout LabelRef, l.Resolves n → l.resolveInstr y = .ok x.instr) :
    LaysOut s n k (x :: xs)
      (.label ⟨(labelName k).toList, [], [.space ' ']⟩ :: .statement ⟨c, g⟩ :: items) := by
  intro p l hl
  obtain ⟨y, hy, hbecomes⟩ := hc
    (p.after (Item.text (.label ⟨(labelName k).toList, [], [.space ' ']⟩)))
  let mark : Mark := ⟨⟨labelName k, p⟩, k⟩
  let pending : Pending LabelRef :=
    ⟨y, (p.after (Item.text (.label ⟨(labelName k).toList, [], [.space ' ']⟩))).line⟩
  obtain ⟨ms, ys, hms, hys, hitems⟩ := h
    ((p.after (Item.text (.label ⟨(labelName k).toList, [], [.space ' ']⟩))).after
      (Item.text (.statement ⟨c, g⟩)))
    ⟨l.marks ++ [mark], l.stmts ++ [pending]⟩ (by simp [hl])
  refine ⟨mark :: ms, pending :: ys, ?_, .cons hbecomes hys, ?_⟩
  · rw [List.map_cons, hms, List.length_cons, numbered, numbered, List.range'_succ]
    rfl
  · rw [List.append_cons, List.append_cons l.stmts, ← hitems]
    rw [Layout.ofItems, Layout.add, Attempt.ok_bind, Layout.ofItems, Layout.add, hy]
    simp only [Attempt.ok_bind, Attempt.pure_eq_ok, hl, String.ofList_toList]
    rfl

/-- The text of the statements of a body from an index on, up to the end of the body. -/
def bodyText (k : Nat) (xs : List Stmt) : List Char :=
  (xs.mapIdx fun i x => Method.statementText (k + i) x).flatMap String.toList ++ [' ', '\x7d']

theorem bodyText_cons (k : Nat) (x : Stmt) (xs : List Stmt) :
    bodyText k (x :: xs) = (labelName k).toList ++ ':' :: ' ' ::
      ((x.instr.textWith Target.labelled).toList ++ bodyText (k + 1) xs) := by
  have hshift : ∀ i y, Method.statementText (k + (i + 1)) y =
      Method.statementText (k + 1 + i) y := fun i y => by rw [Nat.add_right_comm]; rfl
  simp only [bodyText, List.mapIdx_cons, hshift]
  simp [Method.statementText]

/-- The text of a body is read as items that lay it out. -/
theorem body_reads {xs : List Stmt} (h : ∀ x ∈ xs, x.instr.IsReadBack s n) (k : Nat) :
    ∃ (items : List Item) (cs : List Char), LaysOut s n k xs items ∧ varDecl cs = none ∧
      LeadsTo (bodyText k xs) cs ∧ Run item cs items ['\x7d'] := by
  induction xs generalizing k with
  | nil =>
    refine ⟨[], ['\x7d'], ?_, rfl, ⟨rfl, 1, rfl⟩, .stop rfl⟩
    intro p l _
    refine ⟨[], [], rfl, .nil, ?_⟩
    rw [List.append_nil, List.append_nil]
    rfl
  | cons x xs ih =>
    obtain ⟨c, hmeaning, hread⟩ := h x List.mem_cons_self
    obtain ⟨items, cs, hlays, _, hlead, hrun⟩ := ih (fun y hy => h y (List.mem_cons_of_mem x hy))
      (k + 1)
    obtain ⟨g, hg⟩ := hlead.gap
    obtain ⟨hbegins, hcommand⟩ := hread (bodyText (k + 1) xs)
    have hstatement : item ((x.instr.textWith Target.labelled).toList ++
        bodyText (k + 1) xs) = some (.statement ⟨c, g⟩, cs) :=
      (orElse_none (map_none hbegins.unlabelled)).trans
        (map_some (bind_of hcommand (bind_of hg rfl)))
    have hne : (x.instr.textWith Target.labelled).toList ≠ [] := by
      intro hempty
      have hnone := (hread []).2
      rw [hempty] at hnone
      cases hnone
    have hlength : cs.length < ((x.instr.textWith Target.labelled).toList ++
        bodyText (k + 1) xs).length := by
      have hle := hlead.length_le
      have hpos := List.length_pos_iff.mpr hne
      rw [List.length_append]
      omega
    rw [bodyText_cons]
    refine ⟨_, _, hlays.cons g hmeaning, varDecl_label k _,
      leadsTo_self (isName_labelName k).blank_append, ?_⟩
    exact .step (item_label k hbegins.solid) (by simp; omega) (.step hstatement hlength hrun)

end Items

section Layouts

variable {n : Nat} {xs : List Stmt} {ms : List Mark} {ys : List (Pending LabelRef)}

theorem labelName_inj {i j : Nat} (h : labelName i = labelName j) : i = j := by
  have hdigits := (labelName_toList i).symm.trans ((congrArg String.toList h).trans
    (labelName_toList j))
  have hdigits' : Nat.toDigits 10 i = Nat.toDigits 10 j := (List.cons.inj hdigits).2
  have hi := ofDigits_toDigits i
  rw [hdigits', ofDigits_toDigits] at hi
  exact hi.symm

theorem find?_numbered {k j count : Nat} (hk : k ≤ j) (hj : j < k + count) :
    (numbered k count).find? (fun e => e.1 = labelName j) = some (labelName j, j) := by
  rw [numbered, List.find?_map]
  have hfind : (List.range' k count).find?
      ((fun e : String × Nat => decide (e.1 = labelName j)) ∘ fun i => (labelName i, i)) =
        some j := by
    cases hf : (List.range' k count).find? ((fun e : String × Nat => decide (e.1 = labelName j)) ∘
        fun i => (labelName i, i)) with
    | none =>
      have hnone := List.find?_eq_none.mp hf j (List.mem_range'_1.mpr ⟨hk, hj⟩)
      simp at hnone
    | some i =>
      have hsome := List.find?_some hf
      rw [labelName_inj (of_decide_eq_true hsome)]
  rw [hfind]
  rfl

/-- In a layout of `n` statements with their labels, each label leads to its statement. -/
theorem resolves_of_numbered (hms : ms.map Mark.entry = numbered 0 n) :
    Layout.Resolves ⟨ms, ys⟩ n := by
  intro j hj p
  have hfind := find?_numbered (k := 0) (Nat.zero_le j) (by omega : j < 0 + n)
  rw [← hms, List.find?_map, Option.map_eq_some_iff] at hfind
  obtain ⟨m, hm, hentry⟩ := hfind
  have hm' : ms.find? (fun m => m.label.name = labelName j) = some m := hm
  rw [Layout.resolve, hm']
  exact congrArg (fun e : String × Nat => Except.ok (Target.stmt e.2)) hentry

theorem index_lt_of_numbered (hms : ms.map Mark.entry = numbered 0 n) : ∀ m ∈ ms, m.index < n := by
  intro m hm
  have hentry : m.entry ∈ numbered 0 n := hms ▸ List.mem_map_of_mem hm
  obtain ⟨i, hi, he⟩ := List.mem_map.mp hentry
  have hlt := (List.mem_range'_1.mp hi).2
  have hindex : i = m.index := congrArg Prod.snd he
  omega

theorem nodup_of_numbered (hms : ms.map Mark.entry = numbered 0 n) :
    (ms.map fun m => m.label.name).Nodup := by
  have hnames : (ms.map fun m => m.label.name) = (List.range' 0 n).map labelName := by
    have hfst := congrArg (List.map Prod.fst) hms
    rw [List.map_map, numbered, List.map_map] at hfst
    exact hfst
  rw [hnames]
  exact List.Nodup.map (fun _ _ h => labelName_inj h) List.nodup_range'

theorem resolve_stmts {l : Layout LabelRef} (hl : l.Resolves n)
    (hys : List.Forall₂ (Pending.Becomes n) xs ys) :
    ∃ zs, ys.mapM l.resolveStmt = .ok zs ∧ zs.map Stmt.instr = xs.map Stmt.instr := by
  induction hys with
  | nil => exact ⟨[], rfl, rfl⟩
  | @cons x y xs ys hy _ ih =>
    obtain ⟨zs, hzs, hmap⟩ := ih
    have hstmt : l.resolveStmt y = .ok ⟨x.instr, y.line⟩ := by
      rw [Layout.resolveStmt, hy l hl]
      rfl
    refine ⟨⟨x.instr, y.line⟩ :: zs, ?_, ?_⟩
    · rw [List.mapM_cons, hstmt, hzs]
      rfl
    · rw [List.map_cons, List.map_cons, hmap]

/-- A layout of statements with their labels is a body of the statements. -/
theorem layout_body (hms : ms.map Mark.entry = numbered 0 xs.length)
    (hys : List.Forall₂ (Pending.Becomes xs.length) xs ys) :
    ∃ zs, Layout.body ⟨ms, ys⟩ = .ok zs ∧ zs.map Stmt.instr = xs.map Stmt.instr := by
  obtain ⟨zs, hzs, hmap⟩ := resolve_stmts (resolves_of_numbered hms) hys
  refine ⟨zs, ?_, hmap⟩
  have hdangling : Layout.dangling? ⟨ms, ys⟩ = none := by
    have hfind : ms.find? (fun m => m.index = ys.length) = none := by
      rw [List.find?_eq_none]
      intro m hm
      have hlt := index_lt_of_numbered hms m hm
      have hlength := hys.length_eq
      simp only [decide_eq_true_eq]
      omega
    rw [Layout.dangling?, hfind]
    rfl
  have hcheck : Layout.check ⟨ms, ys⟩ = .ok () := by
    rw [Layout.check, Layout.repeated?_eq_none.mpr (nodup_of_numbered hms), hdangling]
  rw [Layout.body, hcheck, Attempt.ok_bind, hzs]

end Layouts

end MethodFlow
