import MethodFlow.Proofs.CheckedPhrases

/-!
The check of a body is decided by the rules for its commands and labels, and its jumps lead to the
statements behind their labels.
-/

namespace MethodFlow

/-- A statement each of whose jumps counts. -/
def Instr.IsPaired {τ : Type} : Instr τ → Prop
  | .switch _ ks ts _ => ks.length = ts.length
  | _ => True

namespace Instr.Rel

variable {τ σ : Type} {R : τ → σ → Prop} {i : Instr τ} {i' : Instr σ}

theorem isPaired (h : Instr.Rel R i i') (hi : i.IsPaired) : i'.IsPaired := by
  cases h with
  | switch _ _ hts _ => exact hi.trans hts.length_eq
  | assign _ _ | call _ _ | branch _ _ | goto _ | ret _ | nop => trivial

theorem jumps (h : Instr.Rel R i i') (hi : i.IsPaired) : List.Forall₂ R i.jumps i'.jumps := by
  cases h with
  | branch _ ht | goto ht => exact .cons ht .nil
  | @switch v ks ts us _ _ hts hd =>
    have hks : ks.length = ts.length := hi
    rw [Instr.jumps, Instr.jumps, List.map_snd_zip hks.ge,
      List.map_snd_zip (hks.trans hts.length_eq).ge]
    exact List.rel_append hts (.cons hd .nil)
  | assign _ _ | call _ _ | ret _ | nop => exact .nil

end Instr.Rel

namespace Source

section Items

variable {items : List Item} {n : Nat}

/-- The labels that some items define, each with the number of statements before it. -/
def markedFrom (n : Nat) : List Item → List (String × Nat)
  | [] => []
  | .label l :: r => (String.ofList l.name, n) :: markedFrom n r
  | .statement _ :: r => markedFrom (n + 1) r

theorem map_fst_markedFrom (n : Nat) (items : List Item) :
    (markedFrom n items).map Prod.fst = (labels items).map String.ofList := by
  induction items generalizing n with
  | nil => rfl
  | cons i r ih =>
    cases i with
    | label l => exact congrArg (List.cons (String.ofList l.name)) (ih n)
    | statement x => exact ih (n + 1)

theorem mem_markedFrom {x : String} {k : Nat} : (x, k) ∈ markedFrom n items ↔
    ∃ before l after, items = before ++ .label l :: after ∧ String.ofList l.name = x ∧
      k = n + (commands before).length := by
  induction items generalizing n with
  | nil => exact iff_of_false List.not_mem_nil fun ⟨_, _, _, h, _⟩ => by simp at h
  | cons i r ih =>
    cases i with
    | label l =>
      rw [markedFrom, List.mem_cons, ih]
      constructor
      · rintro (h | ⟨before, l', after, rfl, hx, hk⟩)
        · cases h
          exact ⟨[], l, r, rfl, rfl, rfl⟩
        · exact ⟨.label l :: before, l', after, rfl, hx, hk⟩
      · rintro ⟨before, l', after, h, hx, hk⟩
        cases before with
        | nil =>
          cases h
          exact .inl (Prod.ext hx.symm hk)
        | cons i before =>
          cases h
          exact .inr ⟨before, l', after, rfl, hx, hk⟩
    | statement y =>
      rw [markedFrom, ih]
      constructor
      · rintro ⟨before, l', after, rfl, hx, hk⟩
        refine ⟨.statement y :: before, l', after, rfl, hx, ?_⟩
        rw [hk, Nat.add_assoc, Nat.add_comm 1]
        rfl
      · rintro ⟨before, l', after, h, hx, hk⟩
        cases before with
        | nil => cases h
        | cons i before =>
          cases h
          refine ⟨before, l', after, rfl, hx, ?_⟩
          rw [hk, Nat.add_assoc, Nat.add_comm 1]
          rfl

theorem commands_append (xs ys : List Item) : commands (xs ++ ys) = commands xs ++ commands ys :=
  List.filterMap_append

/-- Where some statement follows, there is a first one. -/
theorem exists_first_statement (h : commands items ≠ []) :
    ∃ between s after, items = between ++ .statement s :: after ∧ commands between = [] := by
  induction items with
  | nil => exact absurd rfl h
  | cons i r ih =>
    cases i with
    | statement s => exact ⟨[], s, r, rfl, rfl⟩
    | label l =>
      obtain ⟨between, s, after, rfl, hbetween⟩ := ih h
      exact ⟨.label l :: between, s, after, rfl, hbetween⟩

/-- A label that a statement follows leads to the statement with the number of those before it. -/
theorem leadsToStatement_of_mem {x : List Char} {k : Nat}
    (hmem : (String.ofList x, k) ∈ markedFrom 0 items) (hk : k ≠ (commands items).length) :
    LeadsToStatement items x (.stmt k) := by
  obtain ⟨before, l, after, rfl, hx, rfl⟩ := mem_markedFrom.mp hmem
  rw [Nat.zero_add] at hk ⊢
  have hafter : commands after ≠ [] := by
    intro hnil
    refine hk ?_
    have happend : commands (before ++ .label l :: after) = commands before ++ commands after :=
      commands_append before (.label l :: after)
    rw [happend, hnil, List.append_nil]
  obtain ⟨between, s, rest, rfl, hbetween⟩ := exists_first_statement hafter
  exact .intro before between rest l s rfl (String.ofList_injective hx) hbetween

theorem LeadsToStatement.inside {x : List Char} {t : Target} (h : LeadsToStatement items x t) :
    t.Inside (commands items).length := by
  obtain ⟨before, between, after, l, s, rfl, _, _⟩ := h
  refine ⟨_, rfl, ?_⟩
  have hcommands : commands (before ++ .label l :: (between ++ .statement s :: after)) =
      commands before ++ (commands between ++ s.command :: commands after) := by
    rw [commands_append before]
    exact congrArg (commands before ++ ·) (commands_append between (.statement s :: after))
  rw [hcommands, List.length_append, List.length_append, List.length_cons]
  omega

/-- The last statement stands behind every label exactly when some statement stands behind each. -/
theorem followed_iff : (∀ m ∈ markedFrom 0 items, m.2 ≠ (commands items).length) ↔
    ∀ before l after, items = before ++ .label l :: after → commands after ≠ [] := by
  have hlength : ∀ before l after, (commands (before ++ .label l :: after)).length =
      (commands before).length + (commands after).length := by
    intro before l after
    rw [commands_append, List.length_append]
    rfl
  constructor
  · rintro h before l after rfl hnil
    refine h (String.ofList l.name, (commands before).length) ?_ ?_
    · exact mem_markedFrom.mpr ⟨before, l, after, rfl, rfl, (Nat.zero_add _).symm⟩
    · rw [hlength, hnil]
      rfl
  · rintro h ⟨x, k⟩ hm hk
    obtain ⟨before, l, after, rfl, -, rfl⟩ := mem_markedFrom.mp hm
    refine h before l after rfl (List.eq_nil_of_length_eq_zero ?_)
    rw [hlength, Nat.zero_add] at hk
    omega

end Items

section Layouts

variable {s : Scope} {ns : List (List Char)} {p : Pos} {l l' : Layout LabelRef} {items : List Item}

/-- What laying out some items adds to a layout. -/
structure Layout.Extends (s : Scope) (l l' : Layout LabelRef) (items : List Item) : Prop where
  marks : l'.marks.map Mark.entry = l.marks.map Mark.entry ++ markedFrom l.stmts.length items
  stmts : ∃ ys : List (Pending LabelRef), l'.stmts = l.stmts ++ ys ∧
    List.Forall₂ (fun c y => ∃ p, c.meaning s p = .ok y.instr) (commands items) ys

theorem Layout.extends_of_ofItems (h : ofItems s p l items = .ok l') : l.Extends s l' items := by
  induction items generalizing p l with
  | nil =>
    cases h
    exact ⟨(List.append_nil _).symm, [], (List.append_nil _).symm, .nil⟩
  | cons i r ih =>
    obtain ⟨l₁, h₁, h⟩ := Attempt.bind_eq_ok.mp h
    obtain ⟨hmarks, ys, hys, hmeans⟩ := ih h
    cases i with
    | label x =>
      cases h₁
      refine ⟨?_, ys, hys, hmeans⟩
      rw [hmarks, List.map_append, List.append_assoc]
      rfl
    | statement x =>
      obtain ⟨i, hi, h₁⟩ := Attempt.bind_eq_ok.mp h₁
      cases h₁
      refine ⟨?_, ⟨i, p.line⟩ :: ys, ?_, .cons ⟨p, hi⟩ hmeans⟩
      · rw [hmarks, List.length_append]
        rfl
      · rw [hys, List.append_assoc]
        rfl

theorem Layout.decides_ofItems (hs : s.map Var.name = ns.map String.ofList)
    (ht : ∀ t ∈ items.flatMap Item.types, t.IsWritten) :
    Decides (ofItems s p l items) (∀ c ∈ commands items, c.IsSound ns)
      (∀ c ∈ commands items, c.IsWieldy) := by
  induction items generalizing p l with
  | nil =>
    exact (decides_ok l).congr (iff_of_true trivial (List.forall_mem_nil _))
      (iff_of_true trivial (List.forall_mem_nil _))
  | cons i r ih =>
    rw [List.flatMap_cons, List.forall_mem_append] at ht
    have hr := fun l' => ih (p := p.after i.text) (l := l') ht.2
    cases i with
    | label x => exact hr _
    | statement x =>
      have hx : Decides (l.add s p (.statement x)) (x.command.IsSound ns) x.command.IsWieldy :=
        (Command.decides hs ht.1).map
      exact (hx.bind fun l' _ => hr l').congr List.forall_mem_cons.symm List.forall_mem_cons.symm

theorem Layout.dangling?_eq_none :
    l.dangling? = none ↔ ∀ m ∈ l.marks, m.index ≠ l.stmts.length := by
  rw [dangling?, Option.map_eq_none_iff, List.find?_eq_none]
  simp only [decide_eq_true_eq, ne_eq]

theorem Layout.decides_check : Decides l.check
    ((l.marks.map fun m => m.label.name).Nodup ∧ ∀ m ∈ l.marks, m.index ≠ l.stmts.length)
    True := by
  rw [← Layout.repeated?_eq_none, ← Layout.dangling?_eq_none]
  unfold check
  split
  · rename_i x hx
    exact (decides_reject rfl _).congr (iff_of_false id fun h => by cases hx.symm.trans h.1) Iff.rfl
  · rename_i hx
    split
    · rename_i y hy
      exact (decides_reject rfl _).congr (iff_of_false id fun h => by cases hy.symm.trans h.2)
        Iff.rfl
    · rename_i hy
      exact (decides_ok ()).congr (iff_of_true trivial ⟨hx, hy⟩) Iff.rfl

theorem Layout.decides_resolve (x : LabelRef) :
    Decides (l.resolve x) (x.name ∈ l.marks.map fun m => m.label.name) True := by
  rw [List.mem_map]
  unfold resolve
  split
  · rename_i m hm
    have hname := List.find?_some hm
    exact (decides_ok _).congr (iff_of_true trivial
      ⟨m, List.mem_of_find?_eq_some hm, of_decide_eq_true hname⟩) Iff.rfl
  · rename_i hnone
    refine (decides_reject rfl _).congr (iff_of_false id fun ⟨m, hm, hname⟩ => ?_) Iff.rfl
    exact List.find?_eq_none.mp hnone m hm (decide_eq_true hname)

theorem Layout.mem_of_resolve {x : LabelRef} {t : Target} (h : l.resolve x = .ok t) :
    ∃ m ∈ l.marks, m.label.name = x.name ∧ t = .stmt m.index := by
  unfold resolve at h
  split at h
  · rename_i m hm
    cases h
    have hname := List.find?_some hm
    exact ⟨m, List.mem_of_find?_eq_some hm, of_decide_eq_true hname, rfl⟩
  · cases h

end Layouts

section Jumps

variable {s : Scope} {p : Pos} {l : Layout LabelRef} {i : Instr LabelRef} {i' : Instr Target}

theorem Case.meanings_labels {cs : List Case} {ys : List (Int × LabelRef)}
    (h : Case.meanings p cs = .ok ys) :
    ys.map (fun c => c.2.name) = cs.map fun c => String.ofList c.jump.label := by
  induction cs generalizing p ys with
  | nil =>
    cases h
    rfl
  | cons c cs ih =>
    obtain ⟨k, _, h⟩ := Attempt.bind_eq_ok.mp h
    obtain ⟨zs, hzs, h⟩ := Attempt.bind_eq_ok.mp h
    cases h
    exact congrArg (List.cons (String.ofList c.jump.label)) (ih hzs)

theorem Switch.jumps_of_meaning {w : Switch} (h : w.meaning s p = .ok i) :
    i.IsPaired ∧ i.jumps.map LabelRef.name = (Command.switch w).jumps.map String.ofList := by
  obtain ⟨ys, v, p', hys, _, _, rfl⟩ := w.parts_of_meaning h
  have hlength : (ys.map Prod.fst).length = (ys.map Prod.snd).length := by
    rw [List.length_map, List.length_map]
  refine ⟨hlength, ?_⟩
  rw [Instr.jumps, List.map_snd_zip hlength.ge, Command.jumps, List.map_append, List.map_append,
    List.map_map, List.map_map]
  exact congrArg (· ++ [String.ofList w.default.jump.label]) (Case.meanings_labels hys)

/-- A command jumps where it says, and nowhere else. -/
theorem Command.jumps_of_meaning {c : Command} (h : c.meaning s p = .ok i) :
    i.IsPaired ∧ i.jumps.map LabelRef.name = c.jumps.map String.ofList := by
  cases c with
  | switch w => exact Switch.jumps_of_meaning h
  | ret r g =>
    cases r with
    | none =>
      cases h
      exact ⟨trivial, rfl⟩
    | some r =>
      obtain ⟨e, _, h⟩ := Attempt.bind_eq_ok.mp h
      cases h
      exact ⟨trivial, rfl⟩
  | branch b =>
    obtain ⟨e, _, h⟩ := Attempt.bind_eq_ok.mp h
    cases h
    exact ⟨trivial, rfl⟩
  | call x g =>
    obtain ⟨e, _, h⟩ := Attempt.bind_eq_ok.mp h
    cases h
    exact ⟨trivial, rfl⟩
  | assign a =>
    obtain ⟨q, e, _, _, ⟨_, rfl⟩ | ⟨_, _, rfl⟩⟩ := a.parts_of_meaning h
    · exact ⟨trivial, rfl⟩
    · exact ⟨trivial, rfl⟩
  | goto j =>
    cases h
    exact ⟨trivial, rfl⟩
  | nop g =>
    cases h
    exact ⟨trivial, rfl⟩

theorem Layout.decides_resolveInstr (hi : i.IsPaired) : Decides (l.resolveInstr i)
    (∀ x ∈ i.jumps, x.name ∈ l.marks.map fun m => m.label.name) True := by
  cases i with
  | branch c x | goto x =>
    rw [Instr.jumps, List.forall_mem_singleton]
    exact (l.decides_resolve x).map
  | switch v ks xs d =>
    have hks : ks.length = xs.length := hi
    rw [Instr.jumps, List.map_snd_zip hks.ge, List.forall_mem_append, List.forall_mem_singleton]
    refine ((decides_mapM fun x _ => l.decides_resolve x).bind fun _ _ =>
      (l.decides_resolve d).map).congr Iff.rfl ?_
    exact iff_of_true ⟨fun _ _ => trivial, trivial⟩ trivial
  | assign _ _ | call _ _ | ret _ | nop =>
    exact (decides_ok _).congr (iff_of_true trivial (List.forall_mem_nil _)) Iff.rfl

theorem Layout.decides_body (hstmts : ∀ y ∈ l.stmts, y.instr.IsPaired) : Decides l.body
    (((l.marks.map fun m => m.label.name).Nodup ∧ ∀ m ∈ l.marks, m.index ≠ l.stmts.length) ∧
      ∀ y ∈ l.stmts, ∀ x ∈ y.instr.jumps, x.name ∈ l.marks.map fun m => m.label.name) True :=
  (l.decides_check.bind fun _ _ =>
    decides_mapM fun y hy => (l.decides_resolveInstr (hstmts y hy)).map).congr Iff.rfl
      (iff_of_true ⟨trivial, fun _ _ => trivial⟩ trivial)

end Jumps

section Bodies

variable {s : Scope} {ns : List (List Char)} {p : Pos} {l : Layout LabelRef} {items : List Item}

/-- The layout of a body: its marks are the labels of the items, its statements their commands. -/
theorem Layout.of_ofItems_empty (h : ofItems s p .empty items = .ok l) :
    l.marks.map Mark.entry = markedFrom 0 items ∧
      List.Forall₂ (fun c (y : Pending LabelRef) => ∃ p, c.meaning s p = .ok y.instr)
        (commands items) l.stmts := by
  obtain ⟨hmarks, ys, hys, hmeans⟩ := extends_of_ofItems h
  exact ⟨hmarks, hys ▸ hmeans⟩

theorem Layout.isPaired_of_ofItems (h : ofItems s p .empty items = .ok l) :
    ∀ y ∈ l.stmts, y.instr.IsPaired :=
  forall_ofItems (fun _ _ _ hc => (Command.jumps_of_meaning hc).1) (List.forall_mem_nil _) h

/-- The check of a body behind its layout is decided by the rules for labels. -/
theorem Layout.decides_body_of_ofItems (h : ofItems s p .empty items = .ok l) :
    Decides l.body (LabelsAreSound items) True := by
  obtain ⟨hmarks, hmeans⟩ := of_ofItems_empty h
  have hnames : (l.marks.map fun m => m.label.name) = (labels items).map String.ofList := by
    rw [← map_fst_markedFrom 0, ← hmarks, List.map_map]
    rfl
  have hindex : (∀ m ∈ l.marks, m.index ≠ l.stmts.length) ↔
      ∀ m ∈ markedFrom 0 items, m.2 ≠ (commands items).length := by
    rw [← hmarks, List.forall_mem_map, hmeans.length_eq]
    exact Iff.rfl
  have hinj : Function.Injective String.ofList := fun _ _ => String.ofList_injective
  have hjumps : (∀ c ∈ commands items, ∀ x ∈ c.jumps, x ∈ labels items) ↔
      ∀ y ∈ l.stmts, ∀ x ∈ y.instr.jumps, x.name ∈ (labels items).map String.ofList := by
    refine Attempt.forall_mem_iff_of_forall₂ hmeans fun c y ⟨_, hc⟩ => ?_
    have hmem : (∀ x ∈ y.instr.jumps.map LabelRef.name, x ∈ (labels items).map String.ofList) ↔
        ∀ x ∈ c.jumps, x ∈ labels items := by
      rw [(Command.jumps_of_meaning hc).2, List.forall_mem_map]
      simp only [List.mem_map_of_injective hinj]
    rw [← hmem, List.forall_mem_map]
  refine (l.decides_body (isPaired_of_ofItems h)).congr ?_ Iff.rfl
  rw [hnames, List.nodup_map_iff hinj, hindex, followed_iff, ← hjumps]
  exact ⟨fun h => ⟨h.1.1, h.1.2, h.2⟩, fun h => ⟨⟨h.distinct, h.followed⟩, h.defined⟩⟩

/-- Behind the check of its labels, a body has jumps to the statements behind their labels. -/
theorem Layout.leads_of_resolve (h : ofItems s p .empty items = .ok l) (hcheck : l.check = .ok ())
    {x : LabelRef} {y : List Char} (hxy : x.name = String.ofList y) {t : Target}
    (ht : l.resolve x = .ok t) : LeadsToStatement items y t := by
  obtain ⟨hmarks, hmeans⟩ := of_ofItems_empty h
  obtain ⟨m, hm, hname, rfl⟩ := mem_of_resolve ht
  refine leadsToStatement_of_mem ?_ ?_
  · have hentry : m.entry ∈ markedFrom 0 items := hmarks ▸ List.mem_map_of_mem hm
    rwa [Mark.entry, hname, hxy] at hentry
  · rw [hmeans.length_eq]
    exact (l.decides_check.exists_iff.mp ⟨(), hcheck⟩).2 m hm

theorem Layout.jumps_of_body (h : ofItems s p .empty items = .ok l) {xs : List Stmt}
    (hbody : l.body = .ok xs) : List.Forall₂ (fun (c : Command) (x : Stmt) =>
      List.Forall₂ (LeadsToStatement items) c.jumps x.instr.jumps) (commands items) xs := by
  obtain ⟨hcheck, hrel⟩ := rel_of_body hbody
  refine Attempt.forall₂_trans (of_ofItems_empty h).2 hrel ?_
  rintro c y x ⟨_, hc⟩ hx
  obtain ⟨hpaired, hnames⟩ := Command.jumps_of_meaning hc
  have hlabels : List.Forall₂ Eq (c.jumps.map String.ofList) (y.instr.jumps.map LabelRef.name) := by
    rw [List.forall₂_eq_eq_eq]
    exact hnames.symm
  rw [List.forall₂_map_left_iff, List.forall₂_map_right_iff] at hlabels
  refine Attempt.forall₂_trans hlabels (hx.jumps hpaired) fun z w t hzw ht => ?_
  exact leads_of_resolve h hcheck hzw.symm ht

theorem Layout.isPaired_of_body (h : ofItems s p .empty items = .ok l) {xs : List Stmt}
    (hbody : l.body = .ok xs) : ∀ x ∈ xs, x.instr.IsPaired :=
  forall_body hbody (isPaired_of_ofItems h) fun _ _ hi => hi.isPaired

end Bodies

end Source

end MethodFlow
