import MethodFlow.Proofs.Attempt
import MethodFlow.Proofs.Meanings

/-!
What a builder makes of a method is the meaning that the method has by itself. Declarations do to
the scope of the builder what they do to a scope; the jumps that it notes are those of the layout,
numbered in their order; and since it drops what it holds where a method begins, it does not matter
what it held of other methods.
-/

namespace MethodFlow.Source

section Builders

variable {α β : Type}

theorem run_bind (x : Visit α) (f : α → Visit β) (b : Builder) :
    (x >>= f).run b = x.run b >>= fun r => (f r.1).run r.2 :=
  rfl

/-- What is checked without the builder leaves it as it is. -/
theorem run_liftM (x : Checked α) (b : Builder) :
    (liftM x : Visit α).run b = x >>= fun a => .ok (a, b) := by
  cases x <;> rfl

/-- What is left of a builder by declarations, which change nothing but the scope. -/
def Builder.extend (b : Builder) (x : Checked Scope) : Checked (Unit × Builder) :=
  x >>= fun s => .ok ((), { b with scope := s })

theorem run_declare (p : Pos) (v : Var) (b : Builder) :
    (Builder.declare p v).run b = b.extend (b.scope.declare p v) := by
  have hrun : (Builder.declare p v).run b = (liftM (b.scope.declare p v) >>=
      fun s => modify fun b => { b with scope := s } : Visit Unit).run b := rfl
  rw [hrun, run_bind, run_liftM]
  cases b.scope.declare p v <;> rfl

theorem run_declareAll (ty : Ty) (xs : List (Pos × List Char)) (b : Builder) :
    (xs.forM fun x => Builder.declare x.1 ⟨String.ofList x.2, ty⟩).run b =
      b.extend (declareAll ty b.scope xs) := by
  induction xs generalizing b with
  | nil => rfl
  | cons x xs ih =>
    rw [List.forM, run_bind, run_declare, declareAll]
    cases b.scope.declare x.1 ⟨String.ofList x.2, ty⟩ with
    | error e => rfl
    | ok s => exact ih { b with scope := s }

theorem VarDecl.run_visit (p : Pos) (d : VarDecl) (b : Builder) :
    (d.visit p).run b = b.extend (d.declare b.scope p) := by
  rw [VarDecl.visit, run_bind, run_liftM, VarDecl.declare]
  cases d.type.meaning p with
  | error e => rfl
  | ok ty => exact run_declareAll ty _ b

theorem run_visitVars (p : Pos) (ds : List VarDecl) (b : Builder) :
    (visitVars p ds).run b = b.extend (declareVars b.scope p ds) := by
  induction ds generalizing p b with
  | nil => rfl
  | cons d ds ih =>
    rw [visitVars, run_bind, d.run_visit, declareVars]
    cases d.declare b.scope p with
    | error e => rfl
    | ok s => exact ih (p.after d.text) { b with scope := s }

/-- A builder that is among the parameters of a method. -/
def Builder.among (params : List Var) : Builder :=
  ⟨params, params, []⟩

theorem Param.run_visit (p : Pos) (x : Param) (s : Scope) :
    (x.visit p).run (.among s) = x.declare s p >>= fun s => .ok ((), .among s) := by
  rw [Param.visit, run_bind, run_liftM, Param.declare]
  cases x.type.meaning p with
  | error e => rfl
  | ok ty =>
    let v : Var := ⟨String.ofList x.name, ty⟩
    show (Builder.declare (p.after x.head) v >>= fun _ => modify fun b =>
      { b with params := b.params ++ [v] } : Visit Unit).run (.among s) =
        s.declare (p.after x.head) v >>= fun s => .ok ((), .among s)
    rw [run_bind, run_declare, Builder.among, Scope.declare]
    split <;> rfl

theorem run_visitParams (xs : List (Pos × Param)) (s : Scope) :
    (xs.forM fun x => x.2.visit x.1 : Visit Unit).run (.among s) =
      declareParams s xs >>= fun s => .ok ((), .among s) := by
  induction xs generalizing s with
  | nil => rfl
  | cons x xs ih =>
    rw [List.forM, run_bind, Param.run_visit, declareParams]
    cases x.2.declare s x.1 with
    | error e => rfl
    | ok s => exact ih s

end Builders

end MethodFlow.Source

namespace MethodFlow.Instr

variable {τ : Type}

/-- The places of all jumps of a statement, in the order in which a builder notes them. -/
def places : Instr τ → List τ
  | branch _ t | goto t => [t]
  | switch _ _ ts d => ts ++ [d]
  | assign _ _ | call _ _ | ret _ | nop => []

/-- The statement with its jumps numbered from `k` on. -/
def number (k : Nat) : Instr τ → Instr Nat
  | branch c _ => .branch c k
  | goto _ => .goto k
  | switch v ks ts _ => .switch v ks (List.range' k ts.length) (k + ts.length)
  | assign q e => .assign q e
  | call q e => .call q e
  | ret e => .ret e
  | nop => .nop

end MethodFlow.Instr

namespace MethodFlow.Source

section Jumps

theorem run_jumpsTo (xs : List LabelRef) (b : Builder) :
    (xs.mapM Builder.jumpTo).run b =
      .ok (List.range' b.fixups.length xs.length, { b with fixups := b.fixups ++ xs }) := by
  induction xs generalizing b with
  | nil =>
    rw [List.append_nil]
    rfl
  | cons x xs ih =>
    have hx : (Builder.jumpTo x).run b =
        .ok (b.fixups.length, { b with fixups := b.fixups ++ [x] }) := rfl
    rw [List.mapM_cons, run_bind, hx, Attempt.ok_bind, run_bind, ih, Attempt.ok_bind,
      List.append_assoc, List.length_append]
    rfl

theorem run_noteJumps (i : Instr LabelRef) (b : Builder) :
    (Builder.noteJumps i).run b =
      .ok (i.number b.fixups.length, { b with fixups := b.fixups ++ i.places }) := by
  cases i with
  | branch c x => rfl
  | goto x => rfl
  | switch v ks xs d =>
    rw [Builder.noteJumps, run_bind, run_jumpsTo, Attempt.ok_bind]
    have hd (b : Builder) : (Builder.jumpTo d).run b =
        .ok (b.fixups.length, { b with fixups := b.fixups ++ [d] }) := rfl
    rw [run_bind, hd, Attempt.ok_bind, List.length_append, List.append_assoc]
    rfl
  | _ =>
    rw [Instr.places, List.append_nil]
    rfl

namespace Layout

def numbered (k : Nat) : List (Pending LabelRef) → List (Pending Nat)
  | [] => []
  | y :: ys => ⟨y.instr.number k, y.line⟩ :: numbered (k + y.instr.places.length) ys

/-- The places of all jumps of some statements. -/
def placesOf (ys : List (Pending LabelRef)) : List LabelRef :=
  ys.flatMap fun y => y.instr.places

theorem placesOf_cons (y : Pending LabelRef) (ys : List (Pending LabelRef)) :
    placesOf (y :: ys) = y.instr.places ++ placesOf ys :=
  List.flatMap_cons

/-- The layout as a builder has it, which knows jumps by their numbers. -/
def number (l : Layout LabelRef) : Layout Nat :=
  ⟨l.marks, numbered 0 l.stmts⟩

variable {l l' : Layout LabelRef}

theorem length_numbered (k : Nat) (ys : List (Pending LabelRef)) :
    (numbered k ys).length = ys.length := by
  induction ys generalizing k with
  | nil => rfl
  | cons y ys ih => rw [numbered, List.length_cons, List.length_cons, ih]

theorem numbered_append (k : Nat) (xs ys : List (Pending LabelRef)) :
    numbered k (xs ++ ys) = numbered k xs ++ numbered (k + (placesOf xs).length) ys := by
  induction xs generalizing k with
  | nil => rfl
  | cons x xs ih =>
    rw [List.cons_append, numbered, numbered, ih, placesOf_cons, List.length_append, Nat.add_assoc,
      List.cons_append]

theorem check_number (l : Layout LabelRef) : l.number.check = l.check := by
  simp only [check, dangling?, number, length_numbered]

end Layout

/-- What a builder makes of an item is its layout, with the jumps numbered and noted. -/
def Builder.draw (b : Builder) (x : Checked (Layout LabelRef)) : Checked (Layout Nat × Builder) :=
  x >>= fun l => .ok (l.number, { b with fixups := Layout.placesOf l.stmts })

theorem Item.run_visit (p : Pos) (i : Item) {l : Layout LabelRef} {b : Builder}
    (hb : b.fixups = Layout.placesOf l.stmts) :
    (i.visit p l.number).run b = b.draw (l.add b.scope p i) := by
  cases i with
  | label x =>
    rw [Builder.draw, Layout.add, Attempt.ok_bind, ← hb]
    have hrun : (Item.visit p l.number (.label x)).run b =
        .ok (l.number.mark ⟨String.ofList x.name, p⟩, b) := rfl
    rw [hrun, Layout.mark, Layout.number, Layout.length_numbered]
    rfl
  | statement x =>
    have hrun : (Item.visit p l.number (.statement x)).run b =
        (liftM (x.command.meaning b.scope p) >>= fun i => Builder.noteJumps i >>= fun j =>
          pure (l.number.push ⟨j, p.line⟩) : Visit (Layout Nat)).run b := rfl
    rw [hrun, run_bind, run_liftM, Layout.add]
    cases x.command.meaning b.scope p with
    | error e => rfl
    | ok i =>
      let y : Pending LabelRef := ⟨i, p.line⟩
      have hplaces : Layout.placesOf (l.stmts ++ [y]) = b.fixups ++ i.places := by
        rw [Layout.placesOf, List.flatMap_append, List.flatMap_singleton, hb]
        rfl
      have hnumber : Layout.number ⟨l.marks, l.stmts ++ [y]⟩ =
          l.number.push ⟨i.number b.fixups.length, p.line⟩ := by
        rw [Layout.number, Layout.numbered_append, Nat.zero_add, ← hb]
        rfl
      show (Builder.noteJumps i >>= fun j => pure (l.number.push ⟨j, p.line⟩) :
        Visit (Layout Nat)).run b = b.draw (.ok ⟨l.marks, l.stmts ++ [y]⟩)
      rw [run_bind, run_noteJumps, Builder.draw, Attempt.ok_bind, Attempt.ok_bind, hplaces,
        hnumber]
      rfl

theorem run_visitItems (p : Pos) (xs : List Item) {l : Layout LabelRef} {b : Builder}
    (hb : b.fixups = Layout.placesOf l.stmts) :
    (visitItems p l.number xs).run b = b.draw (Layout.ofItems b.scope p l xs) := by
  induction xs generalizing p l b with
  | nil =>
    rw [Layout.ofItems, Builder.draw, Attempt.ok_bind, ← hb]
    rfl
  | cons x xs ih =>
    rw [visitItems, run_bind, x.run_visit p hb, Layout.ofItems]
    cases l.add b.scope p x with
    | error e => rfl
    | ok l' =>
      let b' : Builder := { b with fixups := Layout.placesOf l'.stmts }
      have hb' : b'.fixups = Layout.placesOf l'.stmts := rfl
      exact ih (p.after x.text) hb'

namespace Layout

variable {l : Layout LabelRef} {before after ts : List Target}

theorem length_of_resolveAll {xs : List LabelRef} (h : l.resolveAll xs = .ok ts) :
    ts.length = xs.length :=
  (Attempt.mapM_eq_ok.mp h).length_eq.symm

theorem resolveAll_append (xs ys : List LabelRef) : l.resolveAll (xs ++ ys) =
    l.resolveAll xs >>= fun ts => l.resolveAll ys >>= fun us => .ok (ts ++ us) :=
  List.mapM_append

theorem getD_append_length (before after : List Target) (t : Target) :
    (before ++ (t :: after)).getD before.length .unresolved = t := by
  rw [List.getD_eq_getElem?_getD, List.getElem?_append_right (Nat.le_refl _), Nat.sub_self]
  rfl

/-- The targets that stand at consecutive numbers in a list. -/
theorem map_getD_range' (before us after : List Target) :
    (List.range' before.length us.length).map
      (fun k => (before ++ (us ++ after)).getD k .unresolved) = us := by
  induction us generalizing before with
  | nil => rfl
  | cons u us ih =>
    have hrest := ih (before ++ [u])
    rw [List.length_append, List.append_assoc] at hrest
    rw [List.length_cons, List.range'_succ, List.map_cons, List.cons_append, getD_append_length]
    exact congrArg (u :: ·) hrest

/-- Resolving the jumps of a statement is resolving the labels that a builder noted for them, and
leading each jump to the target at its number, whatever stands in front of these and behind. -/
theorem resolveInstr_eq (l : Layout LabelRef) (i : Instr LabelRef) (before after : List Target) :
    l.resolveInstr i = l.resolveAll i.places >>= fun ts =>
      .ok ((i.number before.length).map fun k => (before ++ (ts ++ after)).getD k .unresolved) := by
  have hsingle (x : LabelRef) : l.resolveAll [x] = l.resolve x >>= fun t => .ok [t] :=
    List.mapM_cons
  cases i with
  | branch c x =>
    rw [Instr.places, hsingle, resolveInstr]
    cases l.resolve x with
    | error e => rfl
    | ok t =>
      show Except.ok (Instr.branch c t) =
        .ok (.branch c ((before ++ (t :: after)).getD before.length .unresolved))
      rw [getD_append_length]
  | goto x =>
    rw [Instr.places, hsingle, resolveInstr]
    cases l.resolve x with
    | error e => rfl
    | ok t =>
      show Except.ok (Instr.goto t) =
        .ok (.goto ((before ++ (t :: after)).getD before.length .unresolved))
      rw [getD_append_length]
  | switch v ks xs d =>
    rw [Instr.places, resolveAll_append, hsingle, resolveInstr, ← resolveAll]
    cases hxs : l.resolveAll xs with
    | error e => rfl
    | ok us =>
      cases l.resolve d with
      | error e => rfl
      | ok t =>
        have hus := map_getD_range' before us (t :: after)
        have ht := getD_append_length (before ++ us) after t
        rw [List.append_assoc, List.length_append, length_of_resolveAll hxs] at ht
        rw [length_of_resolveAll hxs] at hus
        show Except.ok (Instr.switch v ks us t) = .ok (.switch v ks
          ((List.range' before.length xs.length).map fun k =>
            (before ++ (us ++ [t] ++ after)).getD k .unresolved)
          ((before ++ (us ++ [t] ++ after)).getD (before.length + xs.length) .unresolved))
        rw [List.append_assoc us, List.singleton_append, hus, ht]
  | _ => rfl

/-- Resolving the jumps of statements one after the other is resolving all labels that a builder
noted, in their order, and leading the jumps then. -/
theorem resolveStmts_eq (l : Layout LabelRef) (ys : List (Pending LabelRef))
    (before : List Target) : ys.mapM l.resolveStmt = l.resolveAll (placesOf ys) >>= fun ts =>
      .ok ((numbered before.length ys).map (Pending.lead (before ++ ts))) := by
  induction ys generalizing before with
  | nil => rfl
  | cons y ys ih =>
    rw [List.mapM_cons, placesOf_cons, resolveAll_append, resolveStmt]
    cases hy : l.resolveAll y.instr.places with
    | error e =>
      rw [resolveInstr_eq l y.instr before [], hy]
      rfl
    | ok ts =>
      have hlength : (before ++ ts).length = before.length + y.instr.places.length := by
        rw [List.length_append, length_of_resolveAll hy]
      rw [ih (before ++ ts), hlength]
      cases l.resolveAll (placesOf ys) with
      | error e =>
        rw [resolveInstr_eq l y.instr before [], hy]
        rfl
      | ok us =>
        rw [resolveInstr_eq l y.instr before us, hy]
        simp only [Attempt.ok_bind, List.append_assoc]
        rfl

end Layout

end Jumps

theorem run_visitBody (p : Pos) (xs : List Item) {b : Builder} (hb : b.fixups = []) :
    (visitBody p xs).run b = Layout.ofItems b.scope p .empty xs >>= fun l =>
      l.body >>= fun ys => .ok (ys, { b with fixups := Layout.placesOf l.stmts }) := by
  have hitems : (visitItems p .empty xs).run b = b.draw (Layout.ofItems b.scope p .empty xs) :=
    run_visitItems p xs (l := .empty) hb
  rw [visitBody, run_bind, hitems]
  cases Layout.ofItems b.scope p .empty xs with
  | error e => rfl
  | ok l =>
    simp only [Attempt.ok_bind, Builder.draw]
    rw [run_bind, run_liftM, Layout.check_number, Layout.body]
    cases l.check with
    | error e => rfl
    | ok _ =>
      have hnoted (b : Builder) : (get : Visit Builder).run b = .ok (b, b) := rfl
      have hresolve : l.number.resolveAll (Layout.placesOf l.stmts) =
          l.resolveAll (Layout.placesOf l.stmts) := rfl
      simp only [Attempt.ok_bind]
      rw [run_bind, hnoted, Layout.resolveStmts_eq l l.stmts []]
      simp only [Attempt.ok_bind]
      rw [run_bind, run_liftM, hresolve]
      cases l.resolveAll (Layout.placesOf l.stmts) <;> rfl

/-- Whatever a builder held before, it comes to the meaning of a declaration. -/
theorem MethodDecl.run_visit (p : Pos) (d : MethodDecl) (b : Builder) :
    (d.visit p).run b >>= (fun r => .ok r.1) = d.meaning p := by
  have hreset : Builder.reset.run b = .ok ((), .among []) := rfl
  have hparams : (d.params.elim (pure ()) fun ps =>
      (ps.list.placed (p.after d.head) Param.text).forM fun x => x.2.visit x.1 : Visit Unit).run
        (.among []) = (d.params.elim (.ok []) fun ps =>
          declareParams [] (ps.list.placed (p.after d.head) Param.text)) >>= fun s =>
            .ok ((), .among s) := by
    cases d.params with
    | none => rfl
    | some ps => exact run_visitParams _ []
  rw [visit, meaning, run_bind, hreset, Attempt.ok_bind, run_bind, run_liftM]
  cases d.type.meaning (p.after d.start) with
  | error e => rfl
  | ok ret =>
    simp only [Attempt.ok_bind]
    rw [run_bind, hparams]
    generalize (d.params.elim (.ok []) fun ps =>
      declareParams [] (ps.list.placed (p.after d.head) Param.text)) = params
    cases params with
    | error e => rfl
    | ok params =>
      simp only [Attempt.ok_bind]
      rw [run_bind, run_visitVars, Builder.among]
      cases declareVars params (p.after d.front) d.decls with
      | error e => rfl
      | ok scope =>
        simp only [Attempt.ok_bind, Builder.extend]
        rw [run_bind, run_visitBody _ _ rfl]
        cases Layout.ofItems scope _ .empty d.items with
        | error e => rfl
        | ok l =>
          simp only [Attempt.ok_bind]
          cases l.body <;> rfl

/-- So it does on methods that stand one after the other. -/
theorem visitMethods_eq_meanings (p : Pos) (b : Builder) (ds : List MethodDecl) :
    visitMethods p b ds = meanings p ds := by
  induction ds generalizing p b with
  | nil => rfl
  | cons d ds ih =>
    rw [visitMethods, meanings, ← d.run_visit p b]
    cases (d.visit p).run b with
    | error e => rfl
    | ok r =>
      obtain ⟨m, b'⟩ := r
      simp only [Attempt.ok_bind]
      rw [ih]

theorem Program.visit_eq_meaning (x : Program) : x.visit = x.meaning := by
  rw [visit, meaning, visitMethods_eq_meanings]

/-- What is read from a program is its meaning. -/
theorem readText_of_program {cs : List Char} {x : Program} (h : Reader.program cs = some (x, [])) :
    readText cs = x.meaning := by
  rw [readText, Program.ofText, h, Option.getD_some]
  exact x.visit_eq_meaning

end MethodFlow.Source
