import MethodFlow.Proofs.CheckedBody
import MethodFlow.Proofs.CheckedDeclarations
import MethodFlow.Proofs.WrittenTypes

/-!
A text that is a program is accepted exactly when it keeps the static rules, and is else said to
mean nothing; in what is accepted, jumps lead to the statements behind their labels.
-/

namespace MethodFlow.Source

open Reader

section Methods

variable {p : Pos} {d : MethodDecl} {m : Method}

theorem TypeName.IsWritten.isMeant_iff {t : TypeName} (h : t.IsWritten) :
    t.IsMeant ↔ ¬ t.IsVoidArray :=
  (t.decides_isMeant .start).exists_iff.symm.trans (h.decides .start).exists_iff

theorem isMeant_iff_of_areWritten {ts : List TypeName} (h : ∀ t ∈ ts, t.IsWritten) :
    (∀ t ∈ ts, t.IsMeant) ↔ ∀ t ∈ ts, ¬ t.IsVoidArray :=
  forall₂_congr fun t ht => (h t ht).isMeant_iff

/-- The parameters of a method as a declaration. -/
theorem declares_optional_params (p : Pos) (ps : Option Params) :
    Declares (fun s => ps.elim (.ok s) fun ps => declareParams s (ps.list.placed p Param.text))
      ((ps.elim [] Params.items).map Param.name) (∀ t ∈ ps.elim [] Params.types, t.IsMeant) := by
  cases ps with
  | none => exact declares_nothing.congr (iff_of_true trivial (List.forall_mem_nil _))
  | some ps =>
    have hitems : (ps.list.placed p Param.text).map Prod.snd = ps.items := placed_items _ _ _
    have hnames : ps.items.map Param.name =
        (ps.list.placed p Param.text).map fun x => x.2.name := by
      rw [← hitems, List.map_map]
      rfl
    have htypes : (∀ t ∈ ps.types, t.IsMeant) ↔
        ∀ x ∈ ps.list.placed p Param.text, x.2.type.IsMeant := by
      rw [Params.types, List.forall_mem_map, ← placed_items Param.text p, List.forall_mem_map]
    rw [Option.elim_some, Option.elim_some, hnames]
    exact (declares_params _).congr htypes.symm

/-- The check of a method is decided by its rules. -/
theorem MethodDecl.decides (p : Pos) (ht : ∀ t ∈ d.types, t.IsWritten) :
    Decides (d.meaning p) d.IsSound d.IsWieldy := by
  obtain ⟨hret, ht⟩ := List.forall_mem_cons.mp ht
  obtain ⟨ht, hitems⟩ := List.forall_mem_append.mp ht
  let start := p.after d.front
  have hparams := declares_optional_params (p.after d.head) d.params
  have hvars := declares_vars start d.decls
  have hfirst := hparams.decides [] [] rfl .nil
  have hdecides : Decides (d.meaning p) (¬ d.type.IsVoidArray ∧
      (((d.params.elim [] Params.items).map Param.name).Nodup ∧
        ∀ t ∈ d.params.elim [] Params.types, t.IsMeant) ∧
      (d.declared.Nodup ∧ ∀ v ∈ d.decls, v.type.IsMeant) ∧
      (∀ c ∈ commands d.items, c.IsSound d.declared) ∧ LabelsAreSound d.items)
      (True ∧ True ∧ True ∧ d.IsWieldy ∧ True) := by
    refine (hret.decides _).bind fun ret _ => hfirst.bind fun params hparams' => ?_
    have hnames := hparams.adds [] params hparams'
    refine (hvars.decides params _ hnames (hfirst.exists_iff.mp ⟨params, hparams'⟩).1).bind ?_
    intro scope hscope
    have hdeclared : scope.map Var.name = d.declared.map String.ofList := by
      rw [hvars.adds params scope hscope, hnames, declared, List.map_append]
      rfl
    refine (Layout.decides_ofItems hdeclared hitems).bind fun l hl => ?_
    exact (Layout.decides_body_of_ofItems hl).map
  have htypes := isMeant_iff_of_areWritten ht
  rw [List.forall_mem_append, List.forall_mem_map] at htypes
  refine hdecides.congr ⟨fun h => ?_, fun h => ?_⟩
    ⟨fun h => h.2.2.2.1, fun h => ⟨trivial, trivial, trivial, h, trivial⟩⟩
  · obtain ⟨hvoid, ⟨_, hps⟩, ⟨hnodup, hds⟩, hcommands, hlabels⟩ := h
    exact ⟨hnodup, List.forall_mem_cons.mpr ⟨hvoid, htypes.mp ⟨hps, hds⟩⟩, hcommands, hlabels⟩
  · obtain ⟨hvoid, hrest⟩ := List.forall_mem_cons.mp h.types
    obtain ⟨hps, hds⟩ := htypes.mpr hrest
    exact ⟨hvoid, ⟨h.distinct.of_append_left, hps⟩, ⟨h.distinct, hds⟩, h.commands, h.labels⟩

theorem MethodDecl.jumpsAsWritten_of_meaning (h : d.meaning p = .ok m) : d.JumpsAsWritten m := by
  obtain ⟨_, _, _, l, xs, _, _, _, hl, hxs, rfl⟩ := d.parts_of_meaning h
  exact Layout.jumps_of_body hl hxs

theorem MethodDecl.name_of_meaning (h : d.meaning p = .ok m) : m.name = String.ofList d.name := by
  obtain ⟨_, _, _, _, _, _, _, _, _, _, rfl⟩ := d.parts_of_meaning h
  rfl

end Methods

section Programs

variable {p : Pos} {ds : List MethodDecl} {x : Program}

/-- The methods that were understood, unless anything is wrong. -/
def Reading.check (r : Reading) : Checked (List Method) :=
  match r.error? with
  | some e => .error e
  | none => .ok r.methods

theorem parse_eq_check (text : String) : parse text = (readText text.toList).check := rfl

theorem parse_of_program {text : String} (h : program text.toList = some (x, [])) :
    parse text = x.meaning.check := by
  rw [parse_eq_check, readText_of_program h]

/-- The beginning of a text is always read as a program. -/
theorem exists_program (cs : List Char) : ∃ x rest, program cs = some (x, rest) := by
  obtain ⟨⟨lead, r⟩, hlead⟩ := exists_many blank cs
  obtain ⟨⟨ds, rest⟩, hds⟩ := exists_many methodDecl r
  exact ⟨⟨lead, ds⟩, rest, bind_of hlead (bind_of hds rfl)⟩

/-- What is accepted is a program that means something. -/
theorem program_of_parse {text : String} {ms : List Method} (h : parse text = .ok ms) :
    ∃ x, program text.toList = some (x, []) ∧ x.meaning.check = .ok ms := by
  obtain ⟨x, rest, hprogram⟩ := exists_program text.toList
  cases rest with
  | nil => exact ⟨_, hprogram, (parse_of_program hprogram).symm.trans h⟩
  | cons c rest =>
    rw [parse_eq_check, readText, Program.ofText, hprogram, Option.getD_some] at h
    cases h

theorem meanings_cons (d : MethodDecl) : (meanings p (d :: ds)).check =
    (d.meaning p >>= fun m =>
      (meanings (p.after d.text) ds).check >>= fun ms => pure (m :: ms)) := by
  rw [meanings]
  cases hd : d.meaning p with
  | error e => rfl
  | ok m =>
    rw [Attempt.ok_bind]
    unfold Reading.check
    dsimp only
    split <;> rfl

/-- The methods of a program are the meanings of its declarations. -/
theorem forall₂_of_meanings {ms : List Method} (h : (meanings p ds).check = .ok ms) :
    List.Forall₂ (fun d m => ∃ p, d.meaning p = .ok m) ds ms := by
  induction ds generalizing p ms with
  | nil =>
    cases h
    exact .nil
  | cons d ds ih =>
    rw [meanings_cons] at h
    obtain ⟨m, hm, h⟩ := Attempt.bind_eq_ok.mp h
    obtain ⟨ms, hms, h⟩ := Attempt.bind_eq_ok.mp h
    cases h
    exact .cons ⟨p, hm⟩ (ih hms)

theorem decides_meanings (ht : ∀ t ∈ ds.flatMap MethodDecl.types, t.IsWritten) :
    Decides (meanings p ds).check (∀ d ∈ ds, d.IsSound) (∀ d ∈ ds, d.IsWieldy) := by
  induction ds generalizing p with
  | nil =>
    exact (decides_ok []).congr (iff_of_true trivial (List.forall_mem_nil _))
      (iff_of_true trivial (List.forall_mem_nil _))
  | cons d ds ih =>
    rw [List.flatMap_cons, List.forall_mem_append] at ht
    rw [meanings_cons]
    exact ((d.decides p ht.1).bind fun _ _ => (ih ht.2).map).congr List.forall_mem_cons.symm
      List.forall_mem_cons.symm

/-- A program is checked method by method, and then for methods of one name. -/
theorem Program.check_meaning (x : Program) : x.meaning.check =
    ((meanings (Pos.start.after x.lead.text) x.methods).check >>= fun ms =>
      match repeatedMethod? [] ms with
      | some name => .error ⟨.methodTwice name, none⟩
      | none => .ok ms) := by
  rw [meaning]
  generalize meanings (Pos.start.after x.lead.text) x.methods = r
  obtain ⟨ms, e?⟩ := r
  cases e? with
  | some e => rfl
  | none =>
    have hcheck : Reading.check ⟨ms, none⟩ = .ok ms := rfl
    rw [hcheck, Attempt.ok_bind, Reading.close]
    dsimp only
    cases repeatedMethod? [] ms <;> rfl

/-- The methods of a program have the names that are declared. -/
theorem names_of_meanings {ms : List Method} (h : (meanings p ds).check = .ok ms) :
    ms.map Method.name = (ds.map MethodDecl.name).map String.ofList := by
  rw [List.map_map, ← List.forall₂_eq_eq_eq, List.forall₂_map_left_iff, List.forall₂_map_right_iff]
  refine (forall₂_of_meanings h).flip.imp fun m d hm => ?_
  obtain ⟨p, hm⟩ := hm
  exact MethodDecl.name_of_meaning hm

theorem Program.decides (ht : ∀ t ∈ x.types, t.IsWritten) :
    Decides x.meaning.check x.IsSound x.IsWieldy := by
  rw [x.check_meaning]
  have hmethods := decides_meanings (p := Pos.start.after x.lead.text) ht
  refine (hmethods.bind fun ms hms => ?_).congr
    ⟨fun h => ⟨h.2, h.1⟩, fun h => ⟨h.methods, h.distinct⟩⟩ (and_iff_left trivial)
  have hinj : Function.Injective String.ofList := fun _ _ => String.ofList_injective
  rw [← List.nodup_map_iff hinj, ← names_of_meanings hms, ← repeatedMethod?_eq_none]
  split
  · rename_i name hname
    have hsome : repeatedMethod? [] ms ≠ none := fun hnone => nomatch hname.symm.trans hnone
    refine ⟨iff_of_false nofun fun h => hsome h.1, fun e he => ?_⟩
    cases he
    exact .inl ⟨rfl, hsome⟩
  · rename_i hnone
    exact (decides_ok ms).congr (iff_of_true trivial hnone) Iff.rfl

/-- A text that is a program is accepted exactly when the program is sound and its numbers can be
converted. Else it is said to mean nothing, which it does not, or its check breaks off at a number.
What is accepted are the declared methods, with jumps that lead as written. -/
theorem parse_decides {text : String} (h : Reader.program text.toList = some (x, []))
    (hbare : ∀ t ∈ x.types, t.isBare = true) :
    ((∃ ms, parse text = .ok ms) ↔ x.IsSound ∧ x.IsWieldy) ∧
      (∀ e, parse text = .error e → e.cause.severity = .meaningless ∧ ¬ x.IsSound ∨
        e.cause.severity = .unforeseen ∧ ¬ x.IsWieldy) ∧
      ∀ ms, parse text = .ok ms → List.Forall₂ MethodDecl.JumpsAsWritten x.methods ms := by
  have hdecides := Program.decides fun t ht => areWritten_of_program h t ht (hbare t ht)
  rw [parse_of_program h]
  refine ⟨hdecides.succeeds, hdecides.fails, fun ms hms => ?_⟩
  rw [x.check_meaning] at hms
  obtain ⟨ms', hms', hms⟩ := Attempt.bind_eq_ok.mp hms
  split at hms
  · cases hms
  · cases hms
    refine (forall₂_of_meanings hms').imp fun d m hm => ?_
    obtain ⟨p, hm⟩ := hm
    exact MethodDecl.jumpsAsWritten_of_meaning hm

/-- A method that returns a number keeps the rules, however long the number is. -/
theorem isSound_returningDecl (ds : Digits) : (returningDecl ds).IsSound := by
  have htypes : (returningDecl ds).declaredTypes = [(returningDecl ds).type] := rfl
  have hcommands : commands (returningDecl ds).items =
      [.ret (some ⟨[.space ' '], .int ⟨false, ds⟩⟩) []] := rfl
  refine ⟨List.nodup_nil, ?_, ?_, List.nodup_nil, ?_, ?_⟩
  · rw [htypes, List.forall_mem_singleton]
    exact fun h => h.2 rfl
  · rw [hcommands, List.forall_mem_singleton]
    exact (Command.isSound_of_plain _ rfl).mp (List.forall_mem_nil _)
  · intro before l after h
    have hmem : Item.label l ∈ (returningDecl ds).items := by
      rw [h]
      exact List.mem_append_right before List.mem_cons_self
    cases List.mem_singleton.mp hmem
  · rw [hcommands, List.forall_mem_singleton]
    exact List.forall_mem_nil _

/-- A decimal number of one digit more than can be read. -/
def longDecimal : Digits :=
  .decimal (List.replicate 4301 '1')

/-- A program with a decimal number that is too long keeps all rules, and is not accepted; nor is it
said to mean nothing. -/
theorem longDecimal_breaksOff :
    Reader.program (returningText longDecimal).toList =
      some (⟨[], [returningDecl longDecimal]⟩, []) ∧
      (∀ t ∈ Program.types ⟨[], [returningDecl longDecimal]⟩, t.isBare = true) ∧
      Program.IsSound ⟨[], [returningDecl longDecimal]⟩ ∧
      parse (returningText longDecimal) = .error ⟨.overlong (.text 4301), none⟩ := by
  have hback : longDecimal.IsReadBack := Digits.isReadBack_decimal 4300
  have hvalue : longDecimal.value = .error (.text 4301) := by
    have hlong : ¬ 4301 ≤ Text.digitLimit := by decide
    unfold longDecimal
    rw [Digits.value, Text.readDecimal, List.length_map, List.length_replicate, if_neg hlong]
  refine ⟨program_returning hback, by decide, ⟨List.nodup_singleton _, ?_⟩, ?_⟩
  · exact List.forall_mem_singleton.mpr (isSound_returningDecl longDecimal)
  · rw [parse_returning hback, Number.value, hvalue]
    rfl

/-- A program with two labels in front of one statement, and a jump ahead to the first. -/
def aheadText : String :=
  "method int f(int n) \x7b goto L; L: M: return n; \x7d"

/-- What is read of `aheadText`. -/
def aheadMethod : Method :=
  let n : Var := ⟨"n", .prim .int⟩
  ⟨"f", [n], .prim .int, [n], [⟨.goto (.stmt 1), 1⟩, ⟨.ret (some (.var n)), 1⟩]⟩

set_option maxRecDepth 20000 in
theorem parse_decides_ahead : ∃ x, Reader.program aheadText.toList = some (x, []) ∧
    (∀ t ∈ x.types, t.isBare = true) ∧ x.IsSound ∧ x.IsWieldy ∧
      parse aheadText = .ok [aheadMethod] ∧
      List.Forall₂ MethodDecl.JumpsAsWritten x.methods [aheadMethod] := by
  have hread : Reader.program aheadText.toList =
      some ((Program.ofText aheadText.toList).1, []) := by
    simp only [aheadText, String.reduceToList]
    rfl
  have hbare : ∀ t ∈ (Program.ofText aheadText.toList).1.types, t.isBare = true := by
    simp only [aheadText, String.reduceToList]
    decide
  have hparse : parse aheadText = .ok [aheadMethod] := by
    simp only [parse, aheadText, String.reduceToList]
    rfl
  obtain ⟨hsucceeds, -, hjumps⟩ := parse_decides hread hbare
  obtain ⟨hsound, hwieldy⟩ := hsucceeds.mp ⟨_, hparse⟩
  exact ⟨_, hread, hbare, hsound, hwieldy, hparse, hjumps _ hparse⟩

end Programs

end MethodFlow.Source
