import MethodFlow.Proofs.BoundedFacts
import MethodFlow.Proofs.FreshResults
import MethodFlow.Proofs.WrittenGraphs
import MethodFlow.Report.Sexp
import MethodFlow.Report.Text

/-!
What can go wrong when methods and results of analyses are shown. Everything that a result is asked
for is there, and its constants are words, so all that can be wrong is an integer with too many
digits, and that stands in the method itself.
-/

namespace MethodFlow

open Text

theorem isWritable_of_fits {n : Int} (h : Word32.Fits n) : isWritable n = true := by
  have hword : n.natAbs < 10 ^ 10 := by
    unfold Word32.Fits at h
    omega
  have hlimit : (10 : Nat) ^ 10 ≤ 10 ^ digitLimit := Nat.pow_le_pow_right (by decide) (by decide)
  have hlength : (Nat.toDigits 10 n.natAbs).length ≤ digitLimit :=
    (Nat.length_toDigits_le_iff (by decide) (by decide)).mpr (hword.trans_le hlimit)
  exact decide_eq_true hlength

namespace Method

/-- The integers that show when a method does: those in its statements, their positions and their
lines. -/
def shown (m : Method) : List Int :=
  m.numbers ++ m.body.zipIdx.flatMap fun s => [(s.2 : Int), s.1.line]

section Shown

variable {m : Method} {i : Nat} {s : Stmt}

theorem position_mem_shown (h : (s, i) ∈ m.body.zipIdx) : (i : Int) ∈ m.shown :=
  List.mem_append_right _ (List.mem_flatMap.mpr ⟨(s, i), h, List.mem_cons_self⟩)

theorem line_mem_shown (h : (s, i) ∈ m.body.zipIdx) : s.line ∈ m.shown :=
  List.mem_append_right _
    (List.mem_flatMap.mpr ⟨(s, i), h, List.mem_cons_of_mem _ List.mem_cons_self⟩)

end Shown

/-- An integer of a method has too many digits. -/
def IsOverlong (m : Method) : Prop :=
  ∃ n ∈ m.shown, isWritable n = false

/-- An integer of a method, or a word. -/
def MayShow (m : Method) (n : Int) : Prop :=
  n ∈ m.shown ∨ Word32.Fits n

theorem MayShow.isOverlong {m : Method} {n : Int} (h : m.MayShow n) (hn : isWritable n = false) :
    m.IsOverlong := by
  refine ⟨n, h.resolve_right fun hfits => ?_, hn⟩
  cases hn.symm.trans (isWritable_of_fits hfits)

/-- Something that is there, and has a property, unless an integer of a method has too many digits;
`wrap` is what the error of that is like. -/
structure Gives {ε α : Type} (wrap : Overlong → ε) (m : Method) (P : α → Prop) (x : Except ε α) :
    Prop where
  ok : ∀ a, x = .ok a → P a
  error : ∀ e, x = .error e → e = wrap .number ∧ m.IsOverlong

namespace Gives

variable {ε α β : Type} {wrap : Overlong → ε} {m : Method} {P : α → Prop} {Q : β → Prop}

theorem of_ok {a : α} (h : P a) : Gives wrap m P (.ok a) :=
  ⟨fun _ ha => Except.ok.inj ha ▸ h, nofun⟩

theorem bind {x : Except ε α} {f : α → Except ε β} (hx : Gives wrap m P x)
    (hf : ∀ a, P a → Gives wrap m Q (f a)) : Gives wrap m Q (x >>= f) := by
  refine ⟨fun b hb => ?_, fun e he => ?_⟩
  · obtain ⟨a, ha, hb⟩ := Attempt.bind_eq_ok.mp hb
    exact (hf a (hx.ok a ha)).ok b hb
  · rcases Attempt.bind_eq_error.mp he with he | ⟨a, ha, he⟩
    · exact hx.error e he
    · exact (hf a (hx.ok a ha)).error e he

theorem map {x : Except ε α} {f : α → β} (hx : Gives wrap m P x) (hf : ∀ a, P a → Q (f a)) :
    Gives wrap m Q (x >>= fun a => pure (f a)) :=
  hx.bind fun a ha => of_ok (hf a ha)

theorem mapM {f : α → Except ε β} {xs : List α} (h : ∀ x ∈ xs, Gives wrap m Q (f x)) :
    Gives wrap m (fun ys => ∀ y ∈ ys, Q y) (xs.mapM f) := by
  induction xs with
  | nil => exact of_ok (List.forall_mem_nil Q)
  | cons x xs ih =>
    obtain ⟨hx, hxs⟩ := List.forall_mem_cons.mp h
    rw [List.mapM_cons]
    exact hx.bind fun y hy => (ih hxs).map fun ys hys => List.forall_mem_cons.mpr ⟨hy, hys⟩

theorem lift {x : Except Overlong α} (h : Gives id m P x) : Gives wrap m P (x.mapError wrap) := by
  cases x with
  | ok a => exact of_ok (h.ok a rfl)
  | error e =>
    obtain ⟨rfl, hlong⟩ := h.error e rfl
    exact ⟨nofun, fun _ he => ⟨(Except.error.inj he).symm, hlong⟩⟩

/-- What can be had if integers that a method may show can be written. -/
theorem of_written {ns : List Int} {a : α} (h : ∀ n ∈ ns, m.MayShow n) :
    Gives id m (fun _ => True) (Text.written ns a) := by
  refine ⟨fun _ _ => trivial, fun e he => ?_⟩
  obtain ⟨rfl, n, hn, hlong⟩ := written_eq_error he
  exact ⟨rfl, (h n hn).isOverlong hlong⟩

end Gives

/-- What a method is asked for that a fault may come up in. -/
abbrev Answers {α : Type} (m : Method) (P : α → Prop) (x : Except Fault α) : Prop :=
  Gives Fault.overlong m P x

end Method

open Method

section Statements

variable {m : Method} {s : Stmt}

theorem Method.mayShow_of_mem_numbers {n : Int} (h : n ∈ m.numbers) : m.MayShow n :=
  .inl (List.mem_append_left _ h)

theorem Stmt.gives_render (h : s ∈ m.body) : Gives id m (fun _ => True) s.instr.render := by
  rw [Instr.render, Instr.renderWith_eq]
  exact .of_written fun _ hn => mayShow_of_mem_numbers (Method.mem_numbers h hn)

theorem Method.gives_listing (m : Method) : Gives id m (fun _ => True) m.listing := by
  have hline : ∀ x ∈ m.body.zipIdx, Gives id m (fun _ => True) (listingLine x.2 x.1) :=
    fun x hx => (Stmt.gives_render (List.fst_mem_of_mem_zipIdx hx)).map fun _ _ => trivial
  exact (Gives.mapM hline).map fun _ _ => trivial

theorem Node.gives_label (m : Method) (k : Node) : Gives id m (fun _ => True) (k.label m) := by
  rw [Node.label_eq]
  exact .of_written fun _ hn => mayShow_of_mem_numbers (Node.mem_numbers hn)

theorem Cfg.gives_toDot (m : Method) (title : String) :
    Gives id m (fun _ => True) ((graphOf m).toDot m title) := by
  rw [toDot_eq]
  exact .of_written fun _ hn => mayShow_of_mem_numbers (mem_numbers_graphOf.mp hn)

end Statements

section Expressions

namespace Sexp

mutual

/-- The integers in an S-expression. -/
def numbers : Sexp → List Int
  | symbol _ | string _ => []
  | int n => [n]
  | list xs => numbersOfAll xs

def numbersOfAll : List Sexp → List Int
  | [] => []
  | x :: r => x.numbers ++ numbersOfAll r

end

/-- All integers in an S-expression are those of a method, or words. -/
def Fits (m : Method) (e : Sexp) : Prop :=
  ∀ n ∈ e.numbers, m.MayShow n

variable {m : Method}

theorem fits_list {xs : List Sexp} : (list xs).Fits m ↔ ∀ x ∈ xs, x.Fits m := by
  rw [Fits, numbers]
  induction xs with
  | nil => simp [numbersOfAll]
  | cons x xs ih => rw [numbersOfAll, List.forall_mem_append, List.forall_mem_cons, ih, Fits]

@[simp] theorem fits_nil : (list []).Fits m :=
  List.forall_mem_nil _

@[simp] theorem fits_cons {x : Sexp} {xs : List Sexp} :
    (list (x :: xs)).Fits m ↔ x.Fits m ∧ (list xs).Fits m := by
  rw [fits_list, fits_list, List.forall_mem_cons]

@[simp] theorem fits_symbol {x : String} : (symbol x).Fits m :=
  List.forall_mem_nil _

@[simp] theorem fits_string {x : String} : (string x).Fits m :=
  List.forall_mem_nil _

@[simp] theorem fits_int {n : Int} : (int n).Fits m ↔ m.MayShow n :=
  List.forall_mem_singleton

end Sexp

open Report

variable {m : Method} {i : Nat} {s : Stmt}

theorem Report.gives_stmtSexp (h : (s, i) ∈ m.body.zipIdx) :
    Gives id m (fun e => e.Fits m) (stmtSexp i s) := by
  refine (Stmt.gives_render (List.fst_mem_of_mem_zipIdx h)).map fun text _ => ?_
  have hposition : m.MayShow i := .inl (position_mem_shown h)
  have hline : m.MayShow s.line := .inl (line_mem_shown h)
  simp [hposition, hline]

theorem Report.gives_methodSexp (m : Method) : Gives id m (fun e => e.Fits m) (methodSexp m) := by
  have hstmt : ∀ x ∈ m.body.zipIdx, Gives id m (fun e => e.Fits m) (stmtSexp x.2 x.1) :=
    fun x hx => gives_stmtSexp hx
  refine (Gives.mapM hstmt).map fun stmts hstmts => ?_
  have hparams : (Sexp.list (m.params.map paramSexp)).Fits m := by
    refine Sexp.fits_list.mpr (List.forall_mem_map.mpr fun v _ => ?_)
    simp [paramSexp]
  simp [hparams, Sexp.fits_list.mpr hstmts]

theorem Report.gives_edgeSexp (m : Method) (e : Edge) :
    Gives id m (fun x => x.Fits m) (edgeSexp m e) := by
  refine (e.source.gives_label m).bind fun a _ => (e.target.gives_label m).map fun b _ => ?_
  simp

theorem Report.fits_frame {head : String} {items : List Sexp} (h : ∀ e ∈ items, e.Fits m) :
    (resultSexp.frame m head items).Fits m := by
  simp [resultSexp.frame, Sexp.fits_list.mpr h]

end Expressions

section Facts

variable {m : Method} {f : ConstMap}

theorem ConstMap.find?_of_mem_entries {e : Var × Value} (he : e ∈ f.map.entries) :
    f.find? e.1 = some e.2 :=
  OrderedMap.find?_eq_some_iff.mpr he

theorem Value.mayShow_of_isBounded (h : ConstProp.IsBounded m f) {e : Var × Value}
    (he : e ∈ f.map.entries) {n : Int} (hn : e.2 = .const n) : m.MayShow n :=
  .inr (h.fits e.1 n (hn ▸ ConstMap.find?_of_mem_entries he))

theorem ConstMap.gives_render (h : ConstProp.IsBounded m f) :
    Gives id m (fun _ => True) f.render := by
  have hvalue : ∀ e ∈ f.map.entries, Gives id m (fun _ => True) e.2.render := by
    intro e he
    cases hn : e.2 with
    | const n =>
      rw [Value.render, writeInt_eq]
      exact .of_written (List.forall_mem_singleton.mpr (Value.mayShow_of_isBounded h he hn))
    | undef | nac => exact .of_ok trivial
  have hentry : ∀ e ∈ f.map.entries, Gives id m (fun _ => True)
      (do return e.1.name ++ "=" ++ (← e.2.render)) :=
    fun e he => (hvalue e he).map fun _ _ => trivial
  exact (Gives.mapM hentry).map fun _ _ => trivial

theorem ConstMap.fits_toSexps (h : ConstProp.IsBounded m f) : ∀ e ∈ f.toSexps, e.Fits m := by
  refine List.forall_mem_map.mpr fun e he => ?_
  have hvalue : e.2.toSexp.Fits m := by
    cases hn : e.2 with
    | const n => exact Sexp.fits_int.mpr (Value.mayShow_of_isBounded h he hn)
    | undef | nac => exact Sexp.fits_symbol
  simp [hvalue]

theorem VarSet.fits_toSexps (f : VarSet) : ∀ e ∈ f.toSexps, e.Fits m :=
  List.forall_mem_map.mpr fun _ _ => Sexp.fits_symbol

end Facts

section Tables

variable {F : Type} [Fact F] {m : Method} {t : FactTable F}

/-- Facts of a table that a method can show. -/
structure FactTable.Shows (m : Method) (print : F → List Sexp) (t : FactTable F) : Prop where
  covers : t.Covers (Cfg.graphOf m)
  render : ∀ side k f, t.fact side k = .ok f → Gives id m (fun _ => True) (Fact.render f)
  print : ∀ side k f, t.fact side k = .ok f → ∀ e ∈ print f, e.Fits m

theorem FactTable.Shows.exists_fact {print : F → List Sexp} (h : t.Shows m print) {i : Nat}
    (hi : i < m.size) (side : Side) : ∃ f, t.fact side (.stmt i) = .ok f ∧
      Gives id m (fun _ => True) (Fact.render f) ∧ ∀ e ∈ print f, e.Fits m := by
  have hnode : (Cfg.graphOf m).has (.stmt i) = true := decide_eq_true hi
  obtain ⟨f, hf⟩ := h.covers side (.stmt i) hnode
  exact ⟨f, hf, h.render side _ f hf, h.print side _ f hf⟩

theorem Report.gives_tableText {print : F → List Sexp} (h : t.Shows m print) :
    m.Answers (fun _ => True) (tableText m t) := by
  have hfact : ∀ side i, i < m.size → m.Answers (fun _ => True) (factText t side i) := by
    intro side i hi
    obtain ⟨f, hf, hrender, -⟩ := h.exists_fact hi side
    rw [factText, hf]
    exact hrender.lift
  have hrow : ∀ x ∈ m.body.zipIdx, m.Answers (fun _ => True) (rowText t x.2 x.1) := by
    intro x hx
    have hi : x.2 < m.size := List.snd_lt_of_mem_zipIdx hx
    have hstmt := Stmt.gives_render (List.fst_mem_of_mem_zipIdx hx)
    exact hstmt.lift.bind fun _ _ => (hfact .input _ hi).bind fun _ _ =>
      (hfact .output _ hi).map fun _ _ => trivial
  exact ⟨fun _ _ => trivial, (Gives.mapM hrow).error⟩

theorem Report.gives_rows {print : F → List Sexp} (h : t.Shows m print) :
    m.Answers (fun rows => ∀ e ∈ rows.map (rowSexp print), e.Fits m) (t.rows (stmtNodes m)) := by
  have hrow : ∀ k ∈ stmtNodes m, m.Answers (fun row => (rowSexp print row).Fits m)
      (do return (k, ← t.fact .input k, ← t.fact .output k)) := by
    intro k hk
    obtain ⟨i, hi, rfl⟩ := List.mem_map.mp hk
    have hlt : i < m.size := List.mem_range.mp hi
    obtain ⟨a, ha, -, hin⟩ := h.exists_fact hlt .input
    obtain ⟨b, hb, -, hout⟩ := h.exists_fact hlt .output
    rw [ha, hb]
    refine .of_ok ?_
    have hmem : (m.body[i], i) ∈ m.body.zipIdx :=
      List.mem_zipIdx_iff_getElem?.mpr (List.getElem?_eq_getElem hlt)
    have hindex : m.MayShow (Node.stmt i).index := .inl (position_mem_shown hmem)
    simp [rowSexp, hindex, Sexp.fits_list.mpr hin, Sexp.fits_list.mpr hout]
  have hrows := Gives.mapM hrow
  exact ⟨fun rows hok => List.forall_mem_map.mpr (hrows.ok rows hok), hrows.error⟩

end Tables

/-- The table that constant propagation comes to has all facts, and they are bounded. -/
theorem ConstProp.bounded_of_solveForward {m : Method} {g : Cfg} {order : Order} {fuel : Nat}
    {sol : Solution ConstMap} (hg : Cfg.build m = .ok g)
    (h : (problem m).solveForward g order fuel = .ok sol) : sol.table.Covers (Cfg.graphOf m) ∧
      ∀ side k f, sol.table.fact side k = .ok f → IsBounded m f := by
  obtain ⟨hm, rfl⟩ := Cfg.build_eq_ok.mp hg
  have hclosed := Cfg.graphOf_closed hm
  obtain ⟨_, rfl⟩ := ((problem m).solveForward_eq_ok hclosed).mp h
  refine ⟨((problem m).sound_stateAt hclosed order fuel).covers, fun side k f hf => ?_⟩
  have hwithin := (mayBe_confines m).stateAt_within hclosed order fuel side k
  rw [FactTable.look_of_fact hf] at hwithin
  exact isBounded_of_mayBe hwithin

theorem ConstProp.shows_of_solveForward {m : Method} {g : Cfg} {order : Order} {fuel : Nat}
    {sol : Solution ConstMap} (hg : Cfg.build m = .ok g)
    (h : (problem m).solveForward g order fuel = .ok sol) :
    sol.table.Shows m ConstMap.toSexps := by
  obtain ⟨hcovers, hbounded⟩ := bounded_of_solveForward hg h
  exact ⟨hcovers, fun side k f hf => ConstMap.gives_render (hbounded side k f hf),
    fun side k f hf => ConstMap.fits_toSexps (hbounded side k f hf)⟩

theorem Liveness.shows_of_solveBackward {m : Method} {g : Cfg} {fuel : Nat} {sol : Solution VarSet}
    (hg : Cfg.build m = .ok g) (h : (problem m).solveBackward g fuel = .ok sol) :
    sol.table.Shows m VarSet.toSexps := by
  obtain ⟨hm, rfl⟩ := Cfg.build_eq_ok.mp hg
  exact ⟨(solved_of_solveBackward (Cfg.graphOf_closed hm) h).covers, fun _ _ _ _ => .of_ok trivial,
    fun _ _ f _ => f.fits_toSexps⟩

namespace Task.Makes

variable {α : Type} {m : Method} {order : Order} {task : Task α} {r : Result α}

theorem mem_zipIdx_of_mem_stmtsAt {positions : List Nat} {x : Nat × Stmt}
    (h : x ∈ Report.stmtsAt m positions) : (x.2, x.1) ∈ m.body.zipIdx := by
  obtain ⟨i, _, hi⟩ := List.mem_filterMap.mp h
  obtain ⟨s, hs, rfl⟩ := Option.map_eq_some_iff.mp hi
  exact List.mem_zipIdx_iff_getElem?.mpr hs

/-- A result that an analysis made can be shown as a text if the integers of the method can. -/
theorem gives_resultText (h : task.Makes m order r) (print : α → String) (key : String) :
    m.Answers (fun _ => True) (Report.resultText print key m r) := by
  have hlines : m.Answers (fun _ => True) (Report.resultLines print m r) := by
    cases h with
    | cfg hg =>
      obtain ⟨_, rfl⟩ := Cfg.build_eq_ok.mp hg
      exact (Cfg.gives_toDot m m.name).lift.map fun _ _ => trivial
    | constprop hg hsol => exact Report.gives_tableText (ConstProp.shows_of_solveForward hg hsol)
    | livevar hg hsol => exact Report.gives_tableText (Liveness.shows_of_solveBackward hg hsol)
    | @deadcode _ _ _ dead =>
      cases dead with
      | nil => exact .of_ok trivial
      | cons i dead =>
        have htext : ∀ x ∈ Report.stmtsAt m (i :: dead),
            Gives id m (fun _ => True) (Report.deadText x.1 x.2) := by
          intro x hx
          have hmem := List.fst_mem_of_mem_zipIdx (mem_zipIdx_of_mem_stmtsAt hx)
          exact (Stmt.gives_render hmem).map fun _ _ => trivial
        exact ⟨fun _ _ => trivial, (Gives.mapM fun x hx => (htext x hx).lift).error⟩
  exact hlines.map fun _ _ => trivial

/-- A result that an analysis made has an S-expression if the integers of the method can be written,
and the integers in that are those of the method, and words. -/
theorem gives_resultSexp (h : task.Makes m order r) (print : α → String) (key : String) :
    m.Answers (fun e => e.Fits m) (Report.resultSexp print key m r) := by
  cases h with
  | @cfg g hg =>
    exact (Gives.mapM fun e _ => (Report.gives_edgeSexp m e).lift).map fun _ => Report.fits_frame
  | constprop hg hsol =>
    exact (Report.gives_rows (ConstProp.shows_of_solveForward hg hsol)).map fun _ =>
      Report.fits_frame
  | livevar hg hsol =>
    exact (Report.gives_rows (Liveness.shows_of_solveBackward hg hsol)).map fun _ =>
      Report.fits_frame
  | deadcode =>
    exact (Gives.mapM fun x hx =>
      (Report.gives_stmtSexp (mem_zipIdx_of_mem_stmtsAt hx)).lift).map fun _ => Report.fits_frame

end Task.Makes

end MethodFlow
