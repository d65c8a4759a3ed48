import MethodFlow.Proofs.BodyText
import MethodFlow.Proofs.Builders

/-!
The text of a method, written as a program, is read as one method with the same signature,
variables and statements.
-/

namespace MethodFlow

open Source Reader

namespace Method

/-- The variables of a method that are no parameters. -/
def locals (m : Method) : List Var :=
  m.vars.filter fun v => v ∉ m.params

/-- A variable behind its type. -/
def paramText (v : Var) : String :=
  v.ty.render ++ " " ++ v.name

def declText (v : Var) : String :=
  paramText v ++ "; "

def framed (m : Method) (stmts : List String) : String :=
  "method " ++ m.signature ++ " \x7b " ++ String.join (m.locals.map declText) ++
    String.join stmts ++ " \x7d"

/-- A method as a program: its signature, a declaration for each variable that is no parameter, and
its statements behind labels that are named after their positions. -/
def written (m : Method) : Except Text.Overlong String := do
  return m.framed (← m.body.zipIdx.mapM fun x => do
    return labelName x.2 ++ ": " ++ (← x.1.instr.renderWith Target.labelled))

/-- The text of a method as a program if all integers in it can be written. -/
def text (m : Method) : String :=
  m.framed (m.body.mapIdx statementText)

theorem written_eq (m : Method) : m.written = Text.written m.numbers m.text := by
  have hstmt : ∀ x ∈ m.body.zipIdx,
      (do return labelName x.2 ++ ": " ++ (← x.1.instr.renderWith Target.labelled)) =
        Text.written x.1.instr.numbers (statementText x.2 x.1) := by
    intro x _
    rw [Instr.renderWith_eq]
    exact Text.written_map
  have hstmts := Text.mapM_written m.body.zipIdx hstmt
  have hnumbers : m.body.zipIdx.flatMap (fun x => x.1.instr.numbers) = m.numbers := by
    rw [← List.flatMap_map Prod.fst fun x : Stmt => x.instr.numbers, List.zipIdx_map_fst, numbers]
  rw [written, hstmts, hnumbers, ← List.mapIdx_eq_zipIdx_map]
  exact Text.written_map

end Method

section Scopes

variable {s : Scope} {v : Var} {vs ws : List Var}

theorem Source.Scope.named?_eq_none : s.named? v.name = none ↔ v.name ∉ s.map Var.name := by
  simp [Scope.named?]

theorem Source.Scope.declare_of (h : v.name ∉ s.map Var.name) (p : Pos) :
    s.declare p v = .ok (s ++ [v]) := by
  rw [Scope.declare, Scope.named?_eq_none.mpr h]
  rfl

theorem scopeOf_append (h : (vs ++ ws).Nodup) : Method.scopeOf vs (vs ++ ws) = vs ++ ws := by
  have hseen : ∀ (us : List Var), (∀ u ∈ us, u ∈ vs) →
      us.foldl (fun vs v => if v ∈ vs then vs else vs ++ [v]) vs = vs := by
    intro us
    induction us with
    | nil => intro _; rfl
    | cons u us ih =>
      intro hus
      rw [List.foldl_cons, if_pos (hus u List.mem_cons_self)]
      exact ih fun x hx => hus x (List.mem_cons_of_mem u hx)
  have hnew : ∀ (us vs : List Var), (vs ++ us).Nodup →
      us.foldl (fun vs v => if v ∈ vs then vs else vs ++ [v]) vs = vs ++ us := by
    intro us
    induction us with
    | nil => intro vs _; exact (List.append_nil vs).symm
    | cons u us ih =>
      intro vs hvs
      have hu : u ∉ vs := fun hu => (List.nodup_append.mp hvs).2.2 u hu u List.mem_cons_self rfl
      rw [List.foldl_cons, if_neg hu, ih (vs ++ [u]) (by rwa [List.append_assoc]),
        List.append_assoc]
      rfl
  rw [Method.scopeOf, List.foldl_append, hseen vs fun _ h => h, hnew ws vs h]

end Scopes

section Declarations

variable {vs : List Var} {v : Var}

theorem fresh_of_nodup {s : List Var} (h : ((s ++ v :: vs).map Var.name).Nodup) :
    v.name ∉ s.map Var.name := by
  intro hv
  rw [List.map_append, List.map_cons] at h
  exact (List.nodup_append.mp h).2.2 _ hv _ List.mem_cons_self rfl

/-- A parameter that declares a variable. -/
def Source.Param.Declares (v : Var) (x : Param) : Prop :=
  ∀ (s : Scope) (p : Pos), v.name ∉ s.map Var.name → x.declare s p = .ok (s ++ [v])

theorem brackets_space {x r : List Char} (hx : IsName x) : brackets (' ' :: (x ++ r)) = none := by
  refine brackets_none (gap_space hx.blank_append) ?_
  obtain ⟨c, z, rfl⟩ := List.exists_cons_of_ne_nil hx.ne_nil
  have hc : isNameChar c = true := hx.all_isNameChar c List.mem_cons_self
  refine exactly_none rfl ?_
  rintro rfl
  cases hc

theorem paramText_append (v : Var) (rest : List Char) :
    (Method.paramText v).toList ++ rest = v.ty.render.toList ++ ' ' :: (v.name.toList ++ rest) := by
  simp [Method.paramText]

theorem blank_paramText (hty : v.ty.IsLegible) (rest : List Char) :
    blank ((Method.paramText v).toList ++ rest) = none := by
  rw [paramText_append]
  exact blank_of_isLegible hty

theorem param_reads (hname : IsName v.name.toList) (hty : v.ty.IsLegible) :
    ∃ x : Param, x.Declares v ∧ ∀ rest, stops isNameChar rest = true →
      param ((Method.paramText v).toList ++ rest) = some (x, rest) := by
  obtain ⟨t, ht, hread⟩ := typeName_of_isLegible hty
  refine ⟨⟨t, [.space ' '], v.name.toList⟩, fun s p hv => ?_, fun rest hrest => ?_⟩
  · rw [Param.declare, ht, Attempt.ok_bind, String.ofList_toList]
    exact Scope.declare_of hv _
  · rw [paramText_append]
    refine bind_of (hread _ rfl (brackets_space hname)) ?_
    refine bind_of (gap1_space hname.blank_append) ?_
    exact bind_of (name_append hname hrest) rfl

theorem declareParams_of {xs : List (Pos × Param)}
    (h : List.Forall₂ (fun v (x : Pos × Param) => x.2.Declares v) vs xs) (s : Scope)
    (hvs : ((s ++ vs).map Var.name).Nodup) : declareParams s xs = .ok (s ++ vs) := by
  induction h generalizing s with
  | nil => rw [declareParams, List.append_nil]
  | @cons v x vs xs hx _ ih =>
    rw [declareParams, hx s x.1 (fresh_of_nodup hvs), Attempt.ok_bind,
      ih (s ++ [v]) (by rwa [List.append_assoc]), List.append_assoc]
    rfl

/-- No blank begins the text of parameters. -/
theorem blank_params (h : Scope.IsLegible vs) (rest : List Char) :
    blank ((", ".intercalate (vs.map Method.paramText)).toList ++ ')' :: rest) = none := by
  cases vs with
  | nil => exact blank_none rfl
  | cons v vs =>
    rw [List.map_cons, toList_intercalate_comma, List.append_assoc]
    exact blank_paramText (h.types v List.mem_cons_self) _

/-- The parameters of a method, in their brackets, are read as an optional list of them. -/
theorem params_reads (h : Scope.IsLegible vs) :
    ∃ x : Option Params, (∀ p, x.elim (.ok [])
        (fun ps => declareParams [] (ps.list.placed p Param.text)) = .ok vs) ∧
      ∀ rest, Reader.optional params
        ((", ".intercalate (vs.map Method.paramText)).toList ++ ')' :: rest) =
          some (x, ')' :: rest) := by
  cases vs with
  | nil =>
    refine ⟨none, fun p => rfl, fun rest => optional_none ?_⟩
    exact bind_none (bind_none (bind_none (bind_none (wordOf_none rfl))))
  | cons v vs =>
    obtain ⟨l, hl, hread⟩ := listed_reads param (fun v => (Method.paramText v).toList)
      (fun v (x : Param) => x.Declares v)
      (fun w hw => param_reads (h.names w hw) (h.types w hw))
      (fun w hw => blank_paramText (h.types w (List.mem_cons_of_mem v hw)))
    refine ⟨some ⟨l, []⟩, fun p => ?_, fun rest => optional_some ?_⟩
    · rw [← placed_items Param.text p, List.forall₂_map_right_iff] at hl
      exact declareParams_of hl [] h.distinct
    · have hend : later param (')' :: rest) = none :=
        bind_of (gap_nil (blank_none rfl)) (bind_none rfl)
      rw [List.map_cons, toList_intercalate_comma, List.map_map, List.append_assoc]
      exact bind_of (hread _ rfl hend) (bind_of (gap_nil (blank_none rfl)) rfl)

/-- A declaration of a variable is read as one, with the blanks after it. -/
theorem varDecl_reads (hname : IsName v.name.toList) (hty : v.ty.IsLegible) {cs rest : List Char}
    (h : LeadsTo cs rest) :
    ∃ d : VarDecl, (∀ (s : Scope) (p : Pos), v.name ∉ s.map Var.name →
        d.declare s p = .ok (s ++ [v])) ∧
      varDecl ((Method.declText v).toList ++ cs) = some (d, rest) := by
  obtain ⟨t, ht, hread⟩ := typeName_of_isLegible hty
  obtain ⟨g, hg⟩ := h.space.gap
  refine ⟨⟨t, [.space ' '], ⟨v.name.toList, []⟩, [], g⟩, fun s p hv => ?_, ?_⟩
  · rw [VarDecl.declare, ht, Attempt.ok_bind, Listed.placed, Listed.placed.go, declareAll,
      String.ofList_toList, Scope.declare_of hv]
    rfl
  · have htext : (Method.declText v).toList ++ cs =
        v.ty.render.toList ++ ' ' :: (v.name.toList ++ ';' :: ' ' :: cs) := by
      rw [← paramText_append]
      simp [Method.declText]
    have hend : later name (';' :: ' ' :: cs) = none :=
      bind_of (gap_nil (blank_none rfl)) (bind_none rfl)
    rw [htext]
    refine bind_of (hread _ rfl (brackets_space hname)) ?_
    refine bind_of (gap1_space hname.blank_append) ?_
    refine bind_of (bind_of (name_append hname rfl) (bind_of (many_none hend) rfl)) ?_
    refine bind_of (gap_nil (blank_none rfl)) ?_
    refine bind_of (exactly_append ";" _) ?_
    exact bind_of hg rfl

/-- The declarations of variables are read one after the other and declare them in their order. -/
theorem decls_reads (hvs : Scope.IsLegible vs) {cs rest : List Char} (h : LeadsTo cs rest)
    (hend : varDecl rest = none) :
    ∃ (ds : List VarDecl) (cs' : List Char),
      (∀ (s : Scope) (p : Pos), ((s ++ vs).map Var.name).Nodup →
        declareVars s p ds = .ok (s ++ vs)) ∧
      LeadsTo (vs.flatMap (fun v => (Method.declText v).toList) ++ cs) cs' ∧
      Run varDecl cs' ds rest := by
  induction vs with
  | nil =>
    refine ⟨[], rest, fun s p _ => ?_, h, .stop hend⟩
    rw [declareVars, List.append_nil]
  | cons v vs ih =>
    obtain ⟨ds, cs', hds, hlead, hrun⟩ := ih (hvs.of_append (s := [v])).2
    have hty := hvs.types v List.mem_cons_self
    obtain ⟨d, hd, hread⟩ := varDecl_reads (hvs.names v List.mem_cons_self) hty hlead
    refine ⟨d :: ds, _, fun s p hvs => ?_, leadsTo_self ?_, .step ?_ ?_ hrun⟩
    · rw [declareVars, hd s p (fresh_of_nodup hvs), Attempt.ok_bind,
        hds (s ++ [v]) _ (by rwa [List.append_assoc]), List.append_assoc]
      rfl
    · rw [List.flatMap_cons, List.append_assoc, Method.declText, String.toList_append,
        List.append_assoc]
      exact blank_paramText hty _
    · rw [List.flatMap_cons, List.append_assoc]
      exact hread
    · have hle := hlead.length_le
      rw [List.flatMap_cons, List.append_assoc, List.length_append]
      have hpos : 0 < (Method.declText v).toList.length :=
        List.length_pos_iff.mpr (by simp [Method.declText])
      omega

end Declarations

section Methods

variable {m : Method}

namespace Method.IsLegible

theorem vars_eq (h : m.IsLegible) : m.vars = m.params ++ m.locals := by
  obtain ⟨ws, hws⟩ := h.params
  have hnodup : m.vars.Nodup := h.vars.distinct.of_map
  rw [← hws] at hnodup
  have hdisjoint := (List.nodup_append.mp hnodup).2.2
  have hparams : m.params.filter (fun v => v ∉ m.params) = [] := by
    rw [List.filter_eq_nil_iff]
    intro v hv
    simpa using hv
  have hlocals : ws.filter (fun v => v ∉ m.params) = ws := by
    rw [List.filter_eq_self]
    intro v hv
    simpa using fun hp => hdisjoint v hp v hv rfl
  rw [Method.locals, ← hws, List.filter_append, hparams, hlocals, List.nil_append]

/-- The parameters and the other variables are legible scopes. -/
theorem scopes (h : m.IsLegible) : Scope.IsLegible m.params ∧ Scope.IsLegible m.locals :=
  Scope.IsLegible.of_append (h.vars_eq ▸ h.vars)

end Method.IsLegible

theorem text_toList (m : Method) : m.text.toList =
    "method".toList ++ ' ' :: (m.ret.render.toList ++ ' ' :: (m.name.toList ++ '(' ::
      ((", ".intercalate (m.params.map Method.paramText)).toList ++
        ')' :: ' ' :: '\x7b' :: ' ' :: (m.locals.flatMap (fun v => (Method.declText v).toList) ++
          bodyText 0 m.body)))) := by
  have hparams : m.params.map (fun v => v.ty.render ++ " " ++ v.name) =
      m.params.map Method.paramText := rfl
  simp only [Method.text, Method.framed, Method.signature, hparams]
  simp [bodyText, List.flatMap_map]

/-- What a method written as a program is read as: the method, but for the lines of its
statements. -/
theorem methodDecl_reads (h : m.IsLegible) (hw : ∀ n ∈ m.numbers, Text.isWritable n = true) :
    ∃ d : MethodDecl, methodDecl m.text.toList = some (d, []) ∧
      ∀ p, ∃ xs, d.meaning p = .ok { m with body := xs } ∧
        xs.map Stmt.instr = m.body.map Stmt.instr := by
  obtain ⟨t, ht, hret⟩ := typeName_of_isLegible h.ret
  obtain ⟨ps, hps, hparams⟩ := params_reads h.scopes.1
  obtain ⟨items, cs, hlays, hdecl, hlead, hitems⟩ :=
    body_reads (fun x hx => (h.body x hx).isReadBack fun n hn => hw n (Method.mem_numbers hx hn)) 0
  obtain ⟨ds, cs', hds, hlead', hdecls⟩ := decls_reads h.scopes.2 hlead hdecl
  obtain ⟨g, hg⟩ := hlead'.space.gap
  let d : MethodDecl := ⟨[.space ' '], t, [.space ' '], m.name.toList, [], [], ps, [.space ' '], g,
    ds, items, []⟩
  refine ⟨d, ?_, fun p => ?_⟩
  · rw [text_toList]
    refine bind_of (exactly_append "method" _) ?_
    refine bind_of (gap1_space (blank_of_isLegible h.ret)) ?_
    refine bind_of (hret _ rfl (brackets_space h.name)) ?_
    refine bind_of (gap1_space h.name.blank_append) ?_
    refine bind_of (name_append h.name rfl) ?_
    refine bind_of (gap_nil (blank_none rfl)) ?_
    refine bind_of (exactly_append "(" _) ?_
    refine bind_of (gap_nil (blank_params h.scopes.1 _)) ?_
    refine bind_of (hparams _) ?_
    refine bind_of (exactly_append ")" _) ?_
    refine bind_of (gap_space (blank_none rfl)) ?_
    refine bind_of (exactly_append "\x7b" _) ?_
    refine bind_of hg ?_
    refine bind_of hdecls.many ?_
    refine bind_of hitems.many ?_
    refine bind_of (exactly_append "\x7d" _) ?_
    exact bind_of (gap_nil rfl) rfl
  · have hdistinct := h.vars.distinct
    rw [h.vars_eq] at hdistinct
    have hscope : Method.scopeOf m.params m.vars = m.vars := by
      rw [h.vars_eq]
      exact scopeOf_append hdistinct.of_map
    let start := (p.after d.front).after (ds.flatMap VarDecl.text)
    obtain ⟨ms, ys, hms, hys, hlayout⟩ := hlays start Layout.empty rfl
    obtain ⟨xs, hxs, hinstr⟩ := layout_body hms hys
    refine ⟨xs, ?_, hinstr⟩
    refine Attempt.bind_eq_ok.mpr ⟨_, ht _, Attempt.bind_eq_ok.mpr ⟨_, hps _, ?_⟩⟩
    refine Attempt.bind_eq_ok.mpr ⟨_, (hds _ _ hdistinct).trans (congrArg _ h.vars_eq.symm), ?_⟩
    refine Attempt.bind_eq_ok.mpr ⟨_, hlayout, Attempt.bind_eq_ok.mpr ⟨_, hxs, ?_⟩⟩
    rw [Method.make, hscope, String.ofList_toList]
    rfl

/-- The text of a legible method whose integers can be written is a program of one method, which is
the same but for the lines of its statements. -/
theorem Method.IsLegible.parse_text (h : m.IsLegible)
    (hw : ∀ n ∈ m.numbers, Text.isWritable n = true) :
    ∃ xs, parse m.text = .ok [{ m with body := xs }] ∧
      xs.map Stmt.instr = m.body.map Stmt.instr := by
  obtain ⟨d, hread, hmeaning⟩ := methodDecl_reads h hw
  obtain ⟨xs, hxs, hinstr⟩ := hmeaning (Pos.start.after (Gap.text []))
  refine ⟨xs, ?_, hinstr⟩
  have hsolid : blank m.text.toList = none := by
    rw [text_toList]
    exact blank_none rfl
  have hlength : 0 < m.text.toList.length := by
    rw [text_toList]
    exact Nat.zero_lt_succ _
  have hprogram : program m.text.toList = some (⟨[], [d]⟩, []) :=
    bind_of (gap_nil hsolid) (bind_of (Run.step hread hlength (.stop rfl)).many rfl)
  have hmeanings : Program.meaning ⟨[], [d]⟩ = ⟨[{ m with body := xs }], none⟩ := by
    simp only [Program.meaning, meanings, hxs, Reading.close, repeatedMethod?, List.not_mem_nil,
      if_false]
  rw [parse, readText_of_program hprogram, hmeanings]

end Methods

end MethodFlow
