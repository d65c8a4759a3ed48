import MethodFlow.Proofs.CheckedPrograms
import MethodFlow.Proofs.LikeMeanings

/-!
Methods with the same parts mean the same methods, on lines that go together as the positions of
their statements do; and so do programs of such methods.
-/

namespace MethodFlow

/-- Statements that do the same, on lines that go together. -/
def Stmt.Like (L : Int → Int → Prop) (s s' : Stmt) : Prop :=
  s.instr = s'.instr ∧ L s.line s'.line

/-- Methods that are the same but for the lines of their statements, which go together. -/
structure Method.Like (L : Int → Int → Prop) (m m' : Method) : Prop where
  name : m.name = m'.name
  params : m.params = m'.params
  ret : m.ret = m'.ret
  vars : m.vars = m'.vars
  body : List.Forall₂ (Stmt.Like L) m.body m'.body

theorem Method.Like.mono {L K : Int → Int → Prop} {m m' : Method} (h : m.Like L m')
    (hL : ∀ a b, L a b → K a b) : m.Like K m' :=
  { h with body := h.body.imp fun _ _ hs => ⟨hs.1, hL _ _ hs.2⟩ }

/-- The method with other numbers for its lines. -/
def Method.mapLines (f : Int → Int) (m : Method) : Method :=
  { m with body := m.body.map fun s => { s with line := f s.line } }

theorem Method.mapLines_id : Method.mapLines id = id := by
  funext m
  simp [mapLines]

theorem Method.Like.mapLines_eq {L : Int → Int → Prop} {m m' : Method} {f g : Int → Int}
    (h : m.Like L m') (hL : ∀ a b, L a b → f a = g b) : m.mapLines f = m'.mapLines g := by
  have hbody : m.body.map (fun s => ({ s with line := f s.line } : Stmt)) =
      m'.body.map fun s => { s with line := g s.line } := by
    rw [← List.forall₂_eq_eq_eq, List.forall₂_map_left_iff, List.forall₂_map_right_iff]
    refine h.body.imp fun s s' hs => ?_
    rw [hs.1, hL _ _ hs.2]
  rw [mapLines, mapLines, hbody, h.name, h.params, h.ret, h.vars]

namespace Source

open Attempt

section Declarations

variable {s : Scope} (p p' : Pos)

def Param.Like (x x' : Param) : Prop :=
  x.type = x'.type ∧ x.name = x'.name

def VarDecl.Like (d d' : VarDecl) : Prop :=
  d.type = d'.type ∧ d.names.items = d'.names.items

theorem Scope.declare_likewise (v : Var) : Likewise Eq (s.declare p v) (s.declare p' v) := by
  unfold declare
  split
  · exact likewise_error
  · exact likewise_ok rfl

theorem declareParams_likewise {xs xs' : List (Pos × Param)}
    (h : List.Forall₂ (fun x x' => x.2.Like x'.2) xs xs') :
    Likewise Eq (declareParams s xs) (declareParams s xs') := by
  induction h generalizing s with
  | nil => exact likewise_ok rfl
  | @cons x x' _ _ hx _ ih =>
    refine Likewise.bindEq ?_ fun s => ih
    unfold Param.declare
    rw [hx.1, hx.2]
    exact (x'.2.type.meaning_likewise _ _).bindEq fun ty => Scope.declare_likewise _ _ _

theorem declareAll_likewise {ty : Ty} {xs xs' : List (Pos × List Char)}
    (h : List.Forall₂ (fun x x' => x.2 = x'.2) xs xs') :
    Likewise Eq (declareAll ty s xs) (declareAll ty s xs') := by
  induction h generalizing s with
  | nil => exact likewise_ok rfl
  | cons hx _ ih =>
    refine Likewise.bindEq ?_ fun s => ih
    rw [hx]
    exact Scope.declare_likewise _ _ _

theorem declareVars_likewise {ds ds' : List VarDecl} (h : List.Forall₂ VarDecl.Like ds ds') :
    Likewise Eq (declareVars s p ds) (declareVars s p' ds') := by
  induction h generalizing s p p' with
  | nil => exact likewise_ok rfl
  | @cons d d' _ _ hd _ ih =>
    refine Likewise.bindEq ?_ fun s => ih _ _
    have hnames : List.Forall₂ Eq d.names.items d'.names.items := by
      rw [hd.2, List.forall₂_eq_eq_eq]
    unfold VarDecl.declare
    rw [hd.1]
    exact (d'.type.meaning_likewise p p').bindEq fun ty =>
      declareAll_likewise (forall₂_placed _ _ hnames)

end Declarations

section Layouts

variable {s : Scope} {p p' : Pos} {L : Int → Int → Prop} {near : Pos → Pos → Prop}
  {l l' : Layout LabelRef}

inductive Item.Like : Item → Item → Prop
  | label {x x' : Label} (h : x.name = x'.name) : Like (.label x) (.label x')
  | statement {x x' : Statement} (h : x.command.Like x'.command) :
      Like (.statement x) (.statement x')

/-- Layouts of the same labels and statements, on lines that go together. -/
structure Layout.Like (L : Int → Int → Prop) (l l' : Layout LabelRef) : Prop where
  marks : List.Forall₂ (fun m m' => m.label.Same m'.label ∧ m.index = m'.index) l.marks l'.marks
  stmts : List.Forall₂ (fun x x' => Instr.Rel LabelRef.Same x.instr x'.instr ∧
    L x.line x'.line) l.stmts l'.stmts

theorem forall₂_concat {α β : Type} {R : α → β → Prop} {xs : List α} {ys : List β} {x : α} {y : β}
    (h : List.Forall₂ R xs ys) (hxy : R x y) : List.Forall₂ R (xs ++ [x]) (ys ++ [y]) :=
  List.rel_append h (.cons hxy .nil)

theorem Layout.Like.add {i i' : Item} (hl : l.Like L l') (hi : i.Like i')
    (hp : L p.line p'.line) : Likewise (Layout.Like L) (l.add s p i) (l'.add s p' i') := by
  cases hi with
  | label h =>
    have hmark := hl.stmts.length_eq
    exact likewise_ok ⟨forall₂_concat hl.marks ⟨congrArg String.ofList h, hmark⟩, hl.stmts⟩
  | statement h =>
    refine (h s p p').bind fun x x' hx => ?_
    exact likewise_ok ⟨hl.marks, forall₂_concat hl.stmts ⟨hx, hp⟩⟩

/-- Items that go together, and lead from positions that go together to such positions. -/
def Item.Keeps (near : Pos → Pos → Prop) (i i' : Item) : Prop :=
  i.Like i' ∧ ∀ p p', near p p' → near (p.after i.text) (p'.after i'.text)

theorem Layout.Like.ofItems {xs xs' : List Item} (hnear : ∀ p p', near p p' → L p.line p'.line)
    (hl : l.Like L l') (hp : near p p') (h : List.Forall₂ (Item.Keeps near) xs xs') :
    Likewise (Layout.Like L) (Layout.ofItems s p l xs) (Layout.ofItems s p' l' xs') := by
  induction h generalizing l l' p p' with
  | nil => exact likewise_ok hl
  | cons hi _ ih =>
    refine (hl.add hi.1 (hnear p p' hp)).bind fun k k' hk => ?_
    exact ih hk (hi.2 p p' hp)

theorem Layout.Like.check (hl : l.Like L l') :
    Likewise (fun _ _ => True) l.check l'.check := by
  have hnames : (l.marks.map fun m => m.label.name) = l'.marks.map fun m => m.label.name := by
    rw [← List.forall₂_eq_eq_eq, List.forall₂_map_left_iff, List.forall₂_map_right_iff]
    exact hl.marks.imp fun _ _ h => h.1
  have hrepeated : Layout.repeated? [] l.marks = none ↔ Layout.repeated? [] l'.marks = none := by
    rw [Layout.repeated?_eq_none, Layout.repeated?_eq_none, hnames]
  have hdangling : l.dangling? = none ↔ l'.dangling? = none := by
    rw [Layout.dangling?, Layout.dangling?, Option.map_eq_none_iff, Option.map_eq_none_iff,
      List.find?_eq_none, List.find?_eq_none, hl.stmts.length_eq]
    exact forall_mem_iff_of_forall₂ hl.marks fun m m' h => by rw [h.2]
  unfold Layout.check
  obtain ⟨hms, hms'⟩ | ⟨x, x', hms, hms'⟩ := none_or_some_of_iff hrepeated
  · rw [hms, hms']
    obtain ⟨hl, hl'⟩ | ⟨x, x', hl, hl'⟩ := none_or_some_of_iff hdangling
    · rw [hl, hl']
      exact likewise_ok trivial
    · rw [hl, hl']
      exact likewise_error
  · rw [hms, hms']
    exact likewise_error

theorem Layout.Like.resolve {x x' : LabelRef} (hl : l.Like L l') (hx : x.Same x') :
    Likewise Eq (l.resolve x) (l'.resolve x') := by
  unfold Layout.resolve
  rw [hx]
  have hmarks := hl.marks
  generalize l.marks = ms at hmarks ⊢
  generalize l'.marks = ms' at hmarks ⊢
  induction hmarks with
  | nil => exact likewise_error
  | @cons m m' _ _ hm _ ih =>
    have hname : m.label.name = m'.label.name := hm.1
    rw [List.find?_cons, List.find?_cons, hname]
    cases decide (m'.label.name = x'.name) with
    | true => exact likewise_ok (congrArg Target.stmt hm.2)
    | false => exact ih

theorem Layout.Like.resolveInstr {i i' : Instr LabelRef} (hl : l.Like L l')
    (hi : Instr.Rel LabelRef.Same i i') :
    Likewise Eq (l.resolveInstr i) (l'.resolveInstr i') := by
  cases hi with
  | assign p e => exact likewise_ok rfl
  | call p e => exact likewise_ok rfl
  | branch c h => exact (hl.resolve h).bindEq fun _ => likewise_ok rfl
  | goto h => exact (hl.resolve h).bindEq fun _ => likewise_ok rfl
  | switch v ks hts hd =>
    have htargets := likewise_mapM hts fun _ _ h => hl.resolve h
    refine htargets.bind fun ts us hts => (hl.resolve hd).bindEq fun d => likewise_ok ?_
    rw [List.forall₂_eq_eq_eq] at hts
    rw [hts]
  | ret e => exact likewise_ok rfl
  | nop => exact likewise_ok rfl

theorem Layout.Like.body (hl : l.Like L l') :
    Likewise (List.Forall₂ (Stmt.Like L)) l.body l'.body := by
  refine hl.check.bind fun _ _ _ => likewise_mapM hl.stmts fun x x' hx => ?_
  exact (hl.resolveInstr hx.1).bindEq fun i => likewise_ok ⟨rfl, hx.2⟩

end Layouts

section Methods

variable {p p' : Pos} {L : Int → Int → Prop} {near : Pos → Pos → Prop} {d d' : MethodDecl}

/-- Declarations of methods that have the same parts. -/
structure MethodDecl.Like (near : Pos → Pos → Prop) (d d' : MethodDecl) : Prop where
  type : d.type = d'.type
  name : d.name = d'.name
  params : Option.Rel (fun ps ps' => List.Forall₂ Param.Like ps.items ps'.items) d.params d'.params
  decls : List.Forall₂ VarDecl.Like d.decls d'.decls
  items : List.Forall₂ (Item.Keeps near) d.items d'.items

/-- A declaration has its own parts, wherever it stands. -/
theorem MethodDecl.like_refl (hnear : ∀ p p' cs, near p p' → near (p.after cs) (p'.after cs))
    (d : MethodDecl) : d.Like near d := by
  have hparams : ∀ ps : Params, List.Forall₂ Param.Like ps.items ps.items := fun _ =>
    List.forall₂_same.mpr fun _ _ => ⟨rfl, rfl⟩
  have hitem : ∀ i : Item, i.Like i := fun i => by
    cases i with
    | label x => exact .label rfl
    | statement x => exact .statement x.command.like_refl
  exact ⟨rfl, rfl, optionRel_refl hparams d.params, List.forall₂_same.mpr fun _ _ => ⟨rfl, rfl⟩,
    List.forall₂_same.mpr fun i _ => ⟨hitem i, fun p p' => hnear p p' i.text⟩⟩

theorem MethodDecl.Like.meaning (hnear : ∀ p p', near p p' → L p.line p'.line) (h : d.Like near d')
    (hp : near ((p.after d.front).after (d.decls.flatMap VarDecl.text))
      ((p'.after d'.front).after (d'.decls.flatMap VarDecl.text))) :
    Likewise (Method.Like L) (d.meaning p) (d'.meaning p') := by
  unfold MethodDecl.meaning
  rw [h.type, h.name]
  refine (d'.type.meaning_likewise _ _).bindEq fun ret => ?_
  refine Likewise.bindEq ?_ fun params => ?_
  · have hparams := h.params
    generalize d.params = ps at hparams ⊢
    generalize d'.params = ps' at hparams ⊢
    cases hparams with
    | none => exact likewise_ok rfl
    | some hps => exact declareParams_likewise (forall₂_placed _ _ hps)
  · refine (declareVars_likewise _ _ h.decls).bindEq fun scope => ?_
    refine (Layout.Like.ofItems hnear ⟨.nil, .nil⟩ hp h.items).bind fun l l' hl => ?_
    exact hl.body.bind fun body body' hbody => likewise_ok ⟨rfl, rfl, rfl, rfl, hbody⟩

end Methods

section Programs

variable {p p' : Pos} {L : Int → Int → Prop} {near : Pos → Pos → Prop} {d d' : MethodDecl}
  {ds ds' : List MethodDecl}

theorem meanings_cons_likewise (hd : Likewise (Method.Like L) (d.meaning p) (d'.meaning p'))
    (hds : Likewise (List.Forall₂ (Method.Like L)) (meanings (p.after d.text) ds).check
      (meanings (p'.after d'.text) ds').check) :
    Likewise (List.Forall₂ (Method.Like L)) (meanings p (d :: ds)).check
      (meanings p' (d' :: ds')).check := by
  rw [meanings_cons, meanings_cons]
  exact hd.bind fun m m' hm => hds.bind fun ms ms' hms => likewise_ok (.cons hm hms)

/-- Declarations that mean like methods where they stand mean like methods one after the other. -/
theorem meanings_likewise (near : Pos → Pos → Prop) (hp : near p p')
    (h : List.Forall₂ (fun d d' => ∀ p p', near p p' →
      Likewise (Method.Like L) (d.meaning p) (d'.meaning p') ∧
        near (p.after d.text) (p'.after d'.text)) ds ds') :
    Likewise (List.Forall₂ (Method.Like L)) (meanings p ds).check (meanings p' ds').check := by
  induction h generalizing p p' with
  | nil => exact likewise_ok .nil
  | cons hd _ ih =>
    obtain ⟨hmeaning, hnear⟩ := hd p p' hp
    exact meanings_cons_likewise hmeaning (ih hnear)

theorem names_eq_of_like {ms ms' : List Method} (h : List.Forall₂ (Method.Like L) ms ms') :
    ms.map Method.name = ms'.map Method.name := by
  rw [← List.forall₂_eq_eq_eq, List.forall₂_map_left_iff, List.forall₂_map_right_iff]
  exact h.imp fun _ _ hm => hm.name

theorem mapLines_eq_of_like {ms ms' : List Method} {f g : Int → Int}
    (h : List.Forall₂ (Method.Like L) ms ms') (hL : ∀ a b, L a b → f a = g b) :
    ms.map (Method.mapLines f) = ms'.map (Method.mapLines g) := by
  rw [← List.forall₂_eq_eq_eq, List.forall₂_map_left_iff, List.forall₂_map_right_iff]
  exact h.imp fun _ _ hm => hm.mapLines_eq hL

/-- Programs whose methods mean like methods are accepted alike. -/
theorem Program.check_likewise {x x' : Program}
    (h : Likewise (List.Forall₂ (Method.Like L))
      (meanings (Pos.start.after x.lead.text) x.methods).check
      (meanings (Pos.start.after x'.lead.text) x'.methods).check) :
    Likewise (List.Forall₂ (Method.Like L)) x.meaning.check x'.meaning.check := by
  rw [x.check_meaning, x'.check_meaning]
  refine h.bind fun ms ms' hms => ?_
  have hrepeated : repeatedMethod? [] ms = none ↔ repeatedMethod? [] ms' = none := by
    rw [repeatedMethod?_eq_none, repeatedMethod?_eq_none, names_eq_of_like hms]
  obtain ⟨hnone, hnone'⟩ | ⟨m, m', hsome, hsome'⟩ := none_or_some_of_iff hrepeated
  · rw [hnone, hnone']
    exact likewise_ok hms
  · rw [hsome, hsome']
    exact likewise_error

end Programs

end Source

end MethodFlow
