import MethodFlow.Proofs.GraphShape
import MethodFlow.Proofs.RoundTrip

/-!
The static rules of programs, read off the tree of a program alone, and checks that a rule decides.
-/

namespace MethodFlow.Source

section Names

/-- The names that an atom uses as variables. -/
def Atom.names : Atom → List (List Char)
  | name x => [x]
  | _ => []

def Element.names (e : Element) : List (List Char) :=
  e.base :: e.index.names

/-- The owner of a member need not be a variable. -/
def LeftSide.names : LeftSide → List (List Char)
  | element e => e.names
  | member _ => []
  | name x => [x]

def Listed.items {α : Type} (l : Listed α) : List α :=
  l.first :: l.rest.map Later.item

def Arguments.names (a : Arguments) : List (List Char) :=
  a.atoms.items.flatMap Atom.names

def Invocation.names (i : Invocation) : List (List Char) :=
  i.arguments.elim [] Arguments.names

def Operation.names (o : Operation) : List (List Char) :=
  o.left.names ++ o.right.names

def RightSide.names : RightSide → List (List Char)
  | newArray a => a.length.names
  | newObject _ | member _ => []
  | call i => i.names
  | cast c => c.operand.names
  | operation o => o.names
  | negation n => [n.name]
  | element e => e.names
  | atom a => a.names

def Command.names : Command → List (List Char)
  | ret r _ => r.elim [] fun r => r.value.names
  | branch b => b.condition.names
  | switch w => [w.selector]
  | call i _ => i.names
  | assign a => a.left.names ++ a.right.names
  | goto _ | nop _ => []

end Names

section Numbers

/-- The number that digits denote, however many there are. -/
def Digits.denoted : Digits → Nat
  | .hex _ ds => Text.ofDigits 16 (ds.map hexValue)
  | .decimal ds => Text.ofDigits 10 (ds.map hexValue)

/-- Digits that are not too many to be read. -/
def Digits.IsShort : Digits → Prop
  | .hex _ _ => True
  | .decimal ds => ds.length ≤ Text.digitLimit

def Number.denoted (n : Number) : Int :=
  if n.negative then -(n.digits.denoted : Int) else n.digits.denoted

/-- The numbers that stand in an atom. -/
def Atom.numbers : Atom → List Number
  | int n => [n]
  | _ => []

def Element.numbers (e : Element) : List Number :=
  e.index.numbers

def LeftSide.numbers : LeftSide → List Number
  | element e => e.numbers
  | member _ | name _ => []

def Arguments.numbers (a : Arguments) : List Number :=
  a.atoms.items.flatMap Atom.numbers

def Invocation.numbers (i : Invocation) : List Number :=
  i.arguments.elim [] Arguments.numbers

def Operation.numbers (o : Operation) : List Number :=
  o.left.numbers ++ o.right.numbers

def RightSide.numbers : RightSide → List Number
  | newArray a => a.length.numbers
  | newObject _ | member _ | negation _ => []
  | call i => i.numbers
  | cast c => c.operand.numbers
  | operation o => o.numbers
  | element e => e.numbers
  | atom a => a.numbers

def Command.numbers : Command → List Number
  | ret r _ => r.elim [] fun r => r.value.numbers
  | branch b => b.condition.numbers
  | switch w => w.cases.map Case.value
  | call i _ => i.numbers
  | assign a => a.left.numbers ++ a.right.numbers
  | goto _ | nop _ => []

end Numbers

section Types

/-- A type name as one is read without comments: a word and pairs of brackets. -/
structure TypeName.IsWritten (t : TypeName) : Prop where
  base : IsWordOf isTypeChar t.base
  dims : ∀ d ∈ t.dims, d.before.IsBlank ∧ d.inside.IsBlank

def TypeName.IsVoidArray (t : TypeName) : Prop :=
  t.base = "void".toList ∧ t.dims ≠ []

/-- A type name without brackets that names neither a primitive type nor `void`. -/
def TypeName.IsClass (t : TypeName) : Prop :=
  t.dims = [] ∧ t.base ≠ "void".toList ∧ ∀ q : Prim, t.base ≠ q.name.toList

/-- The types that objects are made of. -/
def RightSide.objects : RightSide → List TypeName
  | newObject n => [n.type]
  | _ => []

def Command.objects : Command → List TypeName
  | assign a => a.right.objects
  | _ => []

end Types

section Jumps

def Command.caseValues : Command → List Int
  | switch w => w.cases.map fun c => c.value.denoted
  | _ => []

/-- The labels that a command jumps to; the default of a switch comes last. -/
def Command.jumps : Command → List (List Char)
  | goto j => [j.label]
  | branch b => [b.jump.label]
  | switch w => (w.cases.map fun c => c.jump.label) ++ [w.default.jump.label]
  | _ => []

def Item.command? : Item → Option Command
  | label _ => none
  | statement x => some x.command

def Item.label? : Item → Option (List Char)
  | label l => some l.name
  | statement _ => none

def commands (items : List Item) : List Command :=
  items.filterMap Item.command?

def labels (items : List Item) : List (List Char) :=
  items.filterMap Item.label?

/-- Some items define a label, and this is the first statement behind its definition; only
definitions of other labels stand between them. -/
inductive LeadsToStatement (items : List Item) (x : List Char) : Target → Prop
  | intro (before between after : List Item) (l : Label) (s : Statement)
      (hitems : items = before ++ .label l :: (between ++ .statement s :: after))
      (hlabel : l.name = x) (hbetween : commands between = []) :
      LeadsToStatement items x (.stmt (commands before).length)

end Jumps

section Rules

/-- The rules for a command among declared names. -/
structure Command.IsSound (declared : List (List Char)) (c : Command) : Prop where
  names : ∀ x ∈ c.names, x ∈ declared
  types : ∀ t ∈ c.types, ¬ t.IsVoidArray
  objects : ∀ t ∈ c.objects, t.IsClass
  results : ∀ a, c = .assign a → a.right.isCall = true → ∃ x, a.left = .name x
  cases : c.caseValues.Nodup

/-- The rules for the labels of a body. -/
structure LabelsAreSound (items : List Item) : Prop where
  distinct : (labels items).Nodup
  followed : ∀ before l after, items = before ++ .label l :: after → commands after ≠ []
  defined : ∀ c ∈ commands items, ∀ x ∈ c.jumps, x ∈ labels items

def Params.items (ps : Params) : List Param :=
  ps.list.items

/-- The names that a method declares, in their order: parameters, then local variables. -/
def MethodDecl.declared (d : MethodDecl) : List (List Char) :=
  (d.params.elim [] Params.items).map Param.name ++ d.decls.flatMap fun v => v.names.items

/-- The type that a method returns and those of its variables. -/
def MethodDecl.declaredTypes (d : MethodDecl) : List TypeName :=
  d.type :: (d.params.elim [] Params.types ++ d.decls.map VarDecl.type)

structure MethodDecl.IsSound (d : MethodDecl) : Prop where
  distinct : d.declared.Nodup
  types : ∀ t ∈ d.declaredTypes, ¬ t.IsVoidArray
  commands : ∀ c ∈ commands d.items, c.IsSound d.declared
  labels : LabelsAreSound d.items

structure Program.IsSound (x : Program) : Prop where
  distinct : (x.methods.map MethodDecl.name).Nodup
  methods : ∀ d ∈ x.methods, d.IsSound

/-- No rule: a command whose numbers are short enough to be read, and whose repeated cases, if it
has any, are short enough to be named in a message. -/
structure Command.IsWieldy (c : Command) : Prop where
  numbers : ∀ n ∈ c.numbers, n.digits.IsShort
  repeats : ∀ k, 1 < c.caseValues.count k → Text.isWritable k = true

def MethodDecl.IsWieldy (d : MethodDecl) : Prop :=
  ∀ c ∈ Source.commands d.items, c.IsWieldy

def Program.IsWieldy (x : Program) : Prop :=
  ∀ d ∈ x.methods, d.IsWieldy

/-- The jumps of a method lead where the labels in its declaration are. -/
def MethodDecl.JumpsAsWritten (d : MethodDecl) (m : Method) : Prop :=
  List.Forall₂ (fun (c : Command) (s : Stmt) =>
    List.Forall₂ (LeadsToStatement d.items) c.jumps s.instr.jumps) (commands d.items) m.body

end Rules

section Decisions

variable {α β : Type} {x : Checked α} {f : α → Checked β} {S S' W W' : Prop}

/-- A check that succeeds where a rule holds and the numbers it comes across can be converted. Else
it says that the program means nothing, which breaks the rule, or it breaks off at a number. -/
structure Decides (x : Checked α) (S W : Prop) : Prop where
  succeeds : (∃ a, x = .ok a) ↔ S ∧ W
  fails : ∀ e, x = .error e →
    e.cause.severity = .meaningless ∧ ¬ S ∨ e.cause.severity = .unforeseen ∧ ¬ W

theorem Decides.exists_iff (h : Decides x S True) : (∃ a, x = .ok a) ↔ S :=
  h.succeeds.trans (and_iff_left trivial)

theorem decides_ok (a : α) : Decides (.ok a : Checked α) True True :=
  ⟨⟨fun _ => ⟨trivial, trivial⟩, fun _ => ⟨a, rfl⟩⟩, fun _ h => nomatch h⟩

theorem decides_reject {c : Cause} (h : c.severity = .meaningless) (p : Pos) :
    Decides (reject c p : Checked α) False True := by
  refine ⟨⟨fun ⟨a, ha⟩ => ?_, fun hf => hf.1.elim⟩, fun e he => ?_⟩
  · cases ha
  · cases he
    exact .inl ⟨h, id⟩

/-- Where a check breaks off, it says nothing of the rules. -/
theorem decides_unforeseen {e : Diagnostic} (h : e.cause.severity = .unforeseen) (hW : ¬ W) :
    Decides (.error e : Checked α) S W := by
  refine ⟨iff_of_false (fun ⟨a, ha⟩ => ?_) fun hSW => hW hSW.2, fun e' he => ?_⟩
  · cases ha
  · cases he
    exact .inr ⟨h, hW⟩

theorem Decides.congr (h : Decides x S W) (hS : S ↔ S') (hW : W ↔ W') : Decides x S' W' :=
  ⟨h.succeeds.trans (and_congr hS hW), fun e he =>
    (h.fails e he).imp (And.imp_right (mt hS.mpr)) (And.imp_right (mt hW.mpr))⟩

/-- A check that never succeeds says nothing but which rules are broken. -/
theorem Decides.weaken (h : Decides x False W) (hS : ¬ S) (hW : W' → W) : Decides x S W' :=
  ⟨iff_of_false (fun hx => (h.succeeds.mp hx).1) fun hSW => hS hSW.1, fun e he =>
    (h.fails e he).imp (And.imp_right fun _ => hS) (And.imp_right (mt hW))⟩

/-- What is checked first is decided first; the rest of a check may count on its success. -/
theorem Decides.bind (hx : Decides x S W) (hf : ∀ a, x = .ok a → Decides (f a) S' W') :
    Decides (x >>= f) (S ∧ S') (W ∧ W') := by
  cases x with
  | error e =>
    refine ⟨⟨fun ⟨b, hb⟩ => ?_, fun h => ?_⟩, fun e' he => ?_⟩
    · cases hb
    · obtain ⟨a, ha⟩ := hx.succeeds.mpr ⟨h.1.1, h.2.1⟩
      cases ha
    · cases he
      exact (hx.fails e rfl).imp (And.imp_right (mt And.left)) (And.imp_right (mt And.left))
  | ok a =>
    obtain ⟨hS, hW⟩ := hx.succeeds.mp ⟨a, rfl⟩
    exact (hf a rfl).congr (and_iff_right hS).symm (and_iff_right hW).symm

/-- A check whose result is only put into something else. -/
theorem Decides.map {g : α → β} (hx : Decides x S W) :
    Decides (x >>= fun a => pure (g a)) S W :=
  (hx.bind fun a _ => decides_ok (g a)).congr (and_iff_left trivial) (and_iff_left trivial)

theorem decides_mapM {g : α → Checked β} {R V : α → Prop} {xs : List α}
    (h : ∀ a ∈ xs, Decides (g a) (R a) (V a)) :
    Decides (xs.mapM g) (∀ a ∈ xs, R a) (∀ a ∈ xs, V a) := by
  induction xs with
  | nil =>
    exact (decides_ok []).congr (iff_of_true trivial (List.forall_mem_nil R))
      (iff_of_true trivial (List.forall_mem_nil V))
  | cons a xs ih =>
    obtain ⟨ha, hxs⟩ := List.forall_mem_cons.mp h
    rw [List.mapM_cons]
    exact (ha.bind fun _ _ => (ih hxs).map).congr List.forall_mem_cons.symm
      List.forall_mem_cons.symm

theorem Digits.value_eq (ds : Digits) : ds.value = .ok ds.denoted ∧ ds.IsShort ∨
    (∃ e, ds.value = .error e) ∧ ¬ ds.IsShort := by
  cases ds with
  | hex mark xs => exact .inl ⟨rfl, trivial⟩
  | decimal xs =>
    rw [Digits.value, Text.readDecimal, List.length_map]
    split
    · rename_i hshort
      exact .inl ⟨rfl, hshort⟩
    · rename_i hlong
      exact .inr ⟨⟨_, rfl⟩, hlong⟩

theorem Number.eq_denoted_of_value {n : Number} {k : Int} (h : n.value = .ok k) :
    k = n.denoted := by
  obtain ⟨m, hm, h⟩ := Attempt.bind_eq_ok.mp h
  rcases n.digits.value_eq with ⟨hvalue, -⟩ | ⟨⟨e, he⟩, -⟩
  · cases hvalue.symm.trans hm
    cases h
    rfl
  · cases he.symm.trans hm

/-- A number is read unless it is too long, which breaks no rule. -/
theorem Number.decides (n : Number) :
    Decides (liftM n.value : Checked Int) True n.digits.IsShort := by
  rw [Number.value]
  rcases n.digits.value_eq with ⟨hvalue, hshort⟩ | ⟨⟨e, he⟩, hlong⟩
  · rw [hvalue]
    exact (decides_ok n.denoted).congr Iff.rfl (iff_of_true trivial hshort)
  · rw [he]
    exact decides_unforeseen rfl hlong

end Decisions

end MethodFlow.Source
