import MethodFlow.Method
import MethodFlow.Source.Meaning

/-!
The layout of a body: its statements in their order, and where its labels lead.
-/

namespace MethodFlow.Source

/-- A statement whose jumps do not lead to statements yet, and the line it stands on. -/
structure Pending (τ : Type) where
  instr : Instr τ
  line : Nat

/-- A label that is defined, and the number of statements before it. -/
structure Mark where
  label : LabelRef
  index : Nat

structure Layout (τ : Type) where
  marks : List Mark
  stmts : List (Pending τ)

namespace Layout

variable {τ : Type}

def empty : Layout τ := ⟨[], []⟩

def mark (x : LabelRef) (l : Layout τ) : Layout τ :=
  { l with marks := l.marks ++ [⟨x, l.stmts.length⟩] }

def push (y : Pending τ) (l : Layout τ) : Layout τ :=
  { l with stmts := l.stmts ++ [y] }

/-- The first label that an earlier one has the name of. -/
def repeated? (seen : List String) : List Mark → Option LabelRef
  | [] => none
  | m :: r =>
    if m.label.name ∈ seen then some m.label else repeated? (m.label.name :: seen) r

/-- The first label after the last statement. -/
def dangling? (l : Layout τ) : Option LabelRef :=
  (l.marks.find? fun m => m.index = l.stmts.length).map Mark.label

/-- Labels have different names, and a statement follows each of them. -/
def check (l : Layout τ) : Checked Unit :=
  match repeated? [] l.marks with
  | some x => reject (.labelTwice x.name) x.pos
  | none =>
    match l.dangling? with
    | some x => reject (.danglingLabel x.name) x.pos
    | none => .ok ()

def resolve (l : Layout τ) (x : LabelRef) : Checked Target :=
  match l.marks.find? fun m => m.label.name = x.name with
  | some m => .ok (.stmt m.index)
  | none => reject (.undefinedLabel x.name) x.pos

/-- The targets of jumps, in their order. -/
def resolveAll (l : Layout τ) (xs : List LabelRef) : Checked (List Target) :=
  xs.mapM l.resolve

end Layout

end MethodFlow.Source
