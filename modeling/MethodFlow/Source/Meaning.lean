import MethodFlow.Source.Diagnostic
import MethodFlow.Source.Program
import MethodFlow.Stmt

/-!
The meaning of phrases and statements among the variables in scope. What is read first is checked
first, and the first thing wrong is what is reported; an element of an array is checked after its
index.
-/

namespace MethodFlow.Source

/-- The result of a check, or the first thing wrong. -/
abbrev Checked := Except Diagnostic

/-- The variables in scope, which have different names. -/
abbrev Scope := List Var

/-- A label that a jump names, and where it is named. -/
structure LabelRef where
  name : String
  pos : Pos
  deriving DecidableEq

def reject {α : Type} (cause : Cause) (p : Pos) : Checked α :=
  .error ⟨cause, some p⟩

/-- A conversion of an integer that fails is not located. -/
instance : MonadLift (Except Text.Overlong) Checked :=
  ⟨Except.mapError fun e => ⟨.overlong e, none⟩⟩

namespace Scope

def named? (s : Scope) (x : String) : Option Var :=
  List.find? (fun v => v.name = x) s

def lookup (s : Scope) (p : Pos) (x : List Char) : Checked Var :=
  match s.named? (String.ofList x) with
  | some v => .ok v
  | none => reject (.undeclared (String.ofList x)) p

def declare (s : Scope) (p : Pos) (v : Var) : Checked Scope :=
  if (s.named? v.name).isSome then reject (.alreadyDeclared v.name) p else .ok (s ++ [v])

end Scope

def TypeName.meaning (p : Pos) (t : TypeName) : Checked Ty :=
  match Ty.ofText? t.text with
  | some ty => .ok ty
  | none => reject .arrayOfVoid p

variable (s : Scope) (p : Pos)

def Atom.meaning : Atom → Checked Expr
  | int n => do return .int (← n.value)
  | string ps => .ok (.str (String.ofList (ps.map Piece.value)))
  | null => .ok .null
  | name x => do return .var (← s.lookup p x)

/-- A member of a variable is a field; a member of anything else is static. -/
def Member.place (m : Member) : Place :=
  match s.named? (String.ofList m.owner) with
  | some v => .field (.var v) (String.ofList m.name)
  | none => .static (String.ofList m.owner) (String.ofList m.name)

def Element.place (e : Element) : Checked Place := do
  let index ← e.index.meaning s (p.after e.head)
  return .element (.var (← s.lookup p e.base)) index

def LeftSide.meaning : LeftSide → Checked Place
  | element e => e.place s p
  | member m => .ok (m.place s)
  | name x => do return .var (← s.lookup p x)

def Callee.meaning : Callee → Receiver × String
  | plain x => (.none, String.ofList x)
  | member m =>
    let receiver := match s.named? (String.ofList m.owner) with
      | some v => .var v
      | none => .object (String.ofList m.owner)
    (receiver, String.ofList m.name)

/-- The items of a list with the positions at which they stand. -/
def Listed.placed {α : Type} (print : α → List Char) (l : Listed α) : List (Pos × α) :=
  (p, l.first) :: go (p.after (print l.first)) l.rest
where
  go (p : Pos) : List (Later α) → List (Pos × α)
    | [] => []
    | x :: r => (p.after x.head, x.item) :: go (p.after (x.text print)) r

def Arguments.meaning (a : Arguments) : Checked (List Expr) :=
  (a.atoms.placed p Atom.text).mapM fun x => x.2.meaning s x.1

def Invocation.meaning (i : Invocation) : Checked Expr := do
  let args ← i.arguments.elim (.ok []) fun a => a.meaning s (p.after i.head)
  let (receiver, method) := i.callee.meaning s
  return .call receiver method args

def Operation.meaning (o : Operation) : Checked Expr := do
  return .bin o.op (← o.left.meaning s p) (← o.right.meaning s (p.after o.head))

def NewObject.meaning (n : NewObject) : Checked Expr := do
  match ← n.type.meaning (p.after n.start) with
  | .object c => return .new (.object c)
  | t => reject (.notAClass t.render) p

def RightSide.meaning : RightSide → Checked Expr
  | newArray a => do
    return .newArray (← a.elem.meaning (p.after a.start)) (← a.length.meaning s (p.after a.head))
  | newObject n => n.meaning p
  | call i => i.meaning s p
  | cast c => do
    return .cast (← c.type.meaning (p.after c.start)) (← c.operand.meaning s (p.after c.head))
  | operation o => o.meaning s p
  | negation n => do return .neg (.var (← s.lookup (p.after n.start) n.name))
  | element e => do return (← e.place s p).toExpr
  | member m => .ok (m.place s).toExpr
  | atom a => a.meaning s p

def RightSide.isCall : RightSide → Bool
  | call _ => true
  | _ => false

/-- Results of calls are stored in variables only. -/
def Assignment.meaning (a : Assignment) : Checked (Instr LabelRef) := do
  let place ← a.left.meaning s p
  let value ← a.right.meaning s (p.after a.head)
  if !a.right.isCall then return .assign place value
  match place with
  | .var _ => return .call (some place) value
  | _ => reject .callStored p

def JumpTo.target (j : JumpTo) : LabelRef :=
  ⟨String.ofList j.label, p.after j.head⟩

/-- The cases of a switch with the labels they lead to. -/
def Case.meanings (p : Pos) : List Case → Checked (List (Int × LabelRef))
  | [] => .ok []
  | c :: r => do
    return (← c.value.value, c.jump.target (p.after c.head)) :: (← meanings (p.after c.text) r)

/-- The first case whose value an earlier case has. -/
def repeated? (seen : List Int) : List (Int × LabelRef) → Option (Int × LabelRef)
  | [] => none
  | c :: r => if c.1 ∈ seen then some c else repeated? (c.1 :: seen) r

def Switch.meaning (w : Switch) : Checked (Instr LabelRef) := do
  let start := p.after w.head
  let cases ← Case.meanings start w.cases
  let v ← s.lookup (p.after w.start) w.selector
  match repeated? [] cases with
  | some c => reject (.duplicateCase (← Text.writeInt c.1)) c.2.pos
  | none =>
    let rest := start.after (w.cases.flatMap Case.text)
    return .switch v (cases.map Prod.fst) (cases.map Prod.snd)
      (w.default.jump.target (rest.after w.default.head))

def Command.meaning : Command → Checked (Instr LabelRef)
  | ret none _ => .ok (.ret none)
  | ret (some r) _ => do
    return .ret (some (← r.value.meaning s (p.after ("return".toList ++ r.lead.text))))
  | goto j => .ok (.goto (j.target p))
  | branch b => do
    return .branch (← b.condition.meaning s (p.after b.start)) (b.jump.target (p.after b.head))
  | switch w => w.meaning s p
  | nop _ => .ok .nop
  | call i _ => do return .call none (← i.meaning s p)
  | assign a => a.meaning s p

end MethodFlow.Source
