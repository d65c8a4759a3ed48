import MethodFlow.Proofs.PlainCode
import MethodFlow.Proofs.TypeText
import MethodFlow.Proofs.WrittenNumbers

/-!
Legible code: code whose text can be read back. Its names are names of the grammar, its variables
are in scope, and no expression begins like another one that would be tried before it.
-/

namespace MethodFlow

open Source

/-- A variable that is in scope under a name. -/
structure Source.Scope.Knows (s : Scope) (v : Var) : Prop where
  named : s.named? v.name = some v
  isName : IsName v.name.toList

/-- The operators that are words. -/
def wordOperators : List BinOp :=
  [.cmpl, .cmpg, .cmp]

/-- A name that would be read as a comparison of `null` and another name. -/
def HidesOperation (x : List Char) : Prop :=
  ∃ op ∈ wordOperators, ∃ z, x = "null".toList ++ op.symbol.toList ++ '$' :: z

section Expressions

variable (s : Scope)

/-- Atoms that are read back; `null` is read off any word that begins with it. -/
def Expr.IsLegibleAtom : Expr → Prop
  | .var v => s.Knows v ∧ ¬ "null".toList <+: v.name.toList
  | .int _ | .str _ | .null => True
  | _ => False

def Place.IsLegible : Place → Prop
  | .var v => s.Knows v
  | .field b f => (∃ v, b = .var v ∧ s.Knows v) ∧ IsName f.toList
  | .static c f => s.named? c = none ∧ IsName c.toList ∧ IsName f.toList
  | .element b i => (∃ v, b = .var v ∧ s.Knows v) ∧ i.IsLegibleAtom s

def Receiver.IsLegible : Receiver → Prop
  | .none => True
  | .object c => s.named? c = Option.none ∧ IsName c.toList
  | .var v => s.Knows v

def Expr.IsLegible : Expr → Prop
  | .bin _ a b => a.IsLegibleAtom s ∧ b.IsLegibleAtom s
  | .neg e => ∃ v, e = .var v ∧ s.Knows v
  | .new t => t.IsLegible ∧ ∃ c, t = .object c
  | .newArray t n => t.IsLegible ∧ n.IsLegibleAtom s
  | .cast t e => t.IsLegible ∧ e.IsLegibleAtom s
  | .field b f => (Place.field b f).IsLegible s ∧ ¬ HidesOperation b.text.toList
  | .static c f => (Place.static c f).IsLegible s ∧ ¬ HidesOperation c.toList
  | .element b i => (Place.element b i).IsLegible s ∧ ¬ HidesOperation b.text.toList
  | .call r m args => r.IsLegible s ∧ IsName m.toList ∧ ∀ a ∈ args, a.IsLegibleAtom s
  | .var v => (Expr.var v).IsLegibleAtom s
  | .int _ | .str _ | .null => True

theorem Expr.IsLegibleAtom.isLegible {s : Scope} {e : Expr} (h : e.IsLegibleAtom s) :
    e.IsLegible s := by
  cases e <;> first | exact h | exact h.elim

end Expressions

/-- A jump to one of `n` statements. -/
def Target.IsWithin (n : Nat) (t : Target) : Prop :=
  ∃ k < n, t = .stmt k

/-- A condition is a comparison that says whether it holds. -/
def Expr.IsLegibleCondition (s : Scope) : Expr → Prop
  | .bin op a b => op.isCondition = true ∧ a.IsLegibleAtom s ∧ b.IsLegibleAtom s
  | _ => False

/-- A statement that is read back among the variables in scope where its jumps are. -/
def Instr.IsLegible {τ : Type} (s : Scope) (jump : τ → Prop) : Instr τ → Prop
  | .assign p e => p.IsLegible s ∧ e.IsLegible s ∧ e.isCall = false
  | .call p e => (∀ q, p = some q → ∃ v, q = .var v ∧ s.Knows v) ∧ e.IsLegible s ∧ e.isCall = true
  | .branch c t => c.IsLegibleCondition s ∧ jump t
  | .goto t => jump t
  | .switch v ks ts d =>
    s.Knows v ∧ ks.Nodup ∧ ks.length = ts.length ∧ (∀ t ∈ ts, jump t) ∧ jump d
  | .ret e => ∀ x, e = some x → x.IsLegibleAtom s
  | .nop => True

/-- Variables of different names, which are names of the grammar, and of legible types. -/
structure Source.Scope.IsLegible (s : Scope) : Prop where
  names : ∀ v ∈ s, IsName v.name.toList
  types : ∀ v ∈ s, v.ty.IsLegible
  distinct : (s.map Var.name).Nodup

theorem Source.Scope.IsLegible.of_append {s t : Scope} (h : Scope.IsLegible (s ++ t)) :
    s.IsLegible ∧ t.IsLegible := by
  obtain ⟨hnames, htypes, hdistinct⟩ := h
  rw [List.forall_mem_append] at hnames htypes
  rw [List.map_append, List.nodup_append] at hdistinct
  exact ⟨⟨hnames.1, htypes.1, hdistinct.1⟩, ⟨hnames.2, htypes.2, hdistinct.2.1⟩⟩

structure Method.IsLegible (m : Method) : Prop where
  name : IsName m.name.toList
  ret : m.ret.IsLegible
  /-- The parameters are the first of the variables. -/
  params : m.params <+: m.vars
  vars : Scope.IsLegible m.vars
  body : ∀ x ∈ m.body, x.instr.IsLegible m.vars (Target.IsWithin m.size)

end MethodFlow
