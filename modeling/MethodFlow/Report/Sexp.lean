import MethodFlow.Report.Text
import MethodFlow.Sexp

/-!
Methods and results of analyses as S-expressions.
-/

namespace MethodFlow.Report

/-- The position, the line and the text of a statement. -/
def stmtSexp (i : Nat) (s : Stmt) : Except Text.Overlong Sexp := do
  return .list [.int i, .int s.line, .string (← s.instr.render)]

def paramSexp (v : Var) : Sexp :=
  .list [.symbol v.name, .symbol v.ty.render]

def methodSexp (m : Method) : Except Text.Overlong Sexp := do
  let stmts ← m.body.zipIdx.mapM fun s => stmtSexp s.2 s.1
  return .list [
    .symbol "method",
    .string m.name,
    .list (.symbol "params" :: m.params.map paramSexp),
    .list (.symbol "stmts" :: stmts)]

def edgeSexp (m : Method) (e : Edge) : Except Text.Overlong Sexp := do
  return .list [.symbol e.kind.symbol, .string (← e.source.label m), .string (← e.target.label m)]

def rowSexp {F : Type} (print : F → List Sexp) (row : Node × F × F) : Sexp :=
  .list [
    .symbol "stmt",
    .int row.1.index,
    .list (.symbol "in" :: print row.2.1),
    .list (.symbol "out" :: print row.2.2)]

def stmtNodes (m : Method) : List Node :=
  (List.range m.size).map .stmt

/-- A result under the id of its analysis and the name of the method. -/
def resultSexp {α : Type} (print : α → String) (id : String) (m : Method) :
    Result α → Except Fault Sexp
  | .graph g => do return frame id (← g.edges.mapM fun e => do return ← edgeSexp m e)
  | .constants t => do
    return frame id ((← t.rows (stmtNodes m)).map (rowSexp ConstMap.toSexps))
  | .liveness t => do
    return frame id ((← t.rows (stmtNodes m)).map (rowSexp VarSet.toSexps))
  | .dead positions => do
    return frame "deadcode" (← (stmtsAt m positions).mapM fun s => do return ← stmtSexp s.1 s.2)
  | .value x => .ok (frame id [.string (print x)])
where
  frame (head : String) (items : List Sexp) : Sexp :=
    .list (.symbol head :: .string m.name :: items)

end MethodFlow.Report
