import MethodFlow.Cfg.Dot
import MethodFlow.Result

/-!
Results of analyses as text for people to read.
-/

namespace MethodFlow.Report

def header (id : String) (m : Method) : String :=
  "== " ++ id ++ ": " ++ m.signature

def positionText (i : Nat) : String :=
  Text.padLeft 3 (toString i)

def factText {F : Type} [Fact F] (t : FactTable F) (side : Side) (i : Nat) :
    Except Fault String := do
  return ← Fact.render (← t.fact side (.stmt i))

/-- A statement with the facts on both of its sides. -/
def rowText {F : Type} [Fact F] (t : FactTable F) (i : Nat) (s : Stmt) : Except Fault String := do
  return positionText i ++ ": " ++ Text.padRight 32 (← s.instr.render) ++
    " IN=" ++ (← factText t .input i) ++ "  OUT=" ++ (← factText t .output i)

def tableText {F : Type} [Fact F] (m : Method) (t : FactTable F) : Except Fault (List String) :=
  m.body.zipIdx.mapM fun s => rowText t s.2 s.1

def deadText (i : Nat) (s : Stmt) : Except Text.Overlong String := do
  return positionText i ++ ": L" ++ toString s.line ++ ": " ++ (← s.instr.render)

/-- The statements of a method at some positions, each with its position. -/
def stmtsAt (m : Method) (positions : List Nat) : List (Nat × Stmt) :=
  positions.filterMap fun i => m.body[i]?.map fun s => (i, s)

/-- The lines that show a result, below the header. -/
def resultLines {α : Type} (print : α → String) (m : Method) :
    Result α → Except Fault (List String)
  | .graph g => do return [← g.toDot m m.name]
  | .constants t => tableText m t
  | .liveness t => tableText m t
  | .dead [] => .ok ["  (none)"]
  | .dead positions => (stmtsAt m positions).mapM fun s => do return ← deadText s.1 s.2
  | .value x => .ok [print x]

def resultText {α : Type} (print : α → String) (id : String) (m : Method) (r : Result α) :
    Except Fault String := do
  return "\n".intercalate (header id m :: (← resultLines print m r))

end MethodFlow.Report
