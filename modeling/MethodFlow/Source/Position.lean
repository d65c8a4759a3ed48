/-!
Positions in a text: line and column, both counted from one.
-/

namespace MethodFlow.Source

structure Pos where
  line : Nat
  column : Nat
  deriving DecidableEq

namespace Pos

def start : Pos := ⟨1, 1⟩

/-- The position after a character; only a line feed begins a new line. -/
def next (p : Pos) (c : Char) : Pos :=
  if c = '\n' then ⟨p.line + 1, 1⟩ else ⟨p.line, p.column + 1⟩

def after (p : Pos) (cs : List Char) : Pos :=
  cs.foldl next p

theorem after_append (p : Pos) (as bs : List Char) : p.after (as ++ bs) = (p.after as).after bs :=
  List.foldl_append

end Pos

end MethodFlow.Source
