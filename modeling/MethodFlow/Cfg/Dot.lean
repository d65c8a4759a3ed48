import MethodFlow.Cfg
import MethodFlow.Text.Quoted

/-!
Graphs as text: labels of nodes, one-line summaries, and the DOT language.
-/

namespace MethodFlow

/-- What a node shows: its name at either end of the graph, else its position and statement. -/
def Node.label (m : Method) : Node → Except Text.Overlong String
  | .entry => .ok "[entry]"
  | .exit => .ok "[exit]"
  | n => do return toString n.index ++ ": " ++ (← (n.instr m).render)

def Node.dotName : Node → String
  | .entry => "entry"
  | .exit => "exit"
  | n => "s" ++ toString n.index

/-- The value of a case behind some words, on edges that have one. -/
def Edge.caseText (words : String) (e : Edge) : Except Text.Overlong String :=
  e.case?.elim (.ok "") fun v => do return words ++ (← Text.writeInt v)

def Edge.describe (e : Edge) : Except Text.Overlong String := do
  return "CFGEdge(" ++ toString e.source.index ++ " -> " ++ toString e.target.index ++ ", kind=" ++
    Text.quoted e.kind.label ++ (← e.caseText ", case=") ++ ")"

namespace Cfg

/-- The name of the method, and how many nodes and edges there are. -/
def describe (m : Method) (g : Cfg) : String :=
  "CFG(method=" ++ Text.quoted m.name ++ ", nodes=" ++ toString g.nodes.length ++
    ", edges=" ++ toString g.edges.length ++ ")"

/-- A label between the quotation marks of the DOT language. -/
def escapeLabel (s : String) : String :=
  String.ofList (s.toList.flatMap fun c => if c = '"' then ['\\', '"'] else [c])

def nodeColor : Node → String
  | .entry => ", style=filled, fillcolor=\"#ccffcc\""
  | .exit => ", style=filled, fillcolor=\"#ffcccc\""
  | _ => ""

def nodeLine (m : Method) (n : Node) : Except Text.Overlong String := do
  return "  " ++ n.dotName ++ " [label=\"" ++ escapeLabel (← n.label m) ++ "\"" ++ nodeColor n ++
    "];"

def edgeLabel (e : Edge) : Except Text.Overlong String := do
  return e.kind.label ++ (← e.caseText ": ")

def edgeColor : EdgeKind → String
  | .ifTrue => ", color=green, fontcolor=green"
  | .ifFalse => ", color=red, fontcolor=red"
  | _ => ""

def edgeLine (e : Edge) : Except Text.Overlong String := do
  return "  " ++ e.source.dotName ++ " -> " ++ e.target.dotName ++
    " [label=\"" ++ (← edgeLabel e) ++ "\"" ++ edgeColor e.kind ++ "];"

def titleLines (title : String) : List String :=
  if title = "" then [] else ["  label=\"" ++ title ++ "\";"]

/-- The graph in the DOT language; an empty title is left out. -/
def toDot (m : Method) (g : Cfg) (title : String) : Except Text.Overlong String := do
  let nodeLines ← g.nodes.mapM (nodeLine m)
  let edgeLines ← g.edges.mapM edgeLine
  return "\n".intercalate
    (["digraph CFG \x7b"] ++ titleLines title ++
      ["  node [shape=box, fontname=monospace, fontsize=10];"] ++
      nodeLines ++ edgeLines ++ ["\x7d"])

end Cfg

end MethodFlow
