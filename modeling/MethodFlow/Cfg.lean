import MethodFlow.Fault
import MethodFlow.OrderedMap

/-!
Control flow graphs of methods. A graph has the list of its edges, in the order in which they came
in, and two indexes of them, by the nodes that they leave and by the nodes where they arrive. Edges
come in one by one, and each is entered into the indexes as it comes.
-/

namespace MethodFlow

inductive EdgeKind
  | entry
  | fallThrough
  | goto
  | ifTrue
  | ifFalse
  | switchCase
  | switchDefault
  | ret
  deriving DecidableEq

namespace EdgeKind

def all : List EdgeKind :=
  [entry, fallThrough, goto, ifTrue, ifFalse, switchCase, switchDefault, ret]

def symbol : EdgeKind → String
  | entry => "ENTRY"
  | fallThrough => "FALL_THROUGH"
  | goto => "GOTO"
  | ifTrue => "IF_TRUE"
  | ifFalse => "IF_FALSE"
  | switchCase => "SWITCH_CASE"
  | switchDefault => "SWITCH_DEFAULT"
  | ret => "RETURN"

def label : EdgeKind → String
  | entry => "entry"
  | fallThrough => "fall-through"
  | goto => "goto"
  | ifTrue => "if-true"
  | ifFalse => "if-false"
  | switchCase => "switch-case"
  | switchDefault => "switch-default"
  | ret => "return"

end EdgeKind

/-- An edge; one that is taken for a case of a switch carries the value of the case. -/
structure Edge where
  kind : EdgeKind
  source : Node
  target : Node
  case? : Option Int := none
  deriving DecidableEq

namespace Cfg

/-- Whether a node is one of a graph over `size` statements. -/
def isNode (size : Nat) : Node → Bool
  | .entry | .exit => true
  | .stmt i => i < size
  | .foreign _ => false

/-- The entry, the statements in their order, and the exit. -/
def nodesOf (size : Nat) : List Node :=
  .entry :: (List.range size).map .stmt ++ [.exit]

theorem mem_nodesOf {size : Nat} {n : Node} : n ∈ nodesOf size ↔ isNode size n = true := by
  cases n <;> simp [nodesOf, isNode]

end Cfg

/-- Edges in their order, and for each node of a graph those that leave it and those that arrive at
it. -/
structure EdgeTable where
  edges : List Edge
  outs : OrderedMap Node (List Edge)
  ins : OrderedMap Node (List Edge)

namespace EdgeTable

/-- The table of some nodes and no edges. -/
def blank (ns : List Node) : EdgeTable :=
  ⟨[], .tabulate ns fun _ => [], .tabulate ns fun _ => []⟩

/-- Adds an edge, and complains about the first end of it that is not a node of the graph. What was
added before it came to that end stays. -/
def add (t : EdgeTable) (e : Edge) : EdgeTable × Except Fault Unit :=
  let t := { t with edges := t.edges ++ [e] }
  match t.outs.find? e.source with
  | none => (t, .error (.stray e.source))
  | some es =>
    let t := { t with outs := t.outs.insert e.source (es ++ [e]) }
    match t.ins.find? e.target with
    | none => (t, .error (.stray e.target))
    | some es => ({ t with ins := t.ins.insert e.target (es ++ [e]) }, .ok ())

/-- An index has a list for each node of a graph over `size` statements, and there those edges that
`found` says are to be found at the node, in their order. -/
def Indexes (size : Nat) (found : Node → Edge → Bool) (es : List Edge)
    (x : OrderedMap Node (List Edge)) : Prop :=
  ∀ n, x.find? n = if Cfg.isNode size n then some (es.filter (found n)) else none

/-- The indexes are in step with the list. An edge that starts outside the graph does not arrive. -/
structure InStep (size : Nat) (t : EdgeTable) : Prop where
  outs : Indexes size (fun n e => e.source = n) t.edges t.outs
  ins : Indexes size (fun n e => e.target = n ∧ Cfg.isNode size e.source) t.edges t.ins

variable {size : Nat} {found : Node → Edge → Bool} {es : List Edge}
  {x : OrderedMap Node (List Edge)} {t : EdgeTable} {e : Edge}

theorem indexes_tabulate (size : Nat) (found : Node → Edge → Bool) :
    Indexes size found [] (.tabulate (Cfg.nodesOf size) fun _ => []) := by
  intro n
  simp only [OrderedMap.find?_tabulate, Cfg.mem_nodesOf, List.filter_nil]

theorem inStep_blank (size : Nat) : (blank (Cfg.nodesOf size)).InStep size :=
  ⟨indexes_tabulate size _, indexes_tabulate size _⟩

/-- An edge that is to be found at one node is put behind those that are there. -/
theorem Indexes.insert (h : Indexes size found es x) {k : Node} (hk : Cfg.isNode size k = true)
    (he : ∀ n, found n e = decide (k = n)) :
    Indexes size found (es ++ [e]) (x.insert k (es.filter (found k) ++ [e])) := by
  intro n
  rw [OrderedMap.find?_insert, List.filter_append, h n]
  by_cases hn : k = n
  · subst hn
    simp [hk, he]
  · simp [hn, he]

/-- An edge that is to be found nowhere leaves an index as it is. -/
theorem Indexes.skip (h : Indexes size found es x)
    (he : ∀ n, Cfg.isNode size n = true → found n e = false) :
    Indexes size found (es ++ [e]) x := by
  intro n
  rw [h n, List.filter_append]
  split
  · rename_i hn
    simp [he n hn]
  · rfl

@[simp] theorem edges_add (t : EdgeTable) (e : Edge) : (t.add e).1.edges = t.edges ++ [e] := by
  unfold add
  dsimp only
  split
  · rfl
  · split <;> rfl

/-- An edge can be added exactly when both of its ends are nodes of the graph. -/
theorem InStep.add_eq_ok_iff (h : t.InStep size) :
    (t.add e).2 = .ok () ↔ Cfg.isNode size e.source = true ∧ Cfg.isNode size e.target = true := by
  unfold add
  dsimp only
  rw [h.outs, h.ins]
  cases Cfg.isNode size e.source <;> cases Cfg.isNode size e.target <;> simp

/-- However far an edge can be added, the indexes stay in step with the list. -/
theorem InStep.add (h : t.InStep size) (e : Edge) : (t.add e).1.InStep size := by
  unfold EdgeTable.add
  dsimp only
  rw [h.outs, h.ins]
  cases hs : Cfg.isNode size e.source with
  | false =>
    have hne : ∀ n, Cfg.isNode size n = true → e.source ≠ n := by
      rintro n hn rfl
      rw [hn] at hs
      cases hs
    exact ⟨h.outs.skip fun n hn => decide_eq_false (hne n hn), h.ins.skip fun n _ => by simp [hs]⟩
  | true =>
    have houts := h.outs.insert hs (e := e) fun n => rfl
    cases ht : Cfg.isNode size e.target with
    | false =>
      have hne : ∀ n, Cfg.isNode size n = true → e.target ≠ n := by
        rintro n hn rfl
        rw [hn] at ht
        cases ht
      exact ⟨houts, h.ins.skip fun n hn => by simp [hne n hn]⟩
    | true => exact ⟨houts, h.ins.insert ht fun n => by simp [hs]⟩

end EdgeTable

/-- A graph over an entry, `size` statements and an exit. -/
structure Cfg extends EdgeTable where
  size : Nat
  inStep : toEdgeTable.InStep size

namespace Cfg

/-- The graph over `size` statements without an edge. -/
def blank (size : Nat) : Cfg :=
  ⟨.blank (nodesOf size), size, EdgeTable.inStep_blank size⟩

/-- Adds an edge as far as it can be added. -/
def addEdge (g : Cfg) (e : Edge) : Cfg × Except Fault Unit :=
  let added := g.toEdgeTable.add e
  (⟨added.1, g.size, g.inStep.add e⟩, added.2)

def has (g : Cfg) (n : Node) : Bool :=
  isNode g.size n

def nodes (g : Cfg) : List Node :=
  nodesOf g.size

/-- The edges that leave a node of the graph. -/
def outEdges (g : Cfg) (n : Node) : List Edge :=
  (g.outs.find? n).getD []

/-- The edges that arrive at a node of the graph. -/
def inEdges (g : Cfg) (n : Node) : List Edge :=
  (g.ins.find? n).getD []

/-- Each node that an edge leads to from `n`, once, in the order of the edges. -/
def succs (g : Cfg) (n : Node) : List Node :=
  ((g.outEdges n).map Edge.target).eraseDups

/-- Each node that an edge leads from to `n`, once, in the order of the edges. -/
def preds (g : Cfg) (n : Node) : List Node :=
  ((g.inEdges n).map Edge.source).eraseDups

section Build

def next (size i : Nat) : Node :=
  if i + 1 < size then .stmt (i + 1) else .exit

/-- Where the jump in a slot of statement `i` leads. -/
def resolve (i : Nat) (slot : Slot) (t : Target) : Except Fault Node :=
  match t.node? with
  | some n => .ok n
  | none => .error (.unresolved slot i)

def resolveCases (i : Nat) (cases : List (Int × Target)) : Except Fault (List (Int × Node)) :=
  cases.mapM fun c => return (c.1, ← resolve i (.case c.1) c.2)

/-- A step in building a graph, which is given up where it fails. -/
abbrev Growth := StateT Cfg (Except Fault)

def grow (e : Edge) : Growth Unit := do
  let (g, outcome) := (← get).addEdge e
  -- a graph with an edge that was added in part goes down with the failure
  outcome
  set g

/-- Adds the edges that leave statement `i`. All cases of a switch are resolved before any of them
has its edge, and all of these come before the default. -/
def leave (size i : Nat) : Instr Target → Growth Unit
  | .goto t => do grow ⟨.goto, .stmt i, ← resolve i .target t, none⟩
  | .branch _ t => do
    grow ⟨.ifTrue, .stmt i, ← resolve i .target t, none⟩
    grow ⟨.ifFalse, .stmt i, next size i, none⟩
  | .switch _ values targets default => do
    let cases ← resolveCases i (values.zip targets)
    cases.forM fun c => grow ⟨.switchCase, .stmt i, c.2, some c.1⟩
    grow ⟨.switchDefault, .stmt i, ← resolve i .default default, none⟩
  | .ret _ => grow ⟨.ret, .stmt i, .exit, none⟩
  | .assign _ _ | .call _ _ | .nop => grow ⟨.fallThrough, .stmt i, next size i, none⟩

def entryEdge (size : Nat) : Edge :=
  ⟨.entry, .entry, if size = 0 then .exit else .stmt 0, none⟩

/-- The graph of a method: the edge into the body, then the edges from each statement in order. -/
def build (m : Method) : Except Fault Cfg := do
  let growth : Growth Unit := do
    grow (entryEdge m.size)
    m.body.zipIdx.forM fun s => leave m.size s.2 s.1.instr
  return (← growth.run (blank m.size)).2

end Build

end Cfg

end MethodFlow
