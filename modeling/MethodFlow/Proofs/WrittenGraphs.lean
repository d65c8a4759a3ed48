import MethodFlow.Cfg.Dot
import MethodFlow.Proofs.GraphShape
import MethodFlow.Proofs.WrittenNumbers

/-!
Graphs and the integers in their texts: the graph of a method can be written exactly when each
integer in the statements of the method can.
-/

namespace MethodFlow

open Text

section Ends

variable {m : Method} {n : Int}

/-- The integers in the label of a node. -/
def Node.numbers (m : Method) (k : Node) : List Int :=
  (k.instr m).numbers

/-- The label of a node if all integers in it can be written. -/
def Node.text (m : Method) : Node → String
  | .entry => "[entry]"
  | .exit => "[exit]"
  | k => toString k.index ++ ": " ++ (k.instr m).textWith Target.render

theorem Node.label_eq (m : Method) (k : Node) : k.label m = written (k.numbers m) (k.text m) := by
  cases k with
  | entry | exit => rfl
  | stmt i | foreign t =>
    rw [label, Instr.render, Instr.renderWith_eq]
    · exact written_map
    · nofun
    · nofun

theorem Node.mem_numbers {k : Node} (h : n ∈ k.numbers m) : n ∈ m.numbers := by
  unfold numbers at h
  rcases k.instr_cases m with hk | ⟨s, hs, hk⟩
  · rw [hk] at h
    cases h
  · rw [hk] at h
    exact Method.mem_numbers hs h

theorem Method.exists_node_of_mem_numbers (h : n ∈ m.numbers) :
    ∃ k ∈ (Cfg.graphOf m).nodes, n ∈ k.numbers m := by
  obtain ⟨s, hs, hn⟩ := List.mem_flatMap.mp h
  obtain ⟨i, hi, rfl⟩ := List.getElem_of_mem hs
  have hinstr : m.instr? i = some m.body[i].instr := by
    rw [instr?, List.getElem?_eq_getElem hi, Option.map_some]
  refine ⟨.stmt i, Cfg.mem_nodes.mpr (Cfg.has_stmt hinstr), ?_⟩
  rwa [Node.numbers, Node.instr_stmt hinstr]

/-- The integers that an edge shows. -/
def Edge.numbers (e : Edge) : List Int :=
  e.case?.toList

/-- The case of an edge if it can be written. -/
def Edge.caseWords (words : String) (e : Edge) : String :=
  e.case?.elim "" fun v => words ++ toString v

theorem Edge.caseText_eq (words : String) (e : Edge) :
    e.caseText words = written e.numbers (e.caseWords words) := by
  obtain ⟨kind, source, target, case?⟩ := e
  cases case? with
  | none => rfl
  | some v =>
    rw [caseText, Option.elim_some, writeInt_eq]
    exact written_map

/-- The cases of a graph are cases of switches of the method. -/
theorem Edge.mem_numbers {e : Edge} (he : e ∈ (Cfg.graphOf m).edges) (h : n ∈ e.numbers) :
    n ∈ m.numbers := by
  have hcase : e.case? = some n := Option.mem_toList.mp h
  rcases Cfg.mem_graphOf.mp he with rfl | ⟨i, s, hs, he⟩
  · cases hcase
  · apply Node.mem_numbers (k := .stmt i)
    rw [Node.numbers, Node.instr_stmt hs]
    cases s with
    | switch v ks ts d =>
      rcases List.mem_append.mp he with he | he
      · obtain ⟨c, hc, rfl⟩ := List.mem_map.mp he
        cases hcase
        exact List.mem_map_of_mem hc
      · rw [List.mem_singleton.mp he] at hcase
        cases hcase
    | branch c t =>
      rcases List.mem_cons.mp he with rfl | he
      · cases hcase
      · rw [List.mem_singleton.mp he] at hcase
        cases hcase
    | _ =>
      rw [List.mem_singleton.mp he] at hcase
      cases hcase

end Ends

namespace Cfg

variable (m : Method)

/-- The line of a node if all integers in its label can be written. -/
def nodeText (k : Node) : String :=
  "  " ++ k.dotName ++ " [label=\"" ++ escapeLabel (k.text m) ++ "\"" ++ nodeColor k ++ "];"

theorem nodeLine_eq (k : Node) : nodeLine m k = written (k.numbers m) (nodeText m k) := by
  rw [nodeLine, Node.label_eq]
  exact written_map

/-- The line of an edge if its case can be written. -/
def edgeText (e : Edge) : String :=
  "  " ++ e.source.dotName ++ " -> " ++ e.target.dotName ++
    " [label=\"" ++ (e.kind.label ++ e.caseWords ": ") ++ "\"" ++ edgeColor e.kind ++ "];"

theorem edgeLine_eq (e : Edge) : edgeLine e = written e.numbers (edgeText e) := by
  have hlabel : edgeLabel e = written e.numbers (e.kind.label ++ e.caseWords ": ") := by
    rw [edgeLabel, Edge.caseText_eq]
    exact written_map
  rw [edgeLine, hlabel]
  exact written_map

/-- The integers in the text of a graph. -/
def numbers (g : Cfg) : List Int :=
  g.nodes.flatMap (Node.numbers m) ++ g.edges.flatMap Edge.numbers

/-- The text of a graph if all integers in it can be written. -/
def text (g : Cfg) (title : String) : String :=
  "\n".intercalate
    (["digraph CFG \x7b"] ++ titleLines title ++
      ["  node [shape=box, fontname=monospace, fontsize=10];"] ++
      g.nodes.map (nodeText m) ++ g.edges.map edgeText ++ ["\x7d"])

theorem toDot_eq (g : Cfg) (title : String) :
    g.toDot m title = written (g.numbers m) (g.text m title) := by
  have hnodes := mapM_written g.nodes fun k _ => nodeLine_eq m k
  have hedges := mapM_written g.edges fun e _ => edgeLine_eq e
  rw [toDot, hnodes, hedges]
  exact written_bind written_map

variable {m}

/-- The graph of a method shows the integers of its statements and no others. -/
theorem mem_numbers_graphOf {n : Int} : n ∈ (graphOf m).numbers m ↔ n ∈ m.numbers := by
  rw [numbers, List.mem_append, List.mem_flatMap, List.mem_flatMap]
  constructor
  · rintro (⟨k, _, hn⟩ | ⟨e, he, hn⟩)
    · exact Node.mem_numbers hn
    · exact Edge.mem_numbers he hn
  · exact fun hn => .inl (Method.exists_node_of_mem_numbers hn)

/-- The graph of a method can be written exactly when the integers of the method can. -/
theorem toDot_graphOf_eq_ok {title t : String} : (graphOf m).toDot m title = .ok t ↔
    (∀ n ∈ m.numbers, isWritable n = true) ∧ (graphOf m).text m title = t := by
  rw [toDot_eq, written_eq_ok]
  exact and_congr_left fun _ => forall_congr' fun n => imp_congr_left mem_numbers_graphOf

end Cfg

end MethodFlow
