import Mathlib.Data.List.Nodup
import Mathlib.Data.List.Perm.Basic
import MethodFlow.Proofs.GraphShape
import MethodFlow.Proofs.MachineRun

/-!
The graph of a method and the steps of control. Control flows from one node to another by the text
of the method; the graph has exactly these steps as its neighbours, seen from either end, and shares
out its edges among the nodes without losing or repeating one.
-/

namespace MethodFlow

/-- Control may pass from one node to another in one step. -/
inductive Method.Flows (m : Method) : Node → Node → Prop
  | enter : Flows m .entry (Cfg.place m.size 0)
  | assign {i : Nat} {p : Place} {e : Expr} (h : m.instr? i = some (.assign p e)) :
      Flows m (.stmt i) (Cfg.place m.size (i + 1))
  | call {i : Nat} {p : Option Place} {e : Expr} (h : m.instr? i = some (.call p e)) :
      Flows m (.stmt i) (Cfg.place m.size (i + 1))
  | nop {i : Nat} (h : m.instr? i = some .nop) : Flows m (.stmt i) (Cfg.place m.size (i + 1))
  /-- A branch whose condition does not hold goes on to the next statement. -/
  | skip {i : Nat} {c : Expr} {t : Target} (h : m.instr? i = some (.branch c t)) :
      Flows m (.stmt i) (Cfg.place m.size (i + 1))
  | take {i j : Nat} {c : Expr} (h : m.instr? i = some (.branch c (.stmt j))) :
      Flows m (.stmt i) (.stmt j)
  | goto {i j : Nat} (h : m.instr? i = some (.goto (.stmt j))) : Flows m (.stmt i) (.stmt j)
  /-- A case counts when it has both a value and a target. -/
  | case {i j n : Nat} {v : Var} {ks : List Int} {ts : List Target} {d : Target}
      (h : m.instr? i = some (.switch v ks ts d)) (hn : n < ks.length)
      (ht : ts[n]? = some (.stmt j)) : Flows m (.stmt i) (.stmt j)
  | default {i j : Nat} {v : Var} {ks : List Int} {ts : List Target}
      (h : m.instr? i = some (.switch v ks ts (.stmt j))) : Flows m (.stmt i) (.stmt j)
  | ret {i : Nat} {e : Option Expr} (h : m.instr? i = some (.ret e)) : Flows m (.stmt i) .exit

theorem nodup_eraseDups {α : Type} [BEq α] [LawfulBEq α] (xs : List α) : xs.eraseDups.Nodup := by
  match xs with
  | [] => exact List.nodup_nil
  | x :: xs =>
    rw [List.eraseDups_cons, List.nodup_cons]
    refine ⟨fun hx => ?_, nodup_eraseDups (xs.filter fun y => !y == x)⟩
    simpa using (List.mem_filter.mp (List.mem_eraseDups.mp hx)).2
termination_by xs.length
decreasing_by exact Nat.lt_succ_of_le (List.length_filter_le _ _)

/-- What a list is sorted into by keys makes up the whole list. -/
theorem flatMap_filter_perm {α κ : Type} [DecidableEq κ] (key : α → κ) {ks : List κ}
    (hks : ks.Nodup) {xs : List α} (hxs : ∀ x ∈ xs, key x ∈ ks) :
    (ks.flatMap fun k => xs.filter fun x => key x = k).Perm xs := by
  induction ks generalizing xs with
  | nil =>
    have hnil : xs = [] :=
      List.eq_nil_iff_forall_not_mem.mpr fun x hx => List.not_mem_nil (hxs x hx)
    rw [hnil]
    exact List.Perm.refl _
  | cons k ks ih =>
    obtain ⟨hk, hks⟩ := List.nodup_cons.mp hks
    let rest := xs.filter fun x => !decide (key x = k)
    have hrest : ∀ x ∈ rest, key x ∈ ks := by
      intro x hx
      obtain ⟨hx, hne⟩ := List.mem_filter.mp hx
      exact (List.mem_cons.mp (hxs x hx)).resolve_left (by simpa using hne)
    have htail : (ks.flatMap fun j => xs.filter fun x => key x = j) =
        ks.flatMap fun j => rest.filter fun x => key x = j := by
      apply List.flatMap_congr
      intro j hj
      rw [List.filter_filter]
      apply List.filter_congr
      intro x _
      by_cases hx : key x = j
      · have hne : ¬ j = k := fun h => hk (h ▸ hj)
        simp [hx, hne]
      · simp [hx]
    rw [List.flatMap_cons, htail]
    exact ((ih hks hrest).append_left _).trans (List.filter_append_perm _ xs)

namespace Cfg

/-- The edges of a graph, shared out among its nodes by one of their ends, and everywhere in the
order of the graph. -/
structure Shares (g : Cfg) (side : Edge → Node) (part : Node → List Edge) : Prop where
  mem : ∀ n e, e ∈ part n ↔ e ∈ g.edges ∧ side e = n
  order : ∀ n, (part n).Sublist g.edges
  whole : (g.nodes.flatMap part).Perm g.edges

/-- A graph that is consistent in itself and shows how control flows in a method. -/
structure Depicts (g : Cfg) (m : Method) : Prop where
  mirrored : ∀ s t, t ∈ g.succs s ↔ s ∈ g.preds t
  nodup : ∀ n, (g.succs n).Nodup ∧ (g.preds n).Nodup
  out : g.Shares Edge.source g.outEdges
  into : g.Shares Edge.target g.inEdges
  entry : g.preds .entry = [] ∧ g.succs .entry = [place m.size 0]
  exit : g.succs .exit = []
  stmt : ∀ i < m.size, g.succs (.stmt i) ≠ []
  flows : ∀ s t, m.Flows s t ↔ t ∈ g.succs s
  falls : ∀ i s, m.instr? i = some s →
    ((∃ e ∈ g.outEdges (.stmt i), e.kind = .fallThrough ∨ e.kind = .ifFalse) ↔
      s.canFallThrough = true)

variable {m : Method} {i : Nat} {s : Instr Target} {e : Edge}

theorem nodes_nodup (g : Cfg) : g.nodes.Nodup := by
  have hstmts : ((List.range g.size).map Node.stmt).Nodup :=
    List.nodup_range.map fun _ _ h => Node.stmt.inj h
  simp [nodes, nodesOf, List.nodup_append, hstmts]

/-- Every edge starts at a node of the graph. -/
theorem graphOf_source (he : e ∈ (graphOf m).edges) : (graphOf m).has e.source = true := by
  rcases mem_graphOf.mp he with rfl | ⟨i, s, hs, hx⟩
  · rfl
  · rw [exits_source hx]
    exact has_stmt hs

/-- Control flows along the edges by which it leaves a statement. -/
theorem flows_of_exits (hm : m.Resolved) (hs : m.instr? i = some s) (he : e ∈ exits m.size i s) :
    m.Flows (.stmt i) e.target := by
  have hin := hm i s hs
  cases s with
  | goto t =>
    obtain ⟨j, rfl, _⟩ := hin t (List.mem_singleton_self t)
    rw [List.mem_singleton.mp he]
    exact .goto hs
  | branch c t =>
    obtain ⟨j, rfl, _⟩ := hin t (List.mem_singleton_self t)
    rcases List.mem_cons.mp he with rfl | he
    · exact .take hs
    · rw [List.mem_singleton.mp he]
      exact .skip hs
  | switch v ks ts d =>
    rcases List.mem_append.mp he with he | he
    · obtain ⟨c, hc, rfl⟩ := List.mem_map.mp he
      obtain ⟨j, hj, _⟩ := hin c.2 (List.mem_append_left _ (List.mem_map_of_mem hc))
      obtain ⟨n, hn⟩ := List.mem_iff_getElem?.mp hc
      obtain ⟨hk, ht⟩ := List.getElem?_zip_eq_some.mp hn
      rw [show c.2.goal = .stmt j by rw [hj]; rfl]
      exact .case hs (List.getElem?_eq_some_iff.mp hk).1 (hj ▸ ht)
    · obtain ⟨j, rfl, _⟩ := hin d (List.mem_append_right _ (List.mem_singleton_self d))
      rw [List.mem_singleton.mp he]
      exact .default hs
  | ret e =>
    rw [List.mem_singleton.mp he]
    exact .ret hs
  | assign p e =>
    rw [List.mem_singleton.mp he]
    exact .assign hs
  | call p e =>
    rw [List.mem_singleton.mp he]
    exact .call hs
  | nop =>
    rw [List.mem_singleton.mp he]
    exact .nop hs

end Cfg

/-- Every step of control has an edge. -/
theorem Method.Flows.exists_edge {m : Method} {s t : Node} (h : m.Flows s t) :
    ∃ e ∈ (Cfg.graphOf m).edges, e.source = s ∧ e.target = t := by
  have hout : ∀ {i x} {e : Edge}, m.instr? i = some x → e ∈ Cfg.exits m.size i x →
      ∃ e' ∈ (Cfg.graphOf m).edges, e'.source = .stmt i ∧ e'.target = e.target := by
    intro i x e hx he
    exact ⟨e, Cfg.mem_graphOf.mpr (Or.inr ⟨i, x, hx, he⟩), Cfg.exits_source he, rfl⟩
  cases h with
  | enter => exact ⟨_, Cfg.mem_graphOf.mpr (Or.inl rfl), rfl, Cfg.entryEdge_target m.size⟩
  | assign h => exact hout h (List.mem_singleton_self _)
  | call h => exact hout h (List.mem_singleton_self _)
  | nop h => exact hout h (List.mem_singleton_self _)
  | skip h => exact hout h (List.mem_cons_of_mem _ (List.mem_singleton_self _))
  | take h => exact hout h List.mem_cons_self
  | goto h => exact hout h (List.mem_singleton_self _)
  | @case i j n v ks ts d h hn ht =>
    have hz : (ks.zip ts)[n]? = some (ks[n], .stmt j) :=
      List.getElem?_zip_eq_some.mpr ⟨List.getElem?_eq_getElem hn, ht⟩
    exact hout h (List.mem_append_left _ (List.mem_map_of_mem (List.mem_of_getElem? hz)))
  | default h => exact hout h (List.mem_append_right _ (List.mem_singleton_self _))
  | ret h => exact hout h (List.mem_singleton_self _)

namespace Cfg

variable {m : Method}

/-- The successors of a node are where control may pass from it. -/
theorem flows_iff (hm : m.Resolved) {s t : Node} : m.Flows s t ↔ t ∈ (graphOf m).succs s := by
  rw [mem_succs]
  constructor
  · intro h
    obtain ⟨e, he, rfl, rfl⟩ := h.exists_edge
    exact ⟨graphOf_source he, e, he, rfl, rfl⟩
  · rintro ⟨-, e, he, rfl, rfl⟩
    rcases mem_graphOf.mp he with rfl | ⟨i, s, hs, hx⟩
    · rw [entryEdge_target]
      exact .enter
    · rw [exits_source hx]
      exact flows_of_exits hm hs hx

theorem mem_preds_iff (hm : m.Resolved) {s t : Node} :
    s ∈ (graphOf m).preds t ↔ t ∈ (graphOf m).succs s := by
  rw [mem_preds]
  exact and_iff_right_of_imp (graphOf_closed hm).target

/-- A list of edges is shared out by one of their ends when that is a node for each of them. -/
theorem shares_filter {g : Cfg} {side : Edge → Node} {part : Node → List Edge}
    (hside : ∀ e ∈ g.edges, g.has (side e) = true)
    (hpart : ∀ n, part n = g.edges.filter fun e => side e = n) : g.Shares side part where
  mem n e := by rw [hpart, List.mem_filter, decide_eq_true_eq]
  order n := hpart n ▸ List.filter_sublist
  whole := by
    rw [funext hpart]
    exact flatMap_filter_perm side (nodes_nodup g) fun e he => mem_nodes.mpr (hside e he)

/-- Outside the graph no edge starts. -/
theorem outEdges_graphOf (m : Method) (n : Node) :
    (graphOf m).outEdges n = (graphOf m).edges.filter fun e => e.source = n := by
  by_cases hn : (graphOf m).has n = true
  · exact outEdges_eq hn
  · rw [outEdges_eq_nil hn, eq_comm, List.filter_eq_nil_iff]
    rintro e he hs
    exact hn (decide_eq_true_eq.mp hs ▸ graphOf_source he)

theorem graphOf_target (hm : m.Resolved) {e : Edge} (he : e ∈ (graphOf m).edges) :
    (graphOf m).has e.target = true :=
  (graphOf_closed hm).target (mem_succs.mpr ⟨graphOf_source he, e, he, rfl, rfl⟩)

/-- Outside the graph no edge arrives, and each that arrives starts inside. -/
theorem inEdges_graphOf (hm : m.Resolved) (n : Node) :
    (graphOf m).inEdges n = (graphOf m).edges.filter fun e => e.target = n := by
  by_cases hn : (graphOf m).has n = true
  · rw [inEdges_eq hn]
    exact List.filter_congr fun e he => by simp [graphOf_source he]
  · rw [inEdges_eq_nil hn, eq_comm, List.filter_eq_nil_iff]
    rintro e he ht
    exact hn (decide_eq_true_eq.mp ht ▸ graphOf_target hm he)

theorem shares_out (m : Method) : (graphOf m).Shares Edge.source (graphOf m).outEdges :=
  shares_filter (fun _ => graphOf_source) (outEdges_graphOf m)

theorem shares_in (hm : m.Resolved) : (graphOf m).Shares Edge.target (graphOf m).inEdges :=
  shares_filter (fun _ => graphOf_target hm) (inEdges_graphOf hm)

theorem outEdges_entry (m : Method) : (graphOf m).outEdges .entry = [entryEdge m.size] := by
  rw [outEdges_graphOf, edges_graphOf]
  refine (List.filter_cons_of_pos (by simp [entryEdge])).trans (congrArg _ ?_)
  rw [List.filter_eq_nil_iff]
  intro e he
  obtain ⟨es, hes, he⟩ := List.mem_flatten.mp he
  obtain ⟨x, _, rfl⟩ := List.mem_map.mp hes
  simp [exits_source he]

theorem succs_entry (m : Method) : (graphOf m).succs .entry = [place m.size 0] := by
  rw [succs, outEdges_entry, List.map_singleton, entryEdge_target]
  rfl

theorem exits_ne_nil (size i : Nat) (s : Instr Target) : exits size i s ≠ [] := by
  cases s with
  | switch v ks ts d => exact List.append_ne_nil_of_right_ne_nil _ (List.cons_ne_nil _ _)
  | _ => exact List.cons_ne_nil _ _

/-- A statement has an edge to the next one exactly when control can pass to the next one. -/
theorem exists_fall_iff (size i : Nat) (s : Instr Target) :
    (∃ e ∈ exits size i s, e.kind = .fallThrough ∨ e.kind = .ifFalse) ↔
      s.canFallThrough = true := by
  cases s with
  | switch v ks ts d =>
    refine iff_of_false ?_ Bool.false_ne_true
    rintro ⟨e, he, hk⟩
    rcases List.mem_append.mp he with he | he
    · obtain ⟨c, _, rfl⟩ := List.mem_map.mp he
      simp at hk
    · rw [List.mem_singleton.mp he] at hk
      simp at hk
  | _ => simp [exits, Instr.canFallThrough]

/-- A method whose jumps are resolved has a graph, and that depicts how control flows in it. -/
theorem build_depicts {m : Method} (hm : m.Resolved) : ∃ g, build m = .ok g ∧ g.Depicts m := by
  have hclosed := graphOf_closed hm
  refine ⟨graphOf m, build_eq_ok.mpr ⟨hm, rfl⟩, ?_⟩
  constructor
  case mirrored => exact fun s t => (mem_preds_iff hm).symm
  case nodup => exact fun n => ⟨nodup_eraseDups _, nodup_eraseDups _⟩
  case out => exact shares_out m
  case into => exact shares_in hm
  case entry =>
    refine ⟨List.eq_nil_iff_forall_not_mem.mpr fun s hs => ?_, succs_entry m⟩
    exact hclosed.entry ((mem_preds_iff hm).mp hs)
  case exit => exact List.eq_nil_iff_forall_not_mem.mpr (succs_exit m)
  case stmt =>
    intro i hi
    have hs : m.instr? i = some m.body[i].instr := by
      rw [Method.instr?, List.getElem?_eq_getElem hi, Option.map_some]
    obtain ⟨e, he⟩ := List.exists_mem_of_ne_nil _ (exits_ne_nil m.size i m.body[i].instr)
    exact List.ne_nil_of_mem ((mem_succs_stmt hs).mpr ⟨e, he, rfl⟩)
  case flows => exact fun s t => flows_iff hm
  case falls =>
    intro i s hs
    rw [outEdges_stmt hs]
    exact exists_fall_iff m.size i s

/-- A branch to the next statement, a switch that leads to one statement twice and else to itself
and has a value without a target, and a last statement from which control passes to the exit. -/
def tangled : Method :=
  let x : Var := ⟨"x", .prim .int⟩
  .make "tangled" [x] .void []
    [⟨.branch (.bin .eq (.var x) (.int 0)) (.stmt 1), 1⟩,
      ⟨.switch x [1, 2, 3] [.stmt 0, .stmt 0] (.stmt 1), 2⟩, ⟨.nop, 3⟩]

theorem build_depicts_tangled : tangled.Resolved ∧ ∃ g, build tangled = .ok g ∧ g.Depicts tangled ∧
    g.succs (.stmt 0) = [.stmt 1] ∧ g.succs (.stmt 1) = [.stmt 0, .stmt 1] ∧
    g.succs (.stmt 2) = [.exit] ∧ g.preds (.stmt 1) = [.stmt 0, .stmt 1] := by
  have hm : tangled.Resolved := by decide
  obtain ⟨g, hg, h⟩ := build_depicts hm
  obtain ⟨_, rfl⟩ := build_eq_ok.mp hg
  exact ⟨hm, _, hg, h, by decide⟩

end Cfg

end MethodFlow
