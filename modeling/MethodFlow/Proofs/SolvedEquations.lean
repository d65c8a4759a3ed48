import MethodFlow.Proofs.ConstantRun

/-!
What constant propagation leaves when it comes to an end: what stands in front of a node is what its
predecessors pass on, merged, and what stands behind it is what it makes of that. Around the entry
nothing is known but that the parameters may hold anything.
-/

namespace MethodFlow

/-- The facts that stand on a side of some nodes. -/
theorem FactTable.Covers.mapM_fact {F : Type} {g : Cfg} {t : FactTable F} (h : t.Covers g) (d : F)
    (s : Side) {ns : List Node} (hns : ∀ n ∈ ns, g.has n = true) :
    ns.mapM (t.fact s) = .ok (ns.map (t.look d s)) := by
  induction ns with
  | nil => rfl
  | cons n ns ih =>
    have hn := h.fact (hns n List.mem_cons_self) d s
    have hrest := ih fun k hk => hns k (List.mem_cons_of_mem n hk)
    simp [List.mapM_cons, hn, hrest]

namespace ConstProp

open Problem

/-- The facts around a node are what its predecessors pass on and what it makes of that. -/
def Solved (m : Method) (g : Cfg) (t : FactTable ConstMap) (n : Node) : Prop :=
  ∃ passed input output, (g.preds n).mapM (t.fact .output) = .ok passed ∧
    t.fact .input n = .ok input ∧ t.fact .output n = .ok output ∧
    input.same (passed.foldl (fun acc f => f.merge acc) ∅) = true ∧
    output.same (transfer (n.instr m) input) = true

/-- A fact that lists the parameters of a method and nothing else, each as one that may vary. -/
def ParamsVary (m : Method) (f : ConstMap) : Prop :=
  ∀ v, f.find? v = if v ∈ m.params then some .nac else none

theorem paramsVary_boundary (m : Method) : ParamsVary m (boundary m) := by
  intro v
  rw [ConstMap.find?_eq, get_boundary]
  by_cases hv : v ∈ m.params
  · simp [hv]
  · simp [hv]

theorem solved_of_settled {m : Method} {g : Cfg} {t : FactTable ConstMap} {n : Node}
    (ht : t.Covers g) (hn : g.has n = true) (h : Settled (problem m) g ConstMap.get t t n) :
    Solved m g t n := by
  have hpreds : ∀ k ∈ g.preds n, g.has k = true := fun k hk => Cfg.has_of_mem_preds hk
  refine ⟨_, _, _, ht.mapM_fact ∅ .output hpreds, ht.fact hn ∅ .input, ht.fact hn ∅ .output,
    ?_, ?_⟩
  · apply ConstMap.same_iff.mpr
    intro v
    exact congrFun h.input v
  · apply ConstMap.same_iff.mpr
    intro v
    exact congrFun h.output v

/-- Whatever constant propagation returns solves the equations of every node behind the entry, and
keeps what is known at the entry. -/
theorem solveForward_solved {m : Method} (hm : m.Resolved) : ∃ g, Cfg.build m = .ok g ∧
    ∀ {order : Order} {fuel : Nat} {sol : Solution ConstMap},
      (problem m).solveForward g order fuel = .ok sol →
      (∀ n ∈ g.nodes, n ≠ .entry → Solved m g sol.table n) ∧
      ∀ side, ∃ f, sol.table.fact side .entry = .ok f ∧ ParamsVary m f := by
  refine ⟨Cfg.graphOf m, Cfg.build_eq_ok.mpr ⟨hm, rfl⟩, ?_⟩
  intro order fuel sol hsol
  have hs := solves_of_solveForward (joining m) (Cfg.graphOf_closed hm) hsol
  constructor
  · intro n hn he
    have hhas := Cfg.mem_nodes.mp hn
    exact solved_of_settled hs.covers hhas (hs.settled n hhas he)
  · intro side
    refine ⟨boundary m, ?_, paramsVary_boundary m⟩
    have hf := hs.covers.fact (n := .entry) rfl (problem m).initial side
    exact hf.trans (congrArg Except.ok (hs.entry side))

/-- A count that goes on for ever, with a branch to itself in the middle of it. -/
def counting : Method :=
  let p : Var := ⟨"p", .prim .int⟩
  let a : Var := ⟨"a", .prim .int⟩
  .make "counting" [p] .void [a]
    [⟨.assign (.var a) (.int 0), 1⟩, ⟨.branch (.bin .lt (.var p) (.int 3)) (.stmt 1), 2⟩,
      ⟨.assign (.var a) (.bin .add (.var a) (.int 1)), 3⟩, ⟨.goto (.stmt 1), 4⟩]

/-- A loop within a loop, solved in the order in which the last node comes first. -/
theorem solveForward_solved_counting : ∃ g sol, Cfg.build counting = .ok g ∧
    (problem counting).solveForward g .lifo 30 = .ok sol ∧
    (∀ n ∈ g.nodes, n ≠ .entry → Solved counting g sol.table n) ∧
    ∀ side, ∃ f, sol.table.fact side .entry = .ok f ∧ ParamsVary counting f := by
  have hm : counting.Resolved := by decide
  obtain ⟨g, hg, h⟩ := solveForward_solved hm
  obtain ⟨_, rfl⟩ := Cfg.build_eq_ok.mp hg
  have hdone : ((problem counting).stateAt (Cfg.graphOf counting) .lifo 30).pending = [] := by
    decide
  have hsol := ((problem counting).solveForward_eq_ok (Cfg.graphOf_closed hm)).mpr ⟨hdone, rfl⟩
  exact ⟨_, _, hg, hsol, h hsol⟩

end ConstProp

end MethodFlow
