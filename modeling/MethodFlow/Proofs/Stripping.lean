import Mathlib
import MethodFlow.Proofs.ParsedCode
import MethodFlow.Proofs.StoredResults

/-!
Taking dead statements out of a method. The run of what is left follows the run of the method step
by step: dead statements are not come to, or write variables that are dead, and the memories agree
on all variables that are live.
-/

namespace MethodFlow

namespace Method

/-- The method with `nop` in place of some statements; all others keep their positions. -/
def strip (m : Method) (dead : List Nat) : Method :=
  dead.foldl (fun m i => m.setInstr i .nop) m

variable {m : Method} {dead : List Nat} {i j : Nat} {s : Instr Target}

theorem instr?_setInstr :
    (m.setInstr i s).instr? j = if i = j then (m.instr? j).map fun _ => s else m.instr? j := by
  simp only [instr?, setInstr, List.getElem?_modify]
  split
  · cases m.body[j]? <;> rfl
  · cases m.body[j]? <;> rfl

theorem instr?_strip :
    (m.strip dead).instr? j = if j ∈ dead then (m.instr? j).map fun _ => .nop else m.instr? j := by
  induction dead generalizing m with
  | nil => simp [strip]
  | cons i dead ih =>
    have hs : m.strip (i :: dead) = (m.setInstr i .nop).strip dead := rfl
    rw [hs, ih, instr?_setInstr]
    by_cases hi : i = j
    · subst hi
      cases m.instr? i <;> simp
    · have hi' : ¬ j = i := fun h => hi h.symm
      simp [hi, hi']

theorem params_strip : (m.strip dead).params = m.params := by
  induction dead generalizing m with
  | nil => rfl
  | cons i dead ih => exact ih

end Method

namespace DeadCode

variable {ω : Type} {w : World ω} {m : Method} {c c' : Machine ω} {r : Search} {dead : List Nat}

/-- Where a run stands is a point of a concrete run, and has been visited by the search. -/
def Follows (m : Method) (r : Search) (c : Machine ω) : Prop :=
  ∀ i, c.control = .running i →
    Reaches m (Cfg.graphOf m) (Cfg.place m.size i) c.memory ∧ Cfg.place m.size i ∈ r.visited

theorem follows_start (x : Analysed m) (hr : search x.evidence = .ok r) (args : Var → Datum ω) :
    Follows m r (Machine.start m args) := by
  intro i hi
  cases hi
  obtain ⟨he, hclosed⟩ := search_closed hr
  obtain ⟨ns, hns, hsub⟩ := hclosed .entry he
  have hsucc := Cfg.mem_succs_entry m
  refine ⟨.step (.start fun v => ?_) (.keep rfl (by simp [Node.instr, Instr.uses])) hsucc,
    hsub _ ?_⟩
  · simp only [Machine.start]
    split
    · rename_i hv
      simp [hv]
    · rename_i hv
      simp [hv]
  · cases hns
    exact hsucc

theorem follows_step (x : Analysed m) (hr : search x.evidence = .ok r) (h : Follows m r c) :
    Follows m r (c.step w m) := by
  cases hc : c.control with
  | ended e =>
    rw [Machine.step_of_ended hc]
    exact h
  | running i =>
    cases hs : m.instr? i with
    | none =>
      rw [Machine.step_of_end hc hs]
      intro j hj
      cases hj
    | some s =>
      obtain ⟨hreach, hmem⟩ := h i hc
      rw [Cfg.place_of_instr? hs] at hreach hmem
      obtain ⟨ns, hns, hsub⟩ := (search_closed hr).2 _ hmem
      rw [Machine.step_of_instr hc hs]
      cases hx : execute w c.memory i s c.events with
      | mk res es =>
        intro j hj
        cases res with
        | error stop => cases hj
        | ok res =>
          obtain ⟨k, change⟩ := res
          obtain rfl : k = .running j := hj
          have hexec := (execute_executes hx).1
          refine ⟨?_, hsub _ (execute_feasible x hreach hs hx hns)⟩
          exact hreach.step (by rwa [Node.instr_stmt hs])
            ((Cfg.mem_succs_stmt hs).mpr (execute_exits (x.resolved i s hs) hx))

/-- The run of a method and that of what is left of it stand at the same place, have done the same,
and agree on the variables that are live there. -/
structure Matches (x : Analysed m) (c c' : Machine ω) : Prop where
  control : c'.control = c.control
  events : c'.events = c.events
  trail : c'.trail = c.trail
  memory : ∀ i, c.control = .running i → ∀ v ∈ x.live.look ∅ .input (Cfg.place m.size i),
    c'.memory v = c.memory v

theorem matches_start (x : Analysed m) (dead : List Nat) (args : Var → Datum ω) :
    Matches x (Machine.start m args) (Machine.start (m.strip dead) args) := by
  have hs : Machine.start (m.strip dead) args = Machine.start m args := by
    simp only [Machine.start, Method.params_strip]
  exact hs ▸ ⟨rfl, rfl, rfl, fun _ _ _ _ => rfl⟩

/-- What is live where a statement goes on is live behind it. -/
theorem live_output (x : Analysed m) {i j : Nat} {s : Instr Target} (hs : m.instr? i = some s)
    (hj : ∃ e ∈ Cfg.exits m.size i s, e.target = Cfg.place m.size j) {v : Var}
    (hv : v ∈ x.live.look ∅ .input (Cfg.place m.size j)) :
    v ∈ x.live.look ∅ .output (.stmt i) :=
  x.live_solved.output (Cfg.has_stmt hs) (by simp) ((Cfg.mem_succs_stmt hs).mpr hj) hv

theorem live_input (x : Analysed m) {i : Nat} {s : Instr Target} (hs : m.instr? i = some s)
    {v : Var} : v ∈ x.live.look ∅ .input (.stmt i) ↔
      v ∈ s.usedVars ∨ v ∈ x.live.look ∅ .output (.stmt i) ∧ s.def? ≠ some v :=
  x.live_solved.input_stmt hs

/-- A statement that is kept does the same to both runs. -/
theorem matches_kept (x : Analysed m) {i : Nat} {s : Instr Target} (hplain : s.IsPlain)
    (hc : c.control = .running i) (hs : m.instr? i = some s) (h : Matches x c c') :
    Matches x (c.after i (execute w c.memory i s c.events))
      (c'.after i (execute w c'.memory i s c'.events)) := by
  have hagree := h.memory i hc
  rw [Cfg.place_of_instr? hs] at hagree
  have hused : ∀ v ∈ s.usedVars, c'.memory v = c.memory v :=
    fun v hv => hagree v ((live_input x hs).mpr (Or.inl hv))
  rw [h.events, execute_congr_of_isPlain hplain hused i]
  cases hx : execute w c.memory i s c.events with
  | mk res es =>
    cases res with
    | error stop => exact ⟨rfl, rfl, congrArg (i :: ·) h.trail, fun j hj => by cases hj⟩
    | ok res =>
      obtain ⟨k, change⟩ := res
      refine ⟨rfl, rfl, congrArg (i :: ·) h.trail, fun j hj v hv => ?_⟩
      obtain rfl : k = .running j := hj
      have hdef := (execute_executes hx).2
      have hout := live_output x hs (execute_exits (x.resolved i s hs) hx) hv
      refine Memory.change_congr fun hne => hagree v ?_
      rw [hdef] at hne
      exact (live_input x hs).mpr (Or.inr ⟨hout, hne⟩)

/-- A useless statement does nothing that its `nop` does not do, as far as anyone can see. -/
theorem matches_useless (x : Analysed m) {i : Nat} {s : Instr Target} (hplain : s.IsPlain)
    (hc : c.control = .running i) (hs : m.instr? i = some s)
    (huse : isUseless x.evidence (.stmt i) = .ok true) (h : Matches x c c')
    (hrun : (c.after i (execute w c.memory i s c.events)).control ≠
      .ended (.stopped .unassigned)) :
    Matches x (c.after i (execute w c.memory i s c.events))
      (c'.after i (execute w c'.memory i .nop c'.events)) := by
  obtain ⟨v, e, live, hi, hlive, hv, hpure⟩ := isUseless_eq_true huse
  have hinstr : s = .assign (.var v) e := (Node.instr_stmt hs).symm.trans hi
  subst hinstr
  have hagree := h.memory i hc
  rw [Cfg.place_of_instr? hs] at hagree
  have hquiet : Quiet (execute w c.memory i (.assign (.var v) e)) := by
    have hvalue : Quiet (eval w c.memory e) := eval_quiet_of_isFlat hplain.2.1 hpure hplain.2.2
    exact (hvalue.bind fun _ => quiet_pure _).bind fun _ => quiet_pure _
  -- a value without effects can be stuck at an unassigned variable, but the run is not
  rcases hquiet c.events with hx | ⟨⟨k, change⟩, hx⟩
  · rw [hx] at hrun
    exact absurd rfl hrun
  · obtain ⟨rfl, hwrite⟩ := execute_place rfl rfl hx
    obtain ⟨d, _, rfl⟩ := write_var hwrite
    rw [hx]
    refine ⟨rfl, h.events, congrArg (i :: ·) h.trail, fun j hj u hu => ?_⟩
    obtain rfl : i + 1 = j := Control.running.inj hj
    have hout := live_output x hs (execute_exits (x.resolved i _ hs) hx) hu
    have hlook : live = x.live.look ∅ .output (.stmt i) :=
      Except.ok.inj (hlive.symm.trans (x.live_solved.covers.fact (Cfg.has_stmt hs) ∅ .output))
    have huv : u ≠ v := fun he => hv (hlook ▸ he ▸ hout)
    have hin : u ∈ x.live.look ∅ .input (.stmt i) :=
      (live_input x hs).mpr (Or.inr ⟨hout, fun he => huv (Option.some.inj he).symm⟩)
    exact (hagree u hin).trans (Memory.set_of_ne huv _ _).symm

/-- A step that does not read an unassigned variable keeps the runs together. -/
theorem matches_step (x : Analysed m) (hplain : ∀ y ∈ m.body, y.instr.IsPlain)
    (hd : detect x.evidence = .ok dead) (hr : search x.evidence = .ok r) (hf : Follows m r c)
    (h : Matches x c c') (hrun : (c.step w m).control ≠ .ended (.stopped .unassigned)) :
    Matches x (c.step w m) (c'.step w (m.strip dead)) := by
  obtain ⟨r', hr', hdead⟩ := mem_of_detect hd
  cases hr.symm.trans hr'
  cases hc : c.control with
  | ended e =>
    rw [Machine.step_of_ended hc, Machine.step_of_ended (h.control.trans hc)]
    exact h
  | running i =>
    have hc' := h.control.trans hc
    cases hs : m.instr? i with
    | none =>
      have hs' : (m.strip dead).instr? i = none := by simp [Method.instr?_strip, hs]
      rw [Machine.step_of_end hc hs, Machine.step_of_end hc' hs']
      exact ⟨rfl, h.events, h.trail, fun j hj => by cases hj⟩
    | some s =>
      obtain ⟨y, hy, rfl⟩ := Option.map_eq_some_iff.mp hs
      have hps := hplain y (List.mem_of_getElem? hy)
      rw [Machine.step_of_instr hc hs] at hrun ⊢
      -- the search has visited what the run comes to, so what is dead there is useless
      by_cases hi : i ∈ dead
      · have hs' : (m.strip dead).instr? i = some .nop := by simp [Method.instr?_strip, hs, hi]
        have hmem := (hf i hc).2
        rw [Cfg.place_of_instr? hs] at hmem
        rw [Machine.step_of_instr hc' hs']
        exact matches_useless x hps hc hs (((hdead i).mp hi).2 hmem) h hrun
      · have hs' : (m.strip dead).instr? i = some y.instr := by
          simp [Method.instr?_strip, hs, hi]
        rw [Machine.step_of_instr hc' hs']
        exact matches_kept x hps hc hs h

theorem follows_run (x : Analysed m) (hr : search x.evidence = .ok r) (args : Var → Datum ω)
    (k : Nat) : Follows m r (Machine.run w m args k) := by
  induction k with
  | zero => exact follows_start x hr args
  | succ k ih =>
    rw [Machine.run_succ]
    exact follows_step x hr ih

/-- As long as the run of a method reads no unassigned variable, the run of what is left of the
method follows it. -/
theorem matches_run (x : Analysed m) (hplain : ∀ y ∈ m.body, y.instr.IsPlain)
    (hd : detect x.evidence = .ok dead) (args : Var → Datum ω) {k : Nat}
    (hrun : (Machine.run w m args k).control ≠ .ended (.stopped .unassigned)) :
    Matches x (Machine.run w m args k) (Machine.run w (m.strip dead) args k) := by
  obtain ⟨r, hr, _⟩ := mem_of_detect hd
  induction k with
  | zero => exact matches_start x dead args
  | succ k ih =>
    rw [Machine.run_succ] at hrun
    rw [Machine.run_succ, Machine.run_succ]
    refine matches_step x hplain hd hr (follows_run x hr args k) (ih fun hk => hrun ?_) hrun
    rw [Machine.step_of_ended hk]
    exact hk

/-- Taking out what was found to be dead goes unnoticed: whatever the world answers, a run that
reads no unassigned variable visits the same statements, does the same, and ends the same way. -/
theorem strip_preserves_run {α ω : Type} {text : String} {ms : List Method}
    (htext : Source.parse text = .ok ms) {m : Method} (hm : m ∈ ms) {configs : List Config}
    {p : Plan α} (hp : Plan.build .builtin configs = .ok p) {fuel : Nat} {id : String}
    {dead : List Nat} (hdead : (p.run fuel m ∅).store.find? id = some (.dead dead)) (w : World ω)
    (args : Var → Datum ω) {k : Nat}
    (hrun : (Machine.run w m args k).control ≠ .ended (.stopped .unassigned)) :
    (Machine.run w (m.strip dead) args k).seen = (Machine.run w m args k).seen := by
  obtain ⟨x, hd⟩ := Plan.dead_of_run hp hdead
  have h := matches_run x (Source.isPlain_of_parse htext hm) hd args hrun
  exact Prod.ext h.control (Prod.ext h.events h.trail)

/-- A world in which nothing but words can be told apart. -/
def blankWorld : World Unit where
  text _ := .other ()
  null := .other ()
  negate := .other
  operate _ _ _ := some (.other ())
  operate_isSome _ _ _ _ := rfl
  respond _ := some (.other ())

/-- Two writes that nobody reads, one of them behind a branch that is always taken. -/
def pickText : String :=
  "method int pick(int p) \x7b int a, b; a = 1; b = p; if (a == 1) goto l; a = p; l: return a; \x7d"

def pick : Method :=
  let p : Var := ⟨"p", .prim .int⟩
  let a : Var := ⟨"a", .prim .int⟩
  let b : Var := ⟨"b", .prim .int⟩
  .make "pick" [p] (.prim .int) [a, b]
    [⟨.assign (.var a) (.int 1), 1⟩, ⟨.assign (.var b) (.var p), 1⟩,
      ⟨.branch (.bin .eq (.var a) (.int 1)) (.stmt 4), 1⟩, ⟨.assign (.var a) (.var p), 1⟩,
      ⟨.ret (some (.var a)), 1⟩]

def pickPlan : Plan Unit :=
  ⟨["deadcode"],
    [⟨.plain "cfg", .cfg⟩, ⟨.plain "constprop", .constprop .fifo⟩, ⟨.plain "livevar", .livevar⟩,
      ⟨.plain "deadcode", .deadcode⟩]⟩

set_option maxRecDepth 20000 in
/-- Without its dead statements, `pick` still returns 1. -/
theorem strip_preserves_run_pick :
    (Machine.run blankWorld (pick.strip [1, 3]) (fun _ => .word 7) 5).seen =
      (.ended (.returned (some (.word 1))), [], [4, 2, 1, 0]) := by
  have htext : Source.parse pickText = .ok [pick] := by
    simp only [Source.parse, pickText, String.reduceToList]
    rfl
  have hplan : Plan.build .builtin [.plain "deadcode"] = .ok pickPlan := by cbv
  have hdead : (pickPlan.run 20 pick ∅).store.find? "deadcode" = some (.dead [1, 3]) := rfl
  have hrun : (Machine.run blankWorld pick (fun _ => .word 7) 5).seen =
      (.ended (.returned (some (.word 1))), [], [4, 2, 1, 0]) := rfl
  refine Eq.trans (strip_preserves_run htext (List.mem_singleton_self _) hplan hdead blankWorld _
    ?_) hrun
  intro h
  cases (congrArg Prod.fst hrun).symm.trans h

end DeadCode

end MethodFlow
