import MethodFlow.Proofs.FeasiblePaths
import MethodFlow.Proofs.SafePipeline

/-!
A switch beside the comparisons of its selector with the values of its cases. A comparison reads
the number written in it as a word, while a case is taken only by the very number that it carries;
so the two agree as long as the values of the cases are numbers that words can hold.
-/

namespace MethodFlow

namespace Instr

/-- The cases of a switch on `v` with whose values a comparison is known to find `v` equal. -/
def equalCases (f : ConstMap) (v : Var) (cases : List (Int × Target)) : List (Int × Target) :=
  cases.filter fun c => ConstProp.evaluate f (.bin .eq (.var v) (.int c.1)) = .const 1

end Instr

/-- A text in two parts is read as the characters of both. -/
theorem Source.parse_append (a b : String) :
    parse (a ++ b) = (readText (a.toList ++ b.toList)).check := by
  rw [parse_eq_check, String.toList_append]

namespace DeadCode

open ConstProp Instr

section Comparisons

variable {f : ConstMap} {v : Var} {k : Int}

theorem apply_eq_const_one_iff {a b : Int} : Word32.apply .eq a b = .const 1 ↔ a = b := by
  have happly : Word32.apply .eq a b = .const (Word32.wrap (Word32.truth (a = b))) :=
    Word32.apply_operator (f := fun a b => Word32.truth (a = b)) rfl
      fun hdivides => Bool.false_ne_true hdivides.2
  rw [happly]
  by_cases h : a = b
  · rw [decide_eq_true h]
    exact iff_of_true rfl h
  · rw [decide_eq_false h]
    exact iff_of_false (by decide) h

/-- A comparison with a number finds a known variable equal to the word that the number denotes. -/
theorem evaluate_equal_iff {n : Int} (hk : evaluate f (.var v) = .const k) :
    evaluate f (.bin .eq (.var v) (.int n)) = .const 1 ↔ k = Word32.wrap n := by
  rw [evaluate, hk, evaluate]
  exact apply_eq_const_one_iff

theorem mem_equalCases (hk : evaluate f (.var v) = .const k) {cases : List (Int × Target)}
    {c : Int × Target} : c ∈ equalCases f v cases ↔ c ∈ cases ∧ k = Word32.wrap c.1 := by
  rw [equalCases, List.mem_filter, decide_eq_true_eq, evaluate_equal_iff hk]

/-- The cases with the value of the selector are those that comparisons find equal exactly when
every value that denotes the word of the selector is its number. -/
theorem casesOf_eq_equalCases_iff (hk : evaluate f (.var v) = .const k)
    {cases : List (Int × Target)} : casesOf k cases = equalCases f v cases ↔
      ∀ c ∈ cases, c.1 = k ↔ k = Word32.wrap c.1 := by
  constructor
  · intro h c hc
    have hmem : c ∈ casesOf k cases ↔ c ∈ equalCases f v cases := by rw [h]
    rwa [mem_casesOf, mem_equalCases hk, and_iff_right hc, and_iff_right hc] at hmem
  · intro h
    apply List.filter_congr
    intro c hc
    rw [decide_eq_decide, evaluate_equal_iff hk]
    exact h c hc

end Comparisons

section Targets

variable {w : Evidence} {i : Nat} {v : Var}
variable {ks : List Int} {ts : List Target} {d : Target} {k : Int}

/-- A switch on a known value goes to the cases with that value. -/
theorem feasible_switch {f : ConstMap} (hm : w.method.Resolved)
    (hg : w.graph = Cfg.graphOf w.method) (hi : w.method.instr? i = some (.switch v ks ts d))
    (hf : w.known (.stmt i) = .ok f) (hk : evaluate f (.var v) = .const k) :
    feasible w (.stmt i) = .ok (goals d (casesOf k (ks.zip ts))) := by
  have hcheck : Problem.checkNode w.graph (.stmt i) = .ok () := by
    rw [hg]
    exact if_pos (Cfg.has_stmt hi)
  unfold feasible
  rw [hcheck, Attempt.ok_bind, Node.instr_stmt hi]
  dsimp only
  rw [hf, Attempt.ok_bind, hk]
  exact switchTargets_eq hm hg hi

end Targets

/-- In what is read from a text, a switch on a known value goes to the cases with that value. These
are the cases that comparisons of the selector with their values find equal exactly when every value
that denotes the word of the selector is its number, as it is when words can hold all values. -/
theorem switch_agrees_iff {text : String} {ms : List Method} (h : Source.parse text = .ok ms)
    {m : Method} (hm : m ∈ ms) {i : Nat} {v : Var} {ks : List Int} {ts : List Target} {d : Target}
    (hi : m.instr? i = some (.switch v ks ts d)) : ∃ g, Cfg.build m = .ok g ∧
      ∀ known live f k, known (.stmt i) = .ok f → evaluate f (.var v) = .const k →
        let goes := feasible ⟨m, g, known, live⟩ (.stmt i)
        let cases := ks.zip ts
        goes = .ok (goals d (casesOf k cases)) ∧
          (casesOf k cases = equalCases f v cases ↔
            ∀ c ∈ cases, c.1 = k ↔ k = Word32.wrap c.1) ∧
          ((∀ c ∈ cases, Word32.Fits c.1) → goes = .ok (goals d (equalCases f v cases))) := by
  have hresolved := (isClosed_of_parse h hm).resolved
  refine ⟨Cfg.graphOf m, Cfg.build_eq_ok.mpr ⟨hresolved, rfl⟩, ?_⟩
  intro known live f k hf hk
  have hgoes := feasible_switch (w := ⟨m, Cfg.graphOf m, known, live⟩) hresolved rfl hi hf hk
  refine ⟨hgoes, casesOf_eq_equalCases_iff hk, fun hfits => ?_⟩
  have hsame : casesOf k (ks.zip ts) = equalCases f v (ks.zip ts) := by
    rw [casesOf_eq_equalCases_iff hk]
    intro c hc
    rw [Word.wrap_eq_self_iff.mpr (hfits c hc), eq_comm]
  rw [← hsame]
  exact hgoes

section Programs

/-- A switch with the greatest number of a word among its values. -/
def chooseText : String :=
  "method int f() \x7b int x; x = 2; switch (x) \x7b case 1: goto A; case 0x7FFFFFFF: goto A; " ++
    "case 2: goto B; default: goto A; \x7d A: return 1; B: return 2; \x7d"

def choose : Method :=
  let x : Var := ⟨"x", .prim .int⟩
  ⟨"f", [], .prim .int, [x],
    [⟨.assign (.var x) (.int 2), 1⟩,
      ⟨.switch x [1, 0x7FFFFFFF, 2] [.stmt 2, .stmt 2, .stmt 3] (.stmt 2), 1⟩,
      ⟨.ret (some (.int 1)), 1⟩, ⟨.ret (some (.int 2)), 1⟩]⟩

set_option maxRecDepth 20000 in
theorem switch_agrees_iff_choose : Source.parse chooseText = .ok [choose] ∧
    ∃ g, Cfg.build choose = .ok g ∧
      let x : Var := ⟨"x", .prim .int⟩
      let f := ConstMap.set ∅ x (.const 2)
      let cases := [(1, .stmt 2), (0x7FFFFFFF, .stmt 2), (2, .stmt 3)]
      let goes := feasible ⟨choose, g, fun _ => .ok f, fun _ => .ok ∅⟩ (.stmt 1)
      goes = .ok [.stmt 3] ∧ casesOf 2 cases = equalCases f x cases ∧
        (∀ c ∈ cases, Word32.Fits c.1) ∧ goes = .ok (goals (.stmt 2) (equalCases f x cases)) := by
  have hparse : Source.parse chooseText = .ok [choose] := by
    refine (Source.parse_append _ _).trans ?_
    simp only [String.reduceToList]
    rfl
  obtain ⟨g, hg, h⟩ := switch_agrees_iff hparse (List.mem_singleton_self _) (i := 1) rfl
  obtain ⟨hgoes, hiff, hfits⟩ := h (fun _ => .ok (ConstMap.set ∅ ⟨"x", .prim .int⟩ (.const 2)))
    (fun _ => .ok ∅) _ 2 rfl (by decide)
  exact ⟨hparse, g, hg, hgoes, hiff.mpr (by decide), by decide, hfits (by decide)⟩

/-- The selector is given the number that the case carries, and the word that it denotes is -1. -/
def minusOneText : String :=
  "method int f() \x7b int x; x = 0xFFFFFFFF; switch (x) \x7b case 0xFFFFFFFF: goto A; " ++
    "default: goto B; \x7d A: return 1; B: return 2; \x7d"

def minusOne : Method :=
  let x : Var := ⟨"x", .prim .int⟩
  ⟨"f", [], .prim .int, [x],
    [⟨.assign (.var x) (.int 0xFFFFFFFF), 1⟩,
      ⟨.switch x [0xFFFFFFFF] [.stmt 2] (.stmt 3), 1⟩, ⟨.ret (some (.int 1)), 1⟩,
      ⟨.ret (some (.int 2)), 1⟩]⟩

set_option maxRecDepth 20000 in
/-- A comparison finds the selector equal to the value of the case, but the switch goes to its
default, and the target of the case is found to be dead. -/
theorem switch_misses_minus_one : Source.parse minusOneText = .ok [minusOne] ∧
    ∃ g constants live, Cfg.build minusOne = .ok g ∧
      (ConstProp.problem minusOne).solveForward g .fifo 20 = .ok constants ∧
      (Liveness.problem minusOne).solveBackward g 5 = .ok live ∧
      let w : Evidence :=
        ⟨minusOne, g, constants.table.fact .input, live.table.fact .output⟩
      let x : Var := ⟨"x", .prim .int⟩
      ∃ f, w.known (.stmt 1) = .ok f ∧ evaluate f (.var x) = .const (-1) ∧
        goals (.stmt 3) (equalCases f x [(0xFFFFFFFF, .stmt 2)]) = [.stmt 2] ∧
        feasible w (.stmt 1) = .ok [.stmt 3] ∧ detect w = .ok [2] := by
  have hparse : Source.parse minusOneText = .ok [minusOne] := by
    refine (Source.parse_append _ _).trans ?_
    simp only [String.reduceToList]
    rfl
  have hresolved : minusOne.Resolved := by decide
  refine ⟨hparse, Cfg.graphOf minusOne, _, _, Cfg.build_eq_ok.mpr ⟨hresolved, rfl⟩, rfl, rfl, ?_⟩
  exact ⟨_, rfl, by decide, by decide, rfl, rfl⟩

end Programs

end DeadCode

end MethodFlow
