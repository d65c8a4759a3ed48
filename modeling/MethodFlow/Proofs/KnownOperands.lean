import MethodFlow.Proofs.LeastSolution
import MethodFlow.Proofs.ReadVariables

/-!
Where constant propagation is monotone. An operation on a variable about which nothing is known yet
may vary, though it may turn out to be a constant once more is known. This is the only way in which
more in front of a statement can make less behind it.
-/

namespace MethodFlow.ConstProp

variable {a b f : ConstMap} {v : Var} {e : Expr}

/-- What a constant is made of are constants. -/
theorem const_of_mem_vars {c : Int} (he : evaluate f e = .const c) (hv : v ∈ e.vars) :
    ∃ k, f.get v = .const k := by
  fun_induction evaluate f e generalizing c with
  | case1 w hi =>
    rw [List.mem_singleton.mp hv]
    exact ⟨c, he⟩
  | case2 w hi => cases he
  | case3 n => cases hv
  | case4 op l r x y hy hx ihl ihr =>
    rcases List.mem_append.mp hv with hv | hv
    · exact ihl hx hv
    · exact ihr hy hv
  | case5 => cases he
  | case6 => cases he

/-- What an expression evaluates to hangs only on what is known about its variables. -/
theorem evaluate_congr (h : ∀ v ∈ e.vars, a.get v = b.get v) : evaluate a e = evaluate b e := by
  induction e using Expr.operand_induction with
  | inside e ih =>
    cases e with
    | var w => rw [evaluate, evaluate, h w (List.mem_singleton_self w)]
    | bin op l r =>
      have hl := ih l (by simp [Expr.operands]) fun v hv => h v (List.mem_append_left _ hv)
      have hr := ih r (by simp [Expr.operands]) fun v hv => h v (List.mem_append_right _ hv)
      rw [evaluate, evaluate, hl, hr]
    | _ => rfl

/-- An operation that does not vary is one on constants. -/
theorem evaluate_bin_ne_nac {op : BinOp} {l r : Expr} (h : evaluate f (.bin op l r) ≠ .nac) :
    ∃ x y, evaluate f l = .const x ∧ evaluate f r = .const y := by
  rw [evaluate] at h
  split at h
  · rename_i x y hx hy
    exact ⟨x, y, hx, hy⟩
  · exact absurd rfl h

/-- The variables of an operation that does not vary are constants. -/
theorem const_of_mem_operation {op : BinOp} {l r : Expr}
    (h : evaluate f (.bin op l r) ≠ .nac) (hv : v ∈ (Expr.bin op l r).vars) :
    ∃ k, f.get v = .const k := by
  obtain ⟨x, y, hx, hy⟩ := evaluate_bin_ne_nac h
  rcases List.mem_append.mp hv with hv | hv
  · exact const_of_mem_vars hx hv
  · exact const_of_mem_vars hy hv

/-- If the expression is an operation that does not vary in `b`, something is known in `a` about
each of its variables. -/
def OperandsKnown (a b : ConstMap) (e : Expr) : Prop :=
  ∀ op l r, e = .bin op l r → evaluate b e ≠ .nac → ∀ v ∈ e.vars, a.get v ≠ Value.undef

/-- More known makes more of an expression exactly where the operands of an operation are known. -/
theorem evaluate_le_iff (h : a.get ≤ b.get) (e : Expr) :
    evaluate a e ≤ evaluate b e ↔ OperandsKnown a b e := by
  by_cases he : ∃ op l r, e = .bin op l r
  · obtain ⟨op, l, r, rfl⟩ := he
    constructor
    · rintro hle _ _ _ - hb v hv hundef
      have ha : evaluate a (.bin op l r) = .nac := by
        by_contra hn
        obtain ⟨k, hk⟩ := const_of_mem_operation hn hv
        cases hk.symm.trans hundef
      exact hb (Value.nac_le_iff.mp (ha ▸ hle))
    · intro hknown
      by_cases hb : evaluate b (.bin op l r) = .nac
      · rw [hb]
        exact le_top
      · -- below a constant there is only the constant itself once something is known
        have hsame : ∀ v ∈ (Expr.bin op l r).vars, a.get v = b.get v := by
          intro v hv
          obtain ⟨k, hk⟩ := const_of_mem_operation hb hv
          rcases Value.le_iff.mp (h v) with hu | he | hn
          · exact absurd hu (hknown op l r rfl hb v hv)
          · exact he
          · cases hk.symm.trans hn
        exact (evaluate_congr hsame).le
  · have hne : ∀ op l r, e ≠ .bin op l r := fun op l r heq => he ⟨op, l, r, heq⟩
    exact iff_of_true (evaluate_mono h hne) fun op l r heq => absurd heq (hne op l r)

theorem get_transfer_written {τ : Type} {s : Instr τ} {e : Expr} (hv : s.def? = some v)
    (he : s.value? = some e) (hi : v.holdsInt = true) (f : ConstMap) :
    (transfer s f).get v = evaluate f e := by
  simp [transfer, hv, he, hi]

/-- Where more is known in front, more is known of every expression and behind every statement,
except of operations on variables about which nothing was known, and behind statements that set an
integer variable to one. -/
theorem transfer_le_iff (h : a.get ≤ b.get) :
    (∀ e, evaluate a e ≤ evaluate b e ↔ OperandsKnown a b e) ∧
      ∀ {τ : Type} (s : Instr τ), (transfer s a).get ≤ (transfer s b).get ↔
        ∀ v e, s.def? = some v → s.value? = some e → v.holdsInt = true → OperandsKnown a b e := by
  refine ⟨evaluate_le_iff h, fun s => ⟨?_, ?_⟩⟩
  · intro hle v e hv he hi
    apply (evaluate_le_iff h e).mp
    rw [← get_transfer_written hv he hi, ← get_transfer_written hv he hi]
    exact hle v
  · intro hknown v
    rcases transfer_passes s v with hp | ⟨e, hv, he, hi, hp⟩
    · rw [hp, hp]
      exact h v
    · rw [hp, hp]
      exact (evaluate_le_iff h e).mpr (hknown v e hv he hi)

/-- A variable is set to the successor of another one. -/
def successorOf (x y : String) : Instr Target :=
  .assign (.var ⟨x, .prim .int⟩) (.bin .add (.var ⟨y, .prim .int⟩) (.int 1))

/-- What is known when all that is known is about one variable. -/
def onlyKnown (y : String) (k : Value) : ConstMap :=
  ConstMap.set ∅ ⟨y, .prim .int⟩ k

theorem transfer_le_iff_successor :
    (onlyKnown "y" (.const 1)).get ≤ (onlyKnown "y" .nac).get ∧
      (transfer (successorOf "x" "y") (onlyKnown "y" (.const 1))).get ≤
        (transfer (successorOf "x" "y") (onlyKnown "y" .nac)).get := by
  have h : (onlyKnown "y" (.const 1)).get ≤ (onlyKnown "y" .nac).get := by
    intro v
    simp only [onlyKnown, ConstMap.get_set]
    split
    · exact le_top
    · exact le_refl _
  refine ⟨h, ((transfer_le_iff h).2 _).mpr ?_⟩
  intro v e hv he _ op l r _ hb
  cases he
  exact absurd (by decide) hb

/-- With nothing known a sum may vary, with its operand known it does not. -/
theorem successor_not_monotone :
    (∅ : ConstMap).get ≤ (onlyKnown "y" (.const 1)).get ∧
      ¬ (transfer (successorOf "x" "y") ∅).get ≤
        (transfer (successorOf "x" "y") (onlyKnown "y" (.const 1))).get := by
  refine ⟨fun v => bot_le, fun h => ?_⟩
  have hx := h ⟨"x", .prim .int⟩
  revert hx
  rw [show (transfer (successorOf "x" "y") ∅).get ⟨"x", .prim .int⟩ = .nac from by decide,
    show (transfer (successorOf "x" "y") (onlyKnown "y" (.const 1))).get ⟨"x", .prim .int⟩ =
      .const 2 from by decide]
  intro hx
  cases Value.nac_le_iff.mp hx

end MethodFlow.ConstProp
