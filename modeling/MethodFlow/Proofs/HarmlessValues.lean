import Mathlib.Logic.Relation
import MethodFlow.Proofs.ReadVariables

/-!
Values that are harmless all through: nothing inside them allocates, runs an initialiser or can
fail. Evaluating such a value goes unnoticed, as long as nothing is called in it. Purity looks at
the outermost operation only.
-/

namespace MethodFlow

namespace Expr

/-- An expression contains itself, its operands, and what these contain. -/
def Contains : Expr → Expr → Prop :=
  Relation.ReflTransGen fun e a => a ∈ e.operands

/-- Operations that can allocate, run an initialiser or fail on whatever operands. -/
inductive MayAct : Expr → Prop
  | new (t : Ty) : MayAct (.new t)
  | newArray (t : Ty) (n : Expr) : MayAct (.newArray t n)
  | cast (t : Ty) (e : Expr) : MayAct (.cast t e)
  | field (b : Expr) (f : String) : MayAct (.field b f)
  | static (c f : String) : MayAct (.static c f)
  | element (b i : Expr) : MayAct (.element b i)
  | quotient (a b : Expr) : MayAct (.bin .div a b)
  | remainder (a b : Expr) : MayAct (.bin .rem a b)

/-- Nothing in the expression may act. -/
def IsHarmless (e : Expr) : Prop :=
  ∀ a, e.Contains a → ¬ a.MayAct

def Calls (e : Expr) : Prop :=
  ∃ r f args, e.Contains (.call r f args)

variable {e a : Expr}

theorem contains_iff : e.Contains a ↔ e = a ∨ ∃ b ∈ e.operands, b.Contains a :=
  Relation.ReflTransGen.cases_head_iff

theorem Contains.of_operand {b : Expr} (hb : b ∈ e.operands) (h : b.Contains a) : e.Contains a :=
  Relation.ReflTransGen.head hb h

theorem isPure_iff : e.isPure = true ↔ ¬ e.MayAct := by
  cases e with
  | bin op l r =>
    cases op with
    | div => exact iff_of_false Bool.false_ne_true fun h => h (.quotient l r)
    | rem => exact iff_of_false Bool.false_ne_true fun h => h (.remainder l r)
    | _ => exact iff_of_true rfl fun h => nomatch h
  | new t => exact iff_of_false Bool.false_ne_true fun h => h (.new t)
  | newArray t n => exact iff_of_false Bool.false_ne_true fun h => h (.newArray t n)
  | cast t b => exact iff_of_false Bool.false_ne_true fun h => h (.cast t b)
  | field b f => exact iff_of_false Bool.false_ne_true fun h => h (.field b f)
  | static c f => exact iff_of_false Bool.false_ne_true fun h => h (.static c f)
  | element b i => exact iff_of_false Bool.false_ne_true fun h => h (.element b i)
  | _ => exact iff_of_true rfl fun h => nomatch h

/-- To be harmless is to be pure with harmless operands. -/
theorem isHarmless_iff : e.IsHarmless ↔ ¬ e.MayAct ∧ ∀ a ∈ e.operands, a.IsHarmless := by
  constructor
  · intro h
    exact ⟨h e .refl, fun a ha b hb => h b (.of_operand ha hb)⟩
  · rintro ⟨he, hop⟩ b hb
    rcases contains_iff.mp hb with rfl | ⟨a, ha, hb⟩
    · exact he
    · exact hop a ha b hb

theorem isHarmless_of_operands_eq_nil (hp : e.isPure = true) (h : e.operands = []) :
    e.IsHarmless :=
  isHarmless_iff.mpr ⟨isPure_iff.mp hp, h ▸ List.forall_mem_nil _⟩

end Expr

section Quiet

variable {ω α β : Type} {w : World ω} {μ : Memory ω}

/-- A computation that adds no event and throws no exception. -/
def Quiet (x : Effect ω α) : Prop :=
  ∀ es, x es = (.error .unassigned, es) ∨ ∃ a, x es = (.ok a, es)

theorem quiet_pure (a : α) : Quiet (pure a : Effect ω α) :=
  fun _ => Or.inr ⟨a, rfl⟩

theorem Quiet.bind {x : Effect ω α} {f : α → Effect ω β} (hx : Quiet x) (hf : ∀ a, Quiet (f a)) :
    Quiet (x >>= f) := by
  intro es
  rw [Effect.bind_apply]
  rcases hx es with h | ⟨a, h⟩
  · rw [h]
    exact Or.inl rfl
  · rw [h]
    exact hf a es

theorem quiet_read (v : Var) : Quiet (read μ v) := by
  intro es
  unfold read
  cases μ v with
  | none => exact Or.inl rfl
  | some d => exact Or.inr ⟨d, rfl⟩

theorem World.binary_isSome (w : World ω) {op : BinOp} (h : op.isDivision = false)
    (d d' : Datum ω) : ∃ r, w.binary op d d' = some r := by
  unfold binary
  split
  · split
    · exact ⟨_, rfl⟩
    · rw [if_neg (Bool.eq_false_iff.mp h)]
      exact Option.isSome_iff_exists.mp (w.operate_isSome op _ _ h)
  · exact Option.isSome_iff_exists.mp (w.operate_isSome op _ _ h)

/-- Evaluating a harmless expression without calls can be left out unnoticed. -/
theorem eval_quiet {e : Expr} (hh : e.IsHarmless) (hc : ¬ e.Calls) : Quiet (eval w μ e) := by
  induction e using Expr.operand_induction with
  | inside e ih =>
    obtain ⟨hact, hharmless⟩ := Expr.isHarmless_iff.mp hh
    have hop : ∀ a ∈ e.operands, Quiet (eval w μ a) := fun a ha =>
      ih a ha (hharmless a ha) fun ⟨r, f, args, h⟩ => hc ⟨r, f, args, .of_operand ha h⟩
    have hpure := Expr.isPure_iff.mpr hact
    cases e with
    | var v =>
      rw [eval]
      exact quiet_read v
    | int n =>
      rw [eval]
      exact quiet_pure _
    | str s =>
      rw [eval]
      exact quiet_pure _
    | null =>
      rw [eval]
      exact quiet_pure _
    | bin op a b =>
      rw [eval]
      refine (hop a (by simp [Expr.operands])).bind fun d =>
        (hop b (by simp [Expr.operands])).bind fun d' => ?_
      obtain ⟨r, hr⟩ := w.binary_isSome (by simpa [Expr.isPure] using hpure) d d'
      rw [hr]
      exact quiet_pure r
    | neg a =>
      rw [eval]
      exact (hop a (by simp [Expr.operands])).bind fun d => quiet_pure _
    | call r f args => exact absurd ⟨r, f, args, .refl⟩ hc
    | _ => cases hpure

end Quiet

end MethodFlow
