import MethodFlow.Proofs.HarmlessValues

/-!
Plain code, in which the operands of an expression are atoms. What such a statement does hangs on
the variables that it is said to use and on no others, and leaving out a pure expression goes
unnoticed.
-/

namespace MethodFlow

namespace Expr

def isAtom : Expr → Bool
  | var _ | int _ | str _ | null => true
  | _ => false

def isCall : Expr → Bool
  | call _ _ _ => true
  | _ => false

/-- An expression whose operands are atoms. -/
def IsFlat (e : Expr) : Prop :=
  ∀ a ∈ e.operands, a.isAtom = true

theorem isFlat_of_operands_eq_nil {e : Expr} (h : e.operands = []) : e.IsFlat := by
  intro a ha
  rw [h] at ha
  cases ha

theorem isFlat_of_isAtom {e : Expr} (h : e.isAtom = true) : e.IsFlat := by
  cases e <;> first | exact isFlat_of_operands_eq_nil rfl | cases h

theorem operands_of_isAtom {e : Expr} (h : e.isAtom = true) : e.operands = [] := by
  cases e <;> first | rfl | cases h

theorem isPure_of_isAtom {e : Expr} (h : e.isAtom = true) : e.isPure = true := by
  cases e <;> first | rfl | cases h

/-- The operands of a flat expression have no operands of their own. -/
theorem IsFlat.mem_operands {e b a : Expr} (hf : e.IsFlat) (hb : b ∈ e.operands ++ [e])
    (ha : a ∈ b.operands) : a ∈ e.operands := by
  rcases List.mem_append.mp hb with hb | hb
  · rw [operands_of_isAtom (hf b hb)] at ha
    cases ha
  · exact List.mem_singleton.mp hb ▸ ha

theorem isCall_of_isAtom {e : Expr} (h : e.isAtom = true) : e.isCall = false := by
  cases e <;> first | rfl | cases h

end Expr

/-- A statement whose expressions are flat: an assignment calls nothing, and what is returned is an
atom. -/
def Instr.IsPlain {τ : Type} : Instr τ → Prop
  | .assign p e => p.toExpr.IsFlat ∧ e.IsFlat ∧ e.isCall = false
  | .call p e => (∀ q, p = some q → q.toExpr.IsFlat) ∧ e.IsFlat
  | .branch c _ => c.IsFlat
  | .ret e => ∀ x, e = some x → x.isAtom = true
  | .goto _ | .switch _ _ _ _ | .nop => True

variable {ω : Type} {w : World ω} {μ μ' : Memory ω}

/-- A plain statement lists the operands of all that it lists. -/
theorem Instr.IsPlain.mem_uses {τ : Type} {s : Instr τ} (hs : s.IsPlain) {e a : Expr}
    (he : e ∈ s.uses) (ha : a ∈ e.operands) : a ∈ s.uses := by
  have hwritten : ∀ {p : Place} {x : Expr}, p.toExpr.IsFlat → x.IsFlat →
      e ∈ p.toExpr.operands ++ x.operands ++ [x] → a ∈ p.toExpr.operands ++ x.operands ++ [x] := by
    intro p x hp hx he
    rw [List.append_assoc] at he ⊢
    rcases List.mem_append.mp he with he | he
    · rw [Expr.operands_of_isAtom (hp e he)] at ha
      cases ha
    · exact List.mem_append_right _ (List.mem_append_left _ (hx.mem_operands he ha))
  cases s with
  | assign p x => exact hwritten hs.1 hs.2.1 he
  | call p x =>
    cases p with
    | none => exact List.mem_append_left _ (hs.2.mem_operands he ha)
    | some p => exact hwritten (hs.1 p rfl) hs.2 he
  | branch c t => exact List.mem_append_left _ (Expr.IsFlat.mem_operands hs he ha)
  | switch v ks ts d =>
    obtain rfl := List.mem_singleton.mp he
    cases ha
  | ret x =>
    rw [Expr.operands_of_isAtom (hs e (Option.mem_toList.mp he))] at ha
    cases ha
  | goto t => cases he
  | nop => cases he

theorem Instr.IsPlain.not_hides {τ : Type} {s : Instr τ} (hs : s.IsPlain) (v : Var) :
    ¬ s.Hides v :=
  fun ⟨_, he, _, ha, hn, _⟩ => hn (hs.mem_uses he ha)

/-- What a plain statement does hangs on the variables that it uses. -/
theorem execute_congr_of_isPlain {s : Instr Target} (hs : s.IsPlain)
    (h : ∀ v ∈ s.usedVars, μ v = μ' v) (i : Nat) : execute w μ i s = execute w μ' i s :=
  execute_congr (fun v hv => h v ((Instr.mem_reads.mp hv).resolve_right (hs.not_hides v))) i

/-- A flat expression is harmless as soon as it is pure, for its operands are atoms. -/
theorem Expr.IsFlat.isHarmless {e : Expr} (hf : e.IsFlat) (hp : e.isPure = true) :
    e.IsHarmless := by
  refine isHarmless_iff.mpr ⟨isPure_iff.mp hp, fun a ha => ?_⟩
  exact isHarmless_of_operands_eq_nil (isPure_of_isAtom (hf a ha)) (operands_of_isAtom (hf a ha))

theorem Expr.IsFlat.not_calls {e : Expr} (hf : e.IsFlat) (hc : e.isCall = false) : ¬ e.Calls := by
  rintro ⟨r, f, args, h⟩
  rcases contains_iff.mp h with rfl | ⟨a, ha, h⟩
  · cases hc
  · rcases contains_iff.mp h with rfl | ⟨b, hb, -⟩
    · cases hf _ ha
    · rw [operands_of_isAtom (hf a ha)] at hb
      cases hb

/-- Evaluating a pure expression of plain code can be left out unnoticed. -/
theorem eval_quiet_of_isFlat {e : Expr} (hf : e.IsFlat) (hp : e.isPure = true)
    (hc : e.isCall = false) : Quiet (eval w μ e) :=
  eval_quiet (hf.isHarmless hp) (hf.not_calls hc)

end MethodFlow
