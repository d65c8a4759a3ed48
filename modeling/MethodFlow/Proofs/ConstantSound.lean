import MethodFlow.Proofs.ConcreteRun
import MethodFlow.Proofs.ConstantRun

/-!
Constant propagation is sound for concrete runs: an integer variable that has been assigned holds
the constant that is known about it, or is known to vary. Every table that solves the equations is
sound in this sense.
-/

namespace MethodFlow.ConstProp

open Problem

variable {ω : Type} {f f' : ConstMap} {μ μ' : Memory ω} {m : Method}

/-- A value that says the truth about a datum. -/
def Describes (x : Value) (d : Datum ω) : Prop :=
  x = .nac ∨ ∃ w, d = .word w ∧ x = .const w.toInt

/-- A fact that says the truth about each integer variable that has been assigned. -/
def Covers (f : ConstMap) (μ : Memory ω) : Prop :=
  ∀ v d, v.holdsInt = true → μ v = some d → Describes (f.get v) d

theorem Describes.mono {x y : Value} {d : Datum ω} (h : Describes x d) (hxy : x ≤ y) :
    Describes y d := by
  rcases h with rfl | ⟨w, rfl, rfl⟩
  · exact Or.inl (Value.nac_le_iff.mp hxy)
  · rcases Value.const_le_iff.mp hxy with rfl | rfl
    · exact Or.inr ⟨w, rfl, rfl⟩
    · exact Or.inl rfl

theorem Describes.word {x : Value} {w : Word} (h : Describes (ω := ω) x (.word w)) :
    x = .nac ∨ x = .const w.toInt := by
  rcases h with rfl | ⟨_, hw, rfl⟩
  · exact Or.inl rfl
  · cases hw
    exact Or.inr rfl

theorem Covers.mono (h : Covers f μ) (hf : f.get ≤ f'.get) : Covers f' μ :=
  fun v d hv hd => (h v d hv hd).mono (hf v)

theorem evaluate_bin_of_const {op : BinOp} {a b : Expr} {x y : Int}
    (ha : evaluate f a = .const x) (hb : evaluate f b = .const y) :
    evaluate f (.bin op a b) = Word32.apply op x y := by
  rw [evaluate, ha, hb]

theorem evaluate_bin_of_nac {op : BinOp} {a b : Expr}
    (h : evaluate f a = .nac ∨ evaluate f b = .nac) : evaluate f (.bin op a b) = .nac := by
  rw [evaluate]
  split
  · rename_i hx hy
    rcases h with h | h
    · exact absurd h (by simp [hx])
    · exact absurd h (by simp [hy])
  · rfl

theorem evaluate_of_isOpen {e : Expr} (h : e.isOpen = true) : evaluate f e = .nac := by
  cases e <;> first | rfl | cases h

/-- What is known about an expression is true of everything that it can evaluate to. -/
theorem evaluate_describes (h : Covers f μ) {e : Expr} {d : Datum ω} (he : Evaluates μ e d) :
    Describes (evaluate f e) d := by
  induction he with
  | @var v d hd =>
    rw [evaluate]
    split
    · rename_i hv
      exact h v d hv hd
    · exact Or.inl rfl
  | int n => exact Or.inr ⟨_, rfl, by rw [evaluate, Word.toInt_ofInt]⟩
  | @words op a b x y z _ _ hz iha ihb =>
    rcases iha.word with ha | ha
    · exact Or.inl (evaluate_bin_of_nac (Or.inl ha))
    · rcases ihb.word with hb | hb
      · exact Or.inl (evaluate_bin_of_nac (Or.inr hb))
      · rw [evaluate_bin_of_const ha hb]
        cases hop : op.isFree with
        | true => exact Or.inl (Word.apply_free hop _ _)
        | false => exact Or.inr ⟨z, rfl, Word.apply_toInt hop hz⟩
  | @mixed op a b d d' _ _ hd r iha ihb =>
    refine Or.inl ?_
    rcases iha with ha | ⟨x, rfl, ha⟩
    · exact evaluate_bin_of_nac (Or.inl ha)
    · rcases ihb with hb | ⟨y, rfl, hb⟩
      · exact evaluate_bin_of_nac (Or.inr hb)
      · rcases hd with hop | hd
        · rw [evaluate_bin_of_const ha hb, Word.apply_free hop]
        · exact absurd ⟨rfl, rfl⟩ (hd x y)
  | anything ho _ _ r => exact Or.inl (evaluate_of_isOpen ho)

/-- What is known to be a constant evaluates to the word with that value. -/
theorem evaluate_known (h : Covers f μ) {e : Expr} {d : Datum ω} (he : Evaluates μ e d) {k : Int}
    (hk : evaluate f e = .const k) : ∃ y : Word, d = .word y ∧ y.toInt = k := by
  rcases evaluate_describes h he with hn | ⟨y, hd, hy⟩
  · cases hn.symm.trans hk
  · exact ⟨y, hd, Value.const.inj (hy.symm.trans hk)⟩

theorem transfer_covers (h : Covers f μ) {s : Instr Target} (hx : Executes s μ μ') :
    Covers (transfer s f) μ' := by
  intro w d hw hd
  cases hx with
  | @define v e d' hv he hd' =>
    have hs : transfer s f = if v.holdsInt then f.set v (evaluate f e) else f := by
      simp only [transfer, hv, he]
    by_cases hvw : w = v
    · subst hvw
      rw [Memory.set_self] at hd
      cases hd
      rw [hs, if_pos hw, ConstMap.get_set, if_pos rfl]
      exact evaluate_describes h hd'
    · rw [Memory.set_of_ne hvw] at hd
      have hget : (transfer s f).get w = f.get w := by
        rw [hs]
        split
        · rw [ConstMap.get_set, if_neg fun h => hvw h.symm]
        · rfl
      exact hget ▸ h w d hw hd
  | keep hv _ =>
    have hs : transfer s f = f := by simp only [transfer, hv]
    rw [hs]
    exact h w d hw hd

section Run

variable {g : Cfg} {t : FactTable ConstMap} {n : Node}

theorem boundary_covers (h : ∀ v, (μ v).isSome ↔ v ∈ m.params) : Covers (boundary m) μ := by
  intro v d _ hd
  have hv : v ∈ m.params := (h v).mp (by simp [hd])
  exact Or.inl ((get_boundary m v).trans (if_pos hv))

/-- What a node passes on is true after it has been executed. -/
theorem output_covers (ht : Solves (problem m) g ConstMap.get t) (hn : g.has n = true)
    (h : Covers (t.look ∅ .input n) μ) (hx : Executes (n.instr m) μ μ') :
    Covers (t.look ∅ .output n) μ' := by
  by_cases he : n = .entry
  · subst he
    have hin : t.look ∅ .input .entry = boundary m := ht.entry .input
    have hout : t.look ∅ .output .entry = boundary m := ht.entry .output
    rw [hin] at h
    rw [hout]
    exact transfer_covers h hx
  · exact (transfer_covers h hx).mono (le_of_eq (ht.settled n hn he).output.symm)

theorem input_covers (hg : g.Closed) (ht : Solves (problem m) g ConstMap.get t) {k : Node}
    (hk : k ∈ g.succs n) (h : Covers (t.look ∅ .output n) μ) :
    Covers (t.look ∅ .input k) μ := by
  have hne : k ≠ .entry := fun he => hg.entry (he ▸ hk)
  have hle := (joining m).le_merged (t := t) (s := .output) (Cfg.mem_preds.mpr ⟨hg.target hk, hk⟩)
  exact h.mono (hle.trans_eq (ht.settled k (hg.target hk) hne).input.symm)

/-- A table that solves the equations is true of every point that a run comes to. -/
theorem reaches_covers (hg : g.Closed) (ht : Solves (problem m) g ConstMap.get t)
    (h : Reaches m g n μ) : g.has n = true ∧ Covers (t.look ∅ .input n) μ := by
  induction h with
  | start hs =>
    have hin : t.look ∅ .input .entry = boundary m := ht.entry .input
    exact ⟨rfl, hin ▸ boundary_covers hs⟩
  | step _ hx hk ih =>
    exact ⟨hg.target hk, input_covers hg ht hk (output_covers ht ih.1 ih.2 hx)⟩

/-- Whenever a run is about to execute a node, and right after it has, what an assigned integer
variable holds is what the finished solver knows about it, unless it knows that it may vary. -/
theorem solved_facts_hold {m : Method} (hm : m.Resolved) : ∃ g, Cfg.build m = .ok g ∧
    ∀ {order : Order} {fuel : Nat} {sol : Solution ConstMap},
      (problem m).solveForward g order fuel = .ok sol →
      ∀ {n : Node} {μ : Memory ω}, Reaches m g n μ → ∀ v, v.holdsInt = true →
        (∀ w, μ v = some (.word w) → ∃ f, sol.table.fact .input n = .ok f ∧
          (f.get v = .nac ∨ f.get v = .const w.toInt)) ∧
        ∀ μ', Executes (n.instr m) μ μ' → ∀ w, μ' v = some (.word w) →
          ∃ f, sol.table.fact .output n = .ok f ∧
            (f.get v = .nac ∨ f.get v = .const w.toInt) := by
  have hg := Cfg.graphOf_closed hm
  refine ⟨Cfg.graphOf m, Cfg.build_eq_ok.mpr ⟨hm, rfl⟩, fun hsol n μ hn v hv => ?_⟩
  have ht := solves_of_solveForward (joining m) hg hsol
  obtain ⟨hhas, hin⟩ := reaches_covers hg ht hn
  refine ⟨fun w hw => ?_, fun μ' hx w hw => ?_⟩
  · exact ⟨_, ht.covers.fact hhas ∅ .input, (hin v _ hv hw).word⟩
  · exact ⟨_, ht.covers.fact hhas ∅ .output, (output_covers ht hhas hin hx v _ hv hw).word⟩

/-- `a = 1; b = a + 1; return;` -/
def successor : Method :=
  let a : Var := ⟨"a", .prim .int⟩
  let b : Var := ⟨"b", .prim .int⟩
  .make "successor" [] .void [a, b]
    [⟨.assign (.var a) (.int 1), 1⟩, ⟨.assign (.var b) (.bin .add (.var a) (.int 1)), 2⟩,
      ⟨.ret none, 3⟩]

theorem solved_facts_hold_successor : ∃ g sol, ∃ μ : Memory Unit, Cfg.build successor = .ok g ∧
    (problem successor).solveForward g .fifo 10 = .ok sol ∧ Reaches successor g (.stmt 2) μ ∧
    μ ⟨"b", .prim .int⟩ = some (.word 2) ∧ ∃ f, sol.table.fact .input (.stmt 2) = .ok f ∧
      (f.get ⟨"b", .prim .int⟩ = .nac ∨ f.get ⟨"b", .prim .int⟩ = .const 2) := by
  have hm : successor.Resolved := by decide
  obtain ⟨g, hg, h⟩ := solved_facts_hold (ω := Unit) hm
  obtain ⟨_, rfl⟩ := Cfg.build_eq_ok.mp hg
  obtain ⟨sol, hsol⟩ : ∃ sol, (problem successor).solveForward _ .fifo 10 = .ok sol :=
    ⟨_, ((problem successor).solveForward_eq_ok (Cfg.graphOf_closed hm)).mpr ⟨by decide, rfl⟩⟩
  have h0 : Reaches successor (Cfg.graphOf successor) .entry (fun _ => none : Memory Unit) :=
    .start fun v => by simp [successor, Method.make]
  have h1 := (h0.step (.keep rfl fun e he => by cases he) (k := .stmt 0) (by decide)).step
    (.define rfl rfl (.int 1)) (k := .stmt 1) (by decide)
  have h2 := h1.step (.define rfl rfl (.words (.var rfl) (.int 1) rfl)) (k := .stmt 2) (by decide)
  exact ⟨_, sol, _, hg, hsol, h2, rfl, (h hsol h2 _ rfl).1 2 rfl⟩

end Run

end MethodFlow.ConstProp
