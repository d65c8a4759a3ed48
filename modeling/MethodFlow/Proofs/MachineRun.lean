import MethodFlow.Proofs.GraphShape
import MethodFlow.Proofs.Machine

/-!
The runs of the machine are among the concrete runs: what it does to the memory is one of the things
that the statement can do, and it goes on along an edge of the graph.
-/

namespace MethodFlow

variable {ω : Type} {w : World ω} {μ : Memory ω} {es es' : List (Event ω)} {i j size : Nat}
  {k : Control ω} {c : Option (Var × Datum ω)}

/-- What has a value has operands with values. -/
theorem Evaluates.operands {e : Expr} {d : Datum ω} (h : Evaluates μ e d) :
    ∀ a ∈ e.operands, ∃ d, Evaluates μ a d := by
  cases h with
  | var _ => exact fun a ha => by cases ha
  | int _ => exact fun a ha => by cases ha
  | words ha hb _ => exact by simpa [Expr.operands] using ⟨⟨_, ha⟩, ⟨_, hb⟩⟩
  | mixed ha hb _ _ => exact by simpa [Expr.operands] using ⟨⟨_, ha⟩, ⟨_, hb⟩⟩
  | anything _ f hf _ => exact fun a ha => ⟨f a, hf a ha⟩

theorem Evaluates.uses {e : Expr} {d : Datum ω} (h : Evaluates μ e d) :
    ∀ a ∈ e.operands ++ [e], ∃ d, Evaluates μ a d := by
  intro a ha
  rcases List.mem_append.mp ha with ha | ha
  · exact h.operands a ha
  · exact ⟨d, List.mem_singleton.mp ha ▸ h⟩

theorem write_var {v : Var} {e : Expr} (h : write w μ e (.var v) es = (.ok c, es')) :
    ∃ d, Evaluates μ e d ∧ c = some (v, d) := by
  obtain ⟨d, hd, rfl⟩ := Effect.bind_pure_eq_ok.mp h
  exact ⟨d, eval_evaluates e hd, rfl⟩

/-- A write to a place does what a statement with that place and value can do. -/
theorem write_executes {s : Instr Target} {p : Place} {e : Expr} (hp : s.place? = some p)
    (he : s.value? = some e) (hu : s.uses = p.toExpr.operands ++ (e.operands ++ [e]))
    (h : write w μ e p es = (.ok c, es')) :
    Executes s μ (μ.change c) ∧ c.map Prod.fst = s.def? := by
  have hkeep : p.var? = none → (∀ a ∈ p.toExpr.operands, ∃ d, Evaluates μ a d) →
      (∃ d, Evaluates μ e d) → Executes s μ μ ∧ none = s.def? := by
    rintro hv ha ⟨d, hd⟩
    have hdef : s.def? = none := by simp [Instr.def?, hp, hv]
    refine ⟨.keep hdef fun a hm => ?_, hdef.symm⟩
    rcases List.mem_append.mp (hu ▸ hm) with hm | hm
    · exact ha a hm
    · exact hd.uses a hm
  cases p with
  | var v =>
    obtain ⟨d, hd, rfl⟩ := write_var h
    have hdef : s.def? = some v := by simp [Instr.def?, hp, Place.var?]
    exact ⟨.define hdef he hd, hdef.symm⟩
  | field b f =>
    obtain ⟨x, _, hx, h⟩ := Effect.bind_eq_ok.mp h
    obtain ⟨d, _, hd, h⟩ := Effect.bind_eq_ok.mp h
    obtain ⟨_, _, rfl⟩ := Effect.bind_pure_eq_ok.mp h
    refine hkeep rfl ?_ ⟨d, eval_evaluates e hd⟩
    simpa [Place.toExpr, Expr.operands] using ⟨x, eval_evaluates b hx⟩
  | static o f =>
    obtain ⟨d, _, hd, h⟩ := Effect.bind_eq_ok.mp h
    obtain ⟨_, _, rfl⟩ := Effect.bind_pure_eq_ok.mp h
    exact hkeep rfl (by simp [Place.toExpr, Expr.operands]) ⟨d, eval_evaluates e hd⟩
  | element b n =>
    obtain ⟨x, _, hx, h⟩ := Effect.bind_eq_ok.mp h
    obtain ⟨y, _, hy, h⟩ := Effect.bind_eq_ok.mp h
    obtain ⟨d, _, hd, h⟩ := Effect.bind_eq_ok.mp h
    obtain ⟨_, _, rfl⟩ := Effect.bind_pure_eq_ok.mp h
    refine hkeep rfl ?_ ⟨d, eval_evaluates e hd⟩
    simpa [Place.toExpr, Expr.operands] using ⟨⟨x, eval_evaluates b hx⟩, ⟨y, eval_evaluates n hy⟩⟩

/-- Memories that agree on a variable, or have it written, agree on it after the same change. -/
theorem Memory.change_congr {μ' : Memory ω} {v : Var}
    (h : c.map Prod.fst ≠ some v → μ' v = μ v) : μ'.change c v = μ.change c v := by
  cases c with
  | none => exact h (by simp)
  | some a =>
    obtain ⟨u, d⟩ := a
    by_cases hvu : v = u
    · subst hvu
      exact (set_self _ _ _).trans (set_self _ _ _).symm
    · have hv : μ' v = μ v := h fun he => hvu (Option.some.inj he).symm
      exact ((set_of_ne hvu _ _).trans hv).trans (set_of_ne hvu _ _).symm

/-! What it is for the machine to go on from a statement, for each kind of statement. -/

theorem execute_place {s : Instr Target} {p : Place} {e : Expr} (hp : s.place? = some p)
    (he : s.value? = some e) (h : execute w μ i s es = (.ok (k, c), es')) :
    k = .running (i + 1) ∧ write w μ e p es = (.ok c, es') := by
  have hwrite : execute w μ i s = do return (.running (i + 1), ← write w μ e p) := by
    cases s with
    | assign q a =>
      cases hp
      cases he
      rfl
    | call q a =>
      obtain rfl : q = some p := hp
      cases he
      rfl
    | _ => cases hp
  rw [hwrite] at h
  obtain ⟨_, hc, hk⟩ := Effect.bind_pure_eq_ok.mp h
  cases hk
  exact ⟨rfl, hc⟩

theorem execute_call {e : Expr} (h : execute w μ i (.call none e) es = (.ok (k, c), es')) :
    k = .running (i + 1) ∧ c = none ∧ ∃ d, Evaluates μ e d := by
  obtain ⟨d, hd, hk⟩ := Effect.bind_pure_eq_ok.mp h
  cases hk
  exact ⟨rfl, rfl, d, eval_evaluates e hd⟩

theorem execute_branch {a : Expr} {t : Target}
    (h : execute w μ i (.branch a t) es = (.ok (k, c), es')) :
    c = none ∧ ∃ d, Evaluates μ a d ∧ k = if d.holds then jump t else .running (i + 1) := by
  obtain ⟨d, hd, hk⟩ := Effect.bind_pure_eq_ok.mp h
  cases hk
  exact ⟨rfl, d, eval_evaluates a hd, rfl⟩

theorem execute_goto {t : Target} (h : execute w μ i (.goto t) es = (.ok (k, c), es')) :
    k = jump t ∧ c = none := by
  obtain ⟨hk, _⟩ := Effect.pure_eq_ok.mp h
  cases hk
  exact ⟨rfl, rfl⟩

theorem execute_switch {v : Var} {ks : List Int} {ts : List Target} {t : Target}
    (h : execute w μ i (.switch v ks ts t) es = (.ok (k, c), es')) :
    c = none ∧ ∃ d, μ v = some d ∧ k = jump (d.choose (ks.zip ts) t) := by
  obtain ⟨d, hd, hk⟩ := Effect.bind_pure_eq_ok.mp h
  cases hk
  exact ⟨rfl, d, (Effect.orStop_eq_ok.mp hd).1, rfl⟩

theorem execute_ret {e : Option Expr} (h : execute w μ i (.ret e) es = (.ok (k, c), es')) :
    c = none ∧ (∀ a ∈ e, ∃ d, Evaluates μ a d) ∧ ∃ r, k = .ended (.returned r) := by
  cases e with
  | none =>
    obtain ⟨hk, _⟩ := Effect.pure_eq_ok.mp h
    cases hk
    exact ⟨rfl, nofun, _, rfl⟩
  | some e =>
    obtain ⟨d, hd, hk⟩ := Effect.bind_pure_eq_ok.mp h
    cases hk
    refine ⟨rfl, fun a ha => ?_, _, rfl⟩
    exact Option.some.inj ha ▸ ⟨d, eval_evaluates e hd⟩

theorem execute_nop (h : execute w μ i .nop es = (.ok (k, c), es')) :
    k = .running (i + 1) ∧ c = none := by
  obtain ⟨hk, _⟩ := Effect.pure_eq_ok.mp h
  cases hk
  exact ⟨rfl, rfl⟩

/-- What the machine does to the memory is one of the things that the statement can do, and it
writes the variable that the statement sets. -/
theorem execute_executes {s : Instr Target} (h : execute w μ i s es = (.ok (k, c), es')) :
    Executes s μ (μ.change c) ∧ c.map Prod.fst = s.def? := by
  cases s with
  | assign p e =>
    obtain ⟨_, hc⟩ := execute_place rfl rfl h
    exact write_executes rfl rfl (List.append_assoc _ _ _) hc
  | call p e =>
    cases p with
    | none =>
      obtain ⟨_, rfl, d, hd⟩ := execute_call h
      exact ⟨.keep rfl hd.uses, rfl⟩
    | some p =>
      obtain ⟨_, hc⟩ := execute_place rfl rfl h
      exact write_executes rfl rfl (List.append_assoc _ _ _) hc
  | branch a t =>
    obtain ⟨rfl, d, hd, _⟩ := execute_branch h
    exact ⟨.keep rfl hd.uses, rfl⟩
  | goto t =>
    obtain ⟨_, rfl⟩ := execute_goto h
    exact ⟨.keep rfl (by simp [Instr.uses]), rfl⟩
  | switch v ks ts t =>
    obtain ⟨rfl, d, hd, _⟩ := execute_switch h
    refine ⟨.keep rfl fun e he => ⟨d, ?_⟩, rfl⟩
    exact List.mem_singleton.mp he ▸ .var hd
  | ret e =>
    obtain ⟨rfl, he, _⟩ := execute_ret h
    exact ⟨.keep rfl fun a ha => he a (Option.mem_toList.mp ha), rfl⟩
  | nop =>
    obtain ⟨_, rfl⟩ := execute_nop h
    exact ⟨.keep rfl (by simp [Instr.uses]), rfl⟩

/-- A resolved jump leads to the place of its index. -/
theorem goal_of_jump {t : Target} (ht : t.Inside size) (h : jump t = (.running j : Control ω)) :
    t.goal = Cfg.place size j := by
  obtain ⟨n, rfl, hn⟩ := ht
  cases h
  simp [Target.goal, Target.node?, Cfg.place, hn]

/-- A selector chooses a case with its value, or the default when there is none. -/
theorem Datum.choose_word (x : Word) (cs : List (Int × Target)) (t : Target) :
    (x.toInt, (word x : Datum ω).choose cs t) ∈ cs ∨
      (∀ a ∈ cs, a.1 ≠ x.toInt) ∧ (word x : Datum ω).choose cs t = t := by
  have hc : (word x : Datum ω).choose cs t =
      ((cs.find? fun a => a.1 = x.toInt).map Prod.snd).getD t := rfl
  rw [hc]
  cases hf : cs.find? fun a => a.1 = x.toInt with
  | none =>
    refine Or.inr ⟨fun a ha => ?_, rfl⟩
    simpa using List.find?_eq_none.mp hf a ha
  | some a =>
    have ha : a.1 = x.toInt := by simpa using List.find?_some hf
    exact Or.inl (ha ▸ List.mem_of_find?_eq_some hf)

theorem Datum.choose_mem (d : Datum ω) (cs : List (Int × Target)) (t : Target) :
    d.choose cs t ∈ cs.map Prod.snd ++ [t] := by
  cases d with
  | other x => exact List.mem_append_right _ (List.mem_singleton_self t)
  | word x =>
    rcases choose_word (ω := ω) x cs t with h | ⟨_, h⟩
    · exact List.mem_append_left _ (List.mem_map_of_mem h)
    · rw [h]
      exact List.mem_append_right _ (List.mem_singleton_self t)

/-- The machine goes on along an edge by which control leaves the statement. -/
theorem execute_exits {s : Instr Target} (hs : ∀ t ∈ s.jumps, t.Inside size)
    (h : execute w μ i s es = (.ok (.running j, c), es')) :
    ∃ e ∈ Cfg.exits size i s, e.target = Cfg.place size j := by
  cases s with
  | assign p e =>
    obtain ⟨hk, _⟩ := execute_place rfl rfl h
    cases hk
    exact ⟨_, List.mem_singleton_self _, rfl⟩
  | call p e =>
    have hk : Control.running (ω := ω) j = .running (i + 1) := by
      cases p with
      | none => exact (execute_call h).1
      | some p => exact (execute_place rfl rfl h).1
    cases hk
    exact ⟨_, List.mem_singleton_self _, rfl⟩
  | branch a t =>
    obtain ⟨_, d, _, hk⟩ := execute_branch h
    split at hk
    · exact ⟨_, List.mem_cons_self, goal_of_jump (hs t (List.mem_singleton_self t)) hk.symm⟩
    · cases hk
      exact ⟨_, List.mem_cons_of_mem _ (List.mem_singleton_self _), rfl⟩
  | goto t =>
    obtain ⟨hk, _⟩ := execute_goto h
    exact ⟨_, List.mem_singleton_self _,
      goal_of_jump (hs t (List.mem_singleton_self t)) hk.symm⟩
  | switch v ks ts t =>
    obtain ⟨_, d, _, hk⟩ := execute_switch h
    have hmem := d.choose_mem (ks.zip ts) t
    have hgoal := goal_of_jump (hs _ hmem) hk.symm
    rcases List.mem_append.mp hmem with hm | hm
    · obtain ⟨a, ha, he⟩ := List.mem_map.mp hm
      exact ⟨_, List.mem_append_left _ (List.mem_map_of_mem ha), by rw [← hgoal, ← he]⟩
    · refine ⟨_, List.mem_append_right _ (List.mem_singleton_self _), ?_⟩
      rw [← hgoal, List.mem_singleton.mp hm]
  | ret e =>
    obtain ⟨_, _, r, hk⟩ := execute_ret h
    cases hk
  | nop =>
    obtain ⟨hk, _⟩ := execute_nop h
    cases hk
    exact ⟨_, List.mem_singleton_self _, rfl⟩

end MethodFlow
