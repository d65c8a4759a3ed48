import MethodFlow.Proofs.ConstantRun
import MethodFlow.Proofs.Words

/-!
What can come up in a run of constant propagation. At every moment, and also in a run that never
ends, the facts list constants that words can hold, they list only parameters and variables that the
method sets, and all that they say about a variable that holds no integers is that it may vary.
-/

namespace MethodFlow

theorem Word32.fits_wrap (n : Int) : Word32.Fits (Word32.wrap n) :=
  Word.toInt_ofInt n ▸ Word.fits_toInt _

theorem Word32.fits_of_apply {op : BinOp} {a b n : Int} (h : Word32.apply op a b = .const n) :
    Word32.Fits n := by
  unfold Word32.apply at h
  split at h
  · obtain ⟨-, hconst⟩ | ⟨-, hconst⟩ := ite_eq_iff.mp h
    · cases hconst
    · cases hconst
      exact Word32.fits_wrap _
  · cases h

namespace ConstProp

open Problem

variable {m : Method} {v : Var} {x y : Value} {f : ConstMap}

/-- A fact that says no more than constant propagation can say about the variables of a method. -/
structure IsBounded (m : Method) (f : ConstMap) : Prop where
  known : ∀ v, f.find? v ≠ some .undef
  fits : ∀ v n, f.find? v = some (.const n) → Word32.Fits n
  free : ∀ v x, f.find? v = some x → v.holdsInt = false → v ∈ m.params ∧ x = .nac
  tracked : ∀ v x, f.find? v = some x → v ∈ m.params ∨ ∃ s ∈ m.body, s.instr.def? = some v

/-- What can come to be known about a variable. -/
structure MayBe (m : Method) (v : Var) (x : Value) : Prop where
  fits : ∀ n, x = .const n → Word32.Fits n
  free : v.holdsInt = false → x = .undef ∨ v ∈ m.params ∧ x = .nac
  tracked : x = .undef ∨ v ∈ m.tracked

theorem mayBe_undef (m : Method) (v : Var) : MayBe m v .undef :=
  ⟨nofun, fun _ => Or.inl rfl, Or.inl rfl⟩

theorem mayBe_nac (hv : v ∈ m.params) : MayBe m v .nac :=
  ⟨nofun, fun _ => Or.inr ⟨hv, rfl⟩, Or.inr (List.mem_append_left _ hv)⟩

theorem MayBe.sup (hx : MayBe m v x) (hy : MayBe m v y) : MayBe m v (x ⊔ y) where
  fits n h := by
    rcases Value.meet_eq_const h with h | h
    · exact hx.fits n h
    · exact hy.fits n h
  free hv := by
    rcases hx.free hv with rfl | ⟨hm, rfl⟩
    · rw [show (Value.undef ⊔ y) = y from rfl]
      exact hy.free hv
    · exact Or.inr ⟨hm, top_sup_eq y⟩
  tracked := by
    rcases hx.tracked with rfl | hm
    · exact hy.tracked
    · exact Or.inr hm

/-- The constant of an expression fits a word if those of the variables do. -/
theorem evaluate_fits (hf : ∀ v n, f.get v = .const n → Word32.Fits n) {e : Expr} {n : Int}
    (h : evaluate f e = .const n) : Word32.Fits n := by
  cases e with
  | var v =>
    rw [evaluate] at h
    split at h
    · exact hf v n h
    · cases h
  | int k =>
    cases h
    exact Word32.fits_wrap k
  | bin op a b =>
    obtain ⟨_, _, _, _, h⟩ := evaluate_bin_eq_const h
    exact Word32.fits_of_apply h
  | _ => cases h

theorem transfer_mayBe (n : Node) (hf : ∀ v, MayBe m v (f.get v)) (v : Var) :
    MayBe m v ((transfer (n.instr m) f).get v) := by
  rcases transfer_passes (n.instr m) v with hp | ⟨e, hd, _, hi, hp⟩
  · rw [hp]
    exact hf v
  · rw [hp]
    refine ⟨fun k hk => evaluate_fits (fun w => (hf w).fits) hk, fun hn => ?_,
      Or.inr (instr_def_tracked hd)⟩
    cases hi.symm.trans hn

theorem mayBe_confines (m : Method) :
    (problem m).Confines ConstMap.get {x | ∀ v, MayBe m v (x v)} where
  toJoining := joining m
  bot_mem v := mayBe_undef m v
  sup_mem hx hy v := (hx v).sup (hy v)
  boundary_mem v := by
    change MayBe m v ((boundary m).get v)
    rw [get_boundary]
    split
    · rename_i hv
      exact mayBe_nac hv
    · exact mayBe_undef m v
  transfer_mem n _ hf := transfer_mayBe n hf

theorem isBounded_of_mayBe (h : ∀ v, MayBe m v (f.get v)) : IsBounded m f := by
  have hget : ∀ {v x}, f.find? v = some x → f.get v = x ∧ x ≠ .undef := by
    intro v x hx
    have hu := f.known v
    rw [← ConstMap.find?, hx] at hu
    exact ⟨by rw [ConstMap.get, hx, Option.getD_some], fun he => hu (he ▸ rfl)⟩
  constructor
  · exact f.known
  · intro v n hv
    exact (h v).fits n (hget hv).1
  · intro v x hv hn
    obtain ⟨rfl, hu⟩ := hget hv
    exact ((h v).free hn).resolve_left hu
  · intro v x hv
    obtain ⟨rfl, hu⟩ := hget hv
    rcases List.mem_append.mp ((h v).tracked.resolve_left hu) with hp | hd
    · exact Or.inl hp
    · exact Or.inr (List.mem_filterMap.mp hd)

/-- All facts of every state that a run of constant propagation comes to are bounded; within a visit
each fact is one of the state before it or of the state behind it. No visit fails, so that is so at
each moment until no node is pending, and it is so of what the solver returns, which is the table of
the last state. -/
theorem arising_facts_bounded {m : Method} (hm : m.Resolved) : ∃ g, Cfg.build m = .ok g ∧
    ∀ order : Order,
      (∀ k s, (problem m).Arises g order k s →
        (s.pending = [] ∨ ∃ s', (problem m).Arises g order (k + 1) s') ∧
        (∀ side, ∀ n ∈ g.nodes, ∃ f, s.table.fact side n = .ok f) ∧
        ∀ side n f, s.table.fact side n = .ok f → IsBounded m f) ∧
      ∀ fuel sol, (problem m).solveForward g order fuel = .ok sol →
        ∃ k ≤ fuel, ∃ s, (problem m).Arises g order k s ∧ s.pending = [] ∧ sol.table = s.table := by
  have hg := Cfg.graphOf_closed hm
  refine ⟨Cfg.graphOf m, Cfg.build_eq_ok.mpr ⟨hm, rfl⟩, fun order => ⟨?_, ?_⟩⟩
  · intro k s hs
    have he := hs.eq_stateAt _ hg
    refine ⟨hs.done_or_next _ hg, ?_, ?_⟩
    · intro side n hn
      rw [he]
      exact ((problem m).sound_stateAt hg order k).covers side n (Cfg.mem_nodes.mp hn)
    · intro side n f hf
      have hwithin := (mayBe_confines m).stateAt_within hg order k side n
      rw [← he, FactTable.look_of_fact hf] at hwithin
      exact isBounded_of_mayBe hwithin
  · intro fuel sol hsol
    obtain ⟨hd, rfl⟩ := ((problem m).solveForward_eq_ok hg).mp hsol
    obtain ⟨k, hk, hs⟩ := (problem m).exists_arises hg order fuel
    exact ⟨k, hk, _, hs, hd, rfl⟩

/-- A variable that steps past the largest number of a word, and a parameter that holds no integers
and is set, in a loop for ever. -/
def overflowing : Method :=
  let a : Var := ⟨"a", .prim .int⟩
  let b : Var := ⟨"b", .prim .int⟩
  let p : Var := ⟨"p", .prim .long⟩
  .make "overflowing" [p] .void [a, b]
    [⟨.assign (.var b) (.int 0x7FFFFFFF), 1⟩, ⟨.assign (.var a) (.bin .add (.var b) (.int 1)), 2⟩,
      ⟨.assign (.var p) (.int 5), 3⟩, ⟨.goto (.stmt 1), 4⟩]

theorem arising_facts_bounded_overflowing : overflowing.Resolved ∧
    ∃ g, Cfg.build overflowing = .ok g ∧ ∃ k s, (problem overflowing).Arises g .fifo k s ∧
      ∃ f, s.table.fact .output (.stmt 2) = .ok f ∧ IsBounded overflowing f ∧
        f.find? ⟨"a", .prim .int⟩ = some (.const (-0x80000000)) ∧
        f.find? ⟨"p", .prim .long⟩ = some .nac := by
  have hm : overflowing.Resolved := by decide
  obtain ⟨g, hg, h⟩ := arising_facts_bounded hm
  obtain ⟨_, rfl⟩ := Cfg.build_eq_ok.mp hg
  obtain ⟨k, _, hs⟩ := (problem overflowing).exists_arises (Cfg.graphOf_closed hm) .fifo 3
  obtain ⟨_, hfacts, hbounded⟩ := (h .fifo).1 k _ hs
  obtain ⟨f, hf⟩ := hfacts .output (.stmt 2) (Cfg.mem_nodes.mpr rfl)
  have hlook := FactTable.look_of_fact (d := ∅) hf
  refine ⟨hm, _, hg, k, _, hs, f, hf, hbounded .output (.stmt 2) f hf, ?_, ?_⟩
  · rw [← hlook]
    decide
  · rw [← hlook]
    decide

end ConstProp

end MethodFlow
