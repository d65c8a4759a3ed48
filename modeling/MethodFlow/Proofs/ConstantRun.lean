import MethodFlow.Proofs.ConfinedFacts

/-!
Constants along a run of constant propagation. The transfer is not monotone, since an operand about
which nothing is known yet makes the result vary; but it never gives a constant up for another. So a
constant that comes up once in a run stays, or becomes one of the values that may vary, and it is
below every solution of the equations.
-/

namespace MethodFlow

/-- The parameters of a method and the variables that its statements set. -/
def Method.tracked (m : Method) : List Var :=
  m.params ++ m.body.filterMap fun s => s.instr.def?

namespace ConstProp

/-- Every constant of `a` is below what `b` knows. -/
def Keeps (a b : ConstMap) : Prop :=
  ∀ v c, a.get v = .const c → .const c ≤ b.get v

variable {a b : ConstMap} {m : Method}

theorem Keeps.refl (a : ConstMap) : Keeps a a :=
  fun _ _ h => h ▸ le_refl _

theorem keeps_of_view_eq {a' b' : ConstMap} (ha : a'.get = a.get) (hb : b'.get = b.get)
    (h : Keeps a b) : Keeps a' b' := by
  intro v c hc
  rw [hb]
  exact h v c (ha ▸ hc)

theorem keeps_empty (b : ConstMap) : Keeps ∅ b := by
  intro v c h
  cases h

/-- The operands of a constant result are constants. -/
theorem evaluate_bin_eq_const {f : ConstMap} {op : BinOp} {l r : Expr} {c : Int}
    (h : evaluate f (.bin op l r) = .const c) :
    ∃ x y, evaluate f l = .const x ∧ evaluate f r = .const y ∧ Word32.apply op x y = .const c := by
  rw [evaluate] at h
  split at h
  · rename_i x y hx hy
    exact ⟨x, y, hx, hy, h⟩
  · cases h

theorem evaluate_keeps (h : Keeps a b) (e : Expr) {c : Int} (he : evaluate a e = .const c) :
    .const c ≤ evaluate b e := by
  fun_induction evaluate a e generalizing c with
  | case1 v hv =>
    rw [evaluate, if_pos hv]
    exact h v c he
  | case2 v hv => cases he
  | case3 n =>
    rw [evaluate]
    exact le_of_eq he.symm
  | case4 op l r x y hy hx ihl ihr =>
    rw [evaluate]
    rcases Value.const_le_iff.mp (ihl hx) with hl | hl
    · rcases Value.const_le_iff.mp (ihr hy) with hr | hr
      · rw [hl, hr]
        exact le_of_eq he.symm
      · rw [hl, hr]
        exact le_top
    · rw [hl]
      exact le_top
  | case5 => cases he
  | case6 => cases he

/-- A statement passes on what is known about a variable, or it sets the variable, which holds
integers, to its right side. -/
theorem transfer_passes {τ : Type} (s : Instr τ) (v : Var) :
    (∀ f : ConstMap, (transfer s f).get v = f.get v) ∨
      ∃ e, s.def? = some v ∧ s.value? = some e ∧ v.holdsInt = true ∧
        ∀ f : ConstMap, (transfer s f).get v = evaluate f e := by
  unfold transfer
  split
  · rename_i w e hw he
    by_cases hi : w.holdsInt = true
    · by_cases hv : w = v
      · subst hv
        exact Or.inr ⟨e, hw, he, hi, fun f => by simp [hi]⟩
      · exact Or.inl fun f => by simp [hi, hv]
    · exact Or.inl fun f => by simp [hi]
  · exact Or.inl fun f => rfl

theorem transfer_keeps {τ : Type} (h : Keeps a b) (s : Instr τ) :
    Keeps (transfer s a) (transfer s b) := by
  intro v c hc
  rcases transfer_passes s v with hp | ⟨e, _, _, _, hp⟩
  · rw [hp] at hc ⊢
    exact h v c hc
  · rw [hp] at hc ⊢
    exact evaluate_keeps h e hc

variable {t t' : FactTable ConstMap}

section Merged

variable {ns : List Node}

theorem get_foldl_merge_eq_const {fs : List ConstMap} {acc : ConstMap} {v : Var} {c : Int}
    (h : (fs.foldl (fun acc f => f.merge acc) acc).get v = .const c) :
    acc.get v = .const c ∨ ∃ f ∈ fs, f.get v = .const c := by
  induction fs generalizing acc with
  | nil => exact Or.inl h
  | cons f fs ih =>
    rcases ih h with hacc | ⟨f', hf', hc⟩
    · rw [ConstMap.get_merge] at hacc
      rcases Value.meet_eq_const hacc with hf | hacc
      · exact Or.inr ⟨f, List.mem_cons_self, hf⟩
      · exact Or.inl hacc
    · exact Or.inr ⟨f', List.mem_cons_of_mem f hf', hc⟩

/-- A constant that comes to a node is passed on by one of its neighbours. -/
theorem merged_eq_const {v : Var} {c : Int}
    (h : ((problem m).merged t .output ns).get v = .const c) :
    ∃ n ∈ ns, (t.look ∅ .output n).get v = .const c := by
  rcases get_foldl_merge_eq_const h with h | ⟨f, hf, hc⟩
  · cases h
  · obtain ⟨n, hn, rfl⟩ := List.mem_map.mp hf
    exact ⟨n, hn, hc⟩

theorem merged_keeps (h : ∀ n, Keeps (t.look ∅ .output n) (t'.look ∅ .output n)) :
    Keeps ((problem m).merged t .output ns) ((problem m).merged t' .output ns) := by
  intro v c hc
  obtain ⟨n, hn, hv⟩ := merged_eq_const hc
  exact le_trans (h n v c hv) ((joining m).le_merged hn v)

end Merged

section Run

variable {g : Cfg} {s s' : FactTable ConstMap} {order : Order}

open Problem

/-- Every constant of one table is below what another holds in its place. -/
def TableKeeps (t t' : FactTable ConstMap) : Prop :=
  ∀ side n, Keeps (t.look ∅ side n) (t'.look ∅ side n)

/-- Where less comes to a node, less stands around it afterwards. -/
theorem settled_keeps {n : Node} (h : TableKeeps t t')
    (hs : Settled (problem m) g ConstMap.get t s n)
    (hs' : Settled (problem m) g ConstMap.get t' s' n) (side : Side) :
    Keeps (s.look ∅ side n) (s'.look ∅ side n) := by
  have hin : Keeps (s.look ∅ .input n) (s'.look ∅ .input n) :=
    keeps_of_view_eq hs.input hs'.input (merged_keeps fun k => h .output k)
  cases side with
  | input => exact hin
  | output => exact keeps_of_view_eq hs.output hs'.output (transfer_keeps hin (n.instr m))

/-- What stands at the start of a run is kept by every table that starts from the same entry. -/
theorem start_keeps (h : ∀ side, t.look ∅ side .entry = boundary m) :
    TableKeeps ((problem m).startForward g).table t := by
  intro side n
  change Keeps (((problem m).startForward g).table.look (problem m).initial side n) _
  rw [look_startForward]
  split
  · rename_i he
    rw [he, h side]
    exact Keeps.refl _
  · exact keeps_empty _

/-- A constant that comes up in a run is below every solution of the equations. -/
theorem stateAt_keeps (hg : g.Closed) (ht : Solves (problem m) g ConstMap.get t) (order : Order)
    (i : Nat) : TableKeeps ((problem m).stateAt g order i).table t := by
  refine ((problem m).stateAt_induction hg (P := fun s => TableKeeps s.table t)
    (start_keeps ht.entry) ?_ order i).2
  intro s n rest hs hp h side k
  by_cases hk : k = n
  · subst hk
    obtain ⟨hn, he⟩ := hs.pending k (hp.subset List.mem_cons_self)
    exact settled_keeps h ((joining m).settled_visited g k rest s) (ht.settled k hn he) side
  · rw [look_visited_of_ne hk]
    exact h side k

/-- A constant that comes up in a run stays, or becomes a value that may vary. -/
theorem stateAt_keeps_later (hg : g.Closed) (order : Order) {i j : Nat} (h : i ≤ j) :
    TableKeeps ((problem m).stateAt g order i).table ((problem m).stateAt g order j).table := by
  induction i generalizing j with
  | zero => exact start_keeps (consistent_stateAt (joining m) hg order j).entry
  | succ i ihi =>
    rcases (problem m).stateAt_succ_cases g order i with ⟨_, he⟩ | ⟨n, rest, _, he⟩
    · rw [he]
      exact ihi (by omega)
    · have hset := he ▸ (joining m).settled_visited g n rest ((problem m).stateAt g order i)
      intro side k
      by_cases hk : k = n
      · subst hk
        -- the last visit to the node before `j` was passed no less than this one
        induction j, h using Nat.le_induction with
        | base => exact Keeps.refl _
        | succ j hj ihj =>
          rcases (problem m).stateAt_succ_cases g order j with ⟨_, he'⟩ | ⟨n', rest', _, he'⟩
          · rw [he']
            exact ihj
          · by_cases hk' : k = n'
            · subst hk'
              have hset' :=
                he' ▸ (joining m).settled_visited g k rest' ((problem m).stateAt g order j)
              exact settled_keeps (ihi (by omega)) hset hset' side
            · rw [he', look_visited_of_ne hk']
              exact ihj
      · rw [he, look_visited_of_ne hk]
        exact ihi (by omega) side k

section Tracked

/-- The most that can be known when only some variables are ever written. -/
def cap (vs : List Var) (v : Var) : Value :=
  if v ∈ vs then .nac else .undef

theorem le_cap_iff {vs : List Var} : a.get ≤ cap vs ↔ ∀ v, a.get v ≠ .undef → v ∈ vs := by
  constructor
  · intro h v hv
    by_contra hn
    exact hv (Value.le_undef_iff.mp (by simpa [cap, hn] using h v))
  · intro h v
    unfold cap
    split
    · exact le_top
    · rename_i hn
      exact Value.le_undef_iff.mpr (not_not.mp fun hv => hn (h v hv))

theorem get_boundary (m : Method) (v : Var) :
    (boundary m).get v = if v ∈ m.params then .nac else .undef := by
  suffices h : ∀ (ps : List Var) (f : ConstMap),
      (ps.foldl (fun f v => f.set v .nac) f).get v = if v ∈ ps then .nac else f.get v from
    h m.params ∅
  intro ps
  induction ps with
  | nil => simp
  | cons p ps ih =>
    intro f
    rw [List.foldl_cons, ih, ConstMap.get_set]
    by_cases hv : v ∈ ps
    · simp [hv]
    · simp [hv, eq_comm]

theorem transfer_le_cap {vs : List Var} {τ : Type} {i : Instr τ} (h : a.get ≤ cap vs)
    (hi : ∀ v, i.def? = some v → v ∈ vs) : (transfer i a).get ≤ cap vs := by
  refine le_cap_iff.mpr fun v hv => ?_
  rcases transfer_passes i v with hp | ⟨e, hd, _, _, _⟩
  · rw [hp] at hv
    exact le_cap_iff.mp h v hv
  · exact hi v hd

theorem instr_def_tracked {n : Node} {v : Var} (h : (n.instr m).def? = some v) :
    v ∈ m.tracked := by
  rcases n.instr_cases m with hn | ⟨s, hs, hn⟩
  · rw [hn] at h
    cases h
  · rw [hn] at h
    exact List.mem_append_right _ (List.mem_filterMap.mpr ⟨s, hs, h⟩)

theorem cap_confines (m : Method) :
    (problem m).Confines ConstMap.get (Set.Iic (cap m.tracked)) where
  toJoining := joining m
  bot_mem := Set.mem_Iic.mpr bot_le
  sup_mem hx hy := Set.mem_Iic.mpr (sup_le hx hy)
  boundary_mem := by
    apply le_cap_iff.mpr
    intro v hv
    apply List.mem_append_left
    by_contra hn
    exact hv ((get_boundary m v).trans (if_neg hn))
  transfer_mem n a h := transfer_le_cap h fun v hv => instr_def_tracked hv

/-- Nothing is ever known about a variable that is no parameter and that no statement sets. -/
theorem stateAt_le_cap (hg : g.Closed) (order : Order) (i : Nat) (side : Side) (n : Node) :
    (((problem m).stateAt g order i).table.look ∅ side n).get ≤ cap m.tracked :=
  (cap_confines m).stateAt_within hg order i side n

end Tracked

end Run

end ConstProp

end MethodFlow
