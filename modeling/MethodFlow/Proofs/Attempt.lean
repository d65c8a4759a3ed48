import Mathlib.Data.List.Forall2

/-!
Computations that may fail, one after the other and over lists: when they come to a result, and
which one.
-/

namespace MethodFlow.Attempt

variable {ε α β : Type}

theorem bind_eq_ok {x : Except ε α} {f : α → Except ε β} {b : β} :
    x >>= f = .ok b ↔ ∃ a, x = .ok a ∧ f a = .ok b := by
  cases x with
  | error e => simp [bind, Except.bind]
  | ok a => simp [bind, Except.bind]

theorem bind_eq_error {x : Except ε α} {f : α → Except ε β} {e : ε} :
    x >>= f = .error e ↔ x = .error e ∨ ∃ a, x = .ok a ∧ f a = .error e := by
  cases x with
  | error e => simp [bind, Except.bind]
  | ok a => simp [bind, Except.bind]

theorem mapError_eq_ok {δ : Type} {x : Except ε α} {f : ε → δ} {a : α} :
    x.mapError f = .ok a ↔ x = .ok a := by
  cases x with
  | error e => simp [Except.mapError]
  | ok b => simp [Except.mapError]

@[simp] theorem ok_bind {a : α} {f : α → Except ε β} : (Except.ok a >>= f) = f a := rfl

@[simp] theorem pure_eq_ok (a : α) : (pure a : Except ε α) = .ok a := rfl

/-- Steps one after the other fail where one of them does. -/
theorem exists_of_foldlM_eq_error {f : β → α → Except ε β} {xs : List α} {b : β} {e : ε}
    (h : xs.foldlM f b = .error e) : ∃ x ∈ xs, ∃ b', f b' x = .error e := by
  induction xs generalizing b with
  | nil => cases h
  | cons x xs ih =>
    rw [List.foldlM_cons] at h
    rcases bind_eq_error.mp h with hx | ⟨b', _, hxs⟩
    · exact ⟨x, List.mem_cons_self, b, hx⟩
    · obtain ⟨y, hy, hf⟩ := ih hxs
      exact ⟨y, List.mem_cons_of_mem x hy, hf⟩

theorem mapM_eq_ok {f : α → Except ε β} {xs : List α} {ys : List β} :
    xs.mapM f = .ok ys ↔ List.Forall₂ (fun x y => f x = .ok y) xs ys := by
  induction xs generalizing ys with
  | nil =>
    rw [List.mapM_nil, List.forall₂_nil_left_iff, pure_eq_ok, Except.ok.injEq, eq_comm]
  | cons x xs ih =>
    rw [List.mapM_cons, bind_eq_ok, List.forall₂_cons_left_iff]
    constructor
    · rintro ⟨y, hy, h⟩
      obtain ⟨zs, hzs, h⟩ := bind_eq_ok.mp h
      cases h
      exact ⟨y, zs, hy, ih.mp hzs, rfl⟩
    · rintro ⟨y, zs, hy, hzs, rfl⟩
      exact ⟨y, hy, bind_eq_ok.mpr ⟨zs, ih.mpr hzs, rfl⟩⟩

theorem mem_of_mapM {f : α → Except ε β} {xs : List α} {ys : List β} (h : xs.mapM f = .ok ys)
    {y : β} (hy : y ∈ ys) : ∃ x ∈ xs, f x = .ok y := by
  induction mapM_eq_ok.mp h with
  | nil => cases hy
  | cons hx _ ih =>
    rcases List.mem_cons.mp hy with rfl | hy
    · exact ⟨_, List.mem_cons_self, hx⟩
    · obtain ⟨x, hm, hf⟩ := ih (mapM_eq_ok.mpr ‹_›) hy
      exact ⟨x, List.mem_cons_of_mem _ hm, hf⟩

/-- Where each value is a function of its argument, so is the list of them. -/
theorem mapM_eq_ok_map {f : α → Except ε β} {P : α → Prop} {h : α → β}
    (hf : ∀ x y, f x = .ok y ↔ P x ∧ y = h x) {xs : List α} {ys : List β} :
    xs.mapM f = .ok ys ↔ (∀ x ∈ xs, P x) ∧ ys = xs.map h := by
  rw [mapM_eq_ok]
  induction xs generalizing ys with
  | nil => simp
  | cons x xs ih =>
    rw [List.forall₂_cons_left_iff, List.forall_mem_cons, List.map_cons]
    constructor
    · rintro ⟨y, zs, hy, hzs, rfl⟩
      obtain ⟨hx, rfl⟩ := (hf x y).mp hy
      obtain ⟨hxs, rfl⟩ := ih.mp hzs
      exact ⟨⟨hx, hxs⟩, rfl⟩
    · rintro ⟨⟨hx, hxs⟩, rfl⟩
      exact ⟨h x, xs.map h, (hf x (h x)).mpr ⟨hx, rfl⟩, ih.mpr ⟨hxs, rfl⟩, rfl⟩

section Pairs

variable {γ : Type} {R : α → β → Prop} {S : β → γ → Prop} {T : α → γ → Prop} {xs : List α}
  {ys : List β} {zs : List γ}

/-- Lists that are related to a third one, in pairs, are related to each other. -/
theorem forall₂_trans (hxy : List.Forall₂ R xs ys) (hyz : List.Forall₂ S ys zs)
    (h : ∀ x y z, R x y → S y z → T x z) : List.Forall₂ T xs zs := by
  induction hxy generalizing zs with
  | nil =>
    cases hyz
    exact .nil
  | cons hx _ ih =>
    cases hyz with
    | cons hy hyz => exact .cons (h _ _ _ hx hy) (ih hyz)

theorem forall_mem_iff_of_forall₂ {P : α → Prop} {Q : β → Prop} (hxy : List.Forall₂ R xs ys)
    (h : ∀ x y, R x y → (P x ↔ Q y)) : (∀ x ∈ xs, P x) ↔ ∀ y ∈ ys, Q y := by
  induction hxy with
  | nil => exact iff_of_true (List.forall_mem_nil P) (List.forall_mem_nil Q)
  | cons hx _ ih => rw [List.forall_mem_cons, List.forall_mem_cons, h _ _ hx, ih]

theorem forall_mem_of_forall₂ {Q : β → Prop} (hxy : List.Forall₂ R xs ys)
    (h : ∀ x y, R x y → Q y) : ∀ y ∈ ys, Q y :=
  (forall_mem_iff_of_forall₂ (P := fun _ => True) hxy fun x y hR =>
    iff_of_true trivial (h x y hR)).mp fun _ _ => trivial

end Pairs

section Side

variable {x : Except ε α} {y : Except ε β} {R : α → β → Prop}

/-- Two computations that both fail, or that both come to results which go together. -/
structure Likewise (R : α → β → Prop) (x : Except ε α) (y : Except ε β) : Prop where
  forth : ∀ a, x = .ok a → ∃ b, y = .ok b ∧ R a b
  back : ∀ b, y = .ok b → ∃ a, x = .ok a ∧ R a b

theorem likewise_ok {a : α} {b : β} (h : R a b) :
    Likewise R (.ok a : Except ε α) (.ok b) := by
  refine ⟨fun a' ha => ⟨b, rfl, ?_⟩, fun b' hb => ⟨a, rfl, ?_⟩⟩
  · cases ha
    exact h
  · cases hb
    exact h

theorem likewise_error {e e' : ε} : Likewise R (.error e) (.error e') :=
  ⟨nofun, nofun⟩

theorem likewise_refl (x : Except ε α) : Likewise Eq x x :=
  ⟨fun a ha => ⟨a, ha, rfl⟩, fun a ha => ⟨a, ha, rfl⟩⟩

/-- Computations that fail behind a first step, however that ends. -/
theorem likewise_error_behind {γ δ : Type} {z : Except ε γ} {z' : Except ε δ} {f : γ → ε}
    {g : δ → ε} :
    Likewise R (z >>= fun c => .error (f c)) (z' >>= fun d => .error (g d)) := by
  cases z <;> cases z' <;> exact likewise_error

theorem Likewise.mono {S : α → β → Prop} (h : Likewise R x y) (hS : ∀ a b, R a b → S a b) :
    Likewise S x y := by
  refine ⟨fun a ha => ?_, fun b hb => ?_⟩
  · obtain ⟨b, hb, hR⟩ := h.forth a ha
    exact ⟨b, hb, hS a b hR⟩
  · obtain ⟨a, ha, hR⟩ := h.back b hb
    exact ⟨a, ha, hS a b hR⟩

/-- Computations that go on alike from results that go together. -/
theorem Likewise.bind {γ δ : Type} {f : α → Except ε γ} {g : β → Except ε δ} {T : γ → δ → Prop}
    (h : Likewise R x y) (hf : ∀ a b, R a b → Likewise T (f a) (g b)) :
    Likewise T (x >>= f) (y >>= g) := by
  refine ⟨fun c hc => ?_, fun d hd => ?_⟩
  · obtain ⟨a, ha, hc⟩ := bind_eq_ok.mp hc
    obtain ⟨b, hb, hR⟩ := h.forth a ha
    obtain ⟨d, hd, hT⟩ := (hf a b hR).forth c hc
    exact ⟨d, bind_eq_ok.mpr ⟨b, hb, hd⟩, hT⟩
  · obtain ⟨b, hb, hd⟩ := bind_eq_ok.mp hd
    obtain ⟨a, ha, hR⟩ := h.back b hb
    obtain ⟨c, hc, hT⟩ := (hf a b hR).back d hd
    exact ⟨c, bind_eq_ok.mpr ⟨a, ha, hc⟩, hT⟩

theorem none_or_some_of_iff {γ δ : Type} {o : Option γ} {o' : Option δ}
    (h : o = none ↔ o' = none) : o = none ∧ o' = none ∨ ∃ c d, o = some c ∧ o' = some d := by
  cases o with
  | none => exact .inl ⟨rfl, h.mp rfl⟩
  | some c =>
    cases o' with
    | none => cases h.mpr rfl
    | some d => exact .inr ⟨c, d, rfl, rfl⟩

/-- Computations that go on alike from the same result. -/
theorem Likewise.bindEq {γ δ : Type} {y : Except ε α} {f : α → Except ε γ} {g : α → Except ε δ}
    {T : γ → δ → Prop} (h : Likewise Eq x y) (hf : ∀ a, Likewise T (f a) (g a)) :
    Likewise T (x >>= f) (y >>= g) :=
  h.bind fun a _ hb => hb ▸ hf a

theorem likewise_mapM {γ δ : Type} {f : α → Except ε γ} {g : β → Except ε δ} {T : γ → δ → Prop}
    {xs : List α} {ys : List β} (h : List.Forall₂ R xs ys)
    (hf : ∀ a b, R a b → Likewise T (f a) (g b)) :
    Likewise (List.Forall₂ T) (xs.mapM f) (ys.mapM g) := by
  induction h with
  | nil => exact likewise_ok .nil
  | cons hR _ ih =>
    rw [List.mapM_cons, List.mapM_cons]
    refine (hf _ _ hR).bind fun c d hT => ih.bind fun cs ds hTs => ?_
    exact likewise_ok (.cons hT hTs)

end Side

end MethodFlow.Attempt
