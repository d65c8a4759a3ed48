import MethodFlow.Proofs.StaticRules

/-!
Declarations make scopes grow by the names they declare; their check is decided by whether the
names are new and the types are types.
-/

namespace MethodFlow.Source

variable {α : Type} {f g : Scope → Checked Scope} {xs ys : List (List Char)} {P Q : Prop}

/-- A step that declares some names one after the other, if a rule holds. -/
structure Declares (f : Scope → Checked Scope) (xs : List (List Char)) (P : Prop) : Prop where
  grows : ∀ s s', f s = .ok s' → s <+: s'
  adds : ∀ s s', f s = .ok s' → s'.map Var.name = s.map Var.name ++ xs.map String.ofList
  decides : ∀ (s : Scope) ns, s.map Var.name = ns.map String.ofList → ns.Nodup →
    Decides (f s) ((ns ++ xs).Nodup ∧ P) True

theorem declares_nothing : Declares (fun s => .ok s) [] True := by
  refine ⟨fun s s' h => ?_, fun s s' h => ?_, fun s ns _ hnodup => ?_⟩
  · cases h
    exact List.prefix_rfl
  · cases h
    exact (List.append_nil _).symm
  · refine (decides_ok s).congr (iff_of_true trivial ⟨?_, trivial⟩) Iff.rfl
    rwa [List.append_nil]

theorem declares_var (p : Pos) (x : List Char) (ty : Ty) :
    Declares (fun s => s.declare p ⟨String.ofList x, ty⟩) [x] True := by
  have hok : ∀ (s s' : Scope), s.declare p ⟨String.ofList x, ty⟩ = .ok s' →
      s' = s ++ [⟨String.ofList x, ty⟩] := by
    intro s s' h
    unfold Scope.declare at h
    split at h
    · cases h
    · cases h
      rfl
  refine ⟨fun s s' h => ?_, fun s s' h => ?_, fun s ns hs hnodup => ?_⟩
  · exact hok s s' h ▸ List.prefix_append s _
  · rw [hok s s' h, List.map_append]
    rfl
  · have hmem : String.ofList x ∈ s.map Var.name ↔ x ∈ ns := by
      rw [hs]
      exact List.mem_map_of_injective fun _ _ => String.ofList_injective
    have hrule : (ns ++ [x]).Nodup ∧ True ↔ x ∉ ns := by
      rw [and_true, ← List.concat_eq_append, List.nodup_concat]
      exact and_iff_left hnodup
    refine Decides.congr ?_ hrule.symm Iff.rfl
    rw [← hmem]
    unfold Scope.declare
    split
    · rename_i hsome
      refine (decides_reject rfl p).congr (iff_of_false id fun hnew => ?_) Iff.rfl
      rw [Scope.named?_eq_none.mpr hnew] at hsome
      cases hsome
    · rename_i hnone
      refine (decides_ok _).congr (iff_of_true trivial ?_) Iff.rfl
      exact Scope.named?_eq_none.mp (Option.not_isSome_iff_eq_none.mp hnone)

/-- Declarations one after the other. -/
theorem Declares.andThen (hf : Declares f xs P) (hg : Declares g ys Q) :
    Declares (fun s => f s >>= g) (xs ++ ys) (P ∧ Q) := by
  refine ⟨fun s s' h => ?_, fun s s' h => ?_, fun s ns hs hnodup => ?_⟩
  · obtain ⟨s₁, h₁, h⟩ := Attempt.bind_eq_ok.mp h
    exact (hf.grows s s₁ h₁).trans (hg.grows s₁ s' h)
  · obtain ⟨s₁, h₁, h⟩ := Attempt.bind_eq_ok.mp h
    rw [hg.adds s₁ s' h, hf.adds s s₁ h₁, List.append_assoc, List.map_append]
  · have hfirst := hf.decides s ns hs hnodup
    refine Decides.congr (hfirst.bind fun s₁ h₁ => hg.decides s₁ (ns ++ xs) ?_ ?_) ?_ and_self_iff
    · rw [hf.adds s s₁ h₁, hs, List.map_append]
    · exact (hfirst.exists_iff.mp ⟨s₁, h₁⟩).1
    · rw [List.append_assoc]
      refine ⟨fun h => ⟨h.2.1, h.1.2, h.2.2⟩, fun h => ⟨⟨?_, h.2.1⟩, h.1, h.2.2⟩⟩
      rw [← List.append_assoc] at h
      exact h.1.of_append_left

/-- A declaration behind the check of its type. -/
theorem Declares.behind {x : Checked α} {h : α → Scope → Checked Scope} (hx : Decides x P True)
    (hf : ∀ a, Declares (h a) xs Q) : Declares (fun s => x >>= fun a => h a s) xs (P ∧ Q) := by
  refine ⟨fun s s' h => ?_, fun s s' h => ?_, fun s ns hs hnodup => ?_⟩
  · obtain ⟨a, _, h⟩ := Attempt.bind_eq_ok.mp h
    exact (hf a).grows s s' h
  · obtain ⟨a, _, h⟩ := Attempt.bind_eq_ok.mp h
    exact (hf a).adds s s' h
  · exact (hx.bind fun a _ => (hf a).decides s ns hs hnodup).congr and_left_comm and_self_iff

theorem Declares.congr (hf : Declares f xs P) (hP : P ↔ Q) : Declares f xs Q :=
  ⟨hf.grows, hf.adds, fun s ns hs hnodup =>
    (hf.decides s ns hs hnodup).congr (and_congr_right fun _ => hP) Iff.rfl⟩

/-- A name of a type that there is. -/
def TypeName.IsMeant (t : TypeName) : Prop :=
  Ty.ofText? t.text ≠ none

theorem TypeName.decides_isMeant (t : TypeName) (p : Pos) :
    Decides (t.meaning p) t.IsMeant True := by
  unfold meaning IsMeant
  split
  · rename_i ty hty
    exact (decides_ok ty).congr (iff_of_true trivial (by rw [hty]; exact nofun)) Iff.rfl
  · rename_i hnone
    exact (decides_reject rfl p).congr (iff_of_false id (not_not_intro hnone)) Iff.rfl

theorem declares_param (p : Pos) (x : Param) :
    Declares (fun s => x.declare s p) [x.name] x.type.IsMeant :=
  (Declares.behind (x.type.decides_isMeant p) fun ty => declares_var _ x.name ty).congr
    (and_iff_left trivial)

theorem declares_params (xs : List (Pos × Param)) : Declares (fun s => declareParams s xs)
    (xs.map fun x => x.2.name) (∀ x ∈ xs, x.2.type.IsMeant) := by
  induction xs with
  | nil => exact declares_nothing.congr (iff_of_true trivial (List.forall_mem_nil _))
  | cons x xs ih =>
    refine ((declares_param x.1 x.2).andThen ih).congr ?_
    rw [List.forall_mem_cons]

theorem declares_all (ty : Ty) (xs : List (Pos × List Char)) :
    Declares (fun s => declareAll ty s xs) (xs.map Prod.snd) True := by
  induction xs with
  | nil => exact declares_nothing
  | cons x xs ih => exact ((declares_var x.1 x.2 ty).andThen ih).congr (and_self_iff)

theorem declares_varDecl (p : Pos) (d : VarDecl) :
    Declares (fun s => d.declare s p) d.names.items d.type.IsMeant := by
  refine (Declares.behind (d.type.decides_isMeant p) fun ty => ?_).congr (and_iff_left trivial)
  rw [Listed.items, ← placed_items id (p.after d.head)]
  exact declares_all ty _

theorem declares_vars (p : Pos) (ds : List VarDecl) : Declares (fun s => declareVars s p ds)
    (ds.flatMap fun d => d.names.items) (∀ d ∈ ds, d.type.IsMeant) := by
  induction ds generalizing p with
  | nil => exact declares_nothing.congr (iff_of_true trivial (List.forall_mem_nil _))
  | cons d ds ih =>
    refine ((declares_varDecl p d).andThen (ih (p.after d.text))).congr ?_
    rw [List.forall_mem_cons]

end MethodFlow.Source
