import MethodFlow.Proofs.LongNumbers
import MethodFlow.Proofs.ParsedStatements

/-!
Printing and reading are inverse: a method that is read from a text is read back from its own text.
-/

namespace MethodFlow.Source

open Reader

section Declarations

variable {s s' : Scope} {p : Pos} {v : Var}

theorem Scope.isLegible_nil : Scope.IsLegible [] :=
  ⟨by simp, by simp, List.nodup_nil⟩

/-- A scope grows at its end, and stays legible. -/
def Scope.GrowsTo (s s' : Scope) : Prop :=
  s <+: s' ∧ (s.IsLegible → s'.IsLegible)

theorem Scope.GrowsTo.refl (s : Scope) : s.GrowsTo s :=
  ⟨List.prefix_rfl, id⟩

theorem Scope.GrowsTo.trans {s'' : Scope} (h : s.GrowsTo s') (h' : s'.GrowsTo s'') :
    s.GrowsTo s'' :=
  ⟨h.1.trans h'.1, h'.2 ∘ h.2⟩

theorem Scope.growsTo_of_declare (hname : IsName v.name.toList) (hty : v.ty.IsLegible)
    (h : s.declare p v = .ok s') : s.GrowsTo s' := by
  unfold Scope.declare at h
  split at h
  · cases h
  · rename_i hnone
    cases h
    refine ⟨List.prefix_append s [v], fun hs => ⟨?_, ?_, ?_⟩⟩
    · rw [List.forall_mem_append, List.forall_mem_singleton]
      exact ⟨hs.names, hname⟩
    · rw [List.forall_mem_append, List.forall_mem_singleton]
      exact ⟨hs.types, hty⟩
    · have hnew : v.name ∉ s.map Var.name :=
        Scope.named?_eq_none.mp (Option.not_isSome_iff_eq_none.mp hnone)
      rw [List.map_append, List.map_singleton, List.nodup_append]
      refine ⟨hs.distinct, List.nodup_singleton _, ?_⟩
      intro x hx y hy hxy
      rw [hxy, List.mem_singleton.mp hy] at hx
      exact hnew hx

/-- A declaration that lets scopes grow. -/
def Param.Grows (x : Param) : Prop :=
  ∀ (s : Scope) p s', x.declare s p = .ok s' → s.GrowsTo s'

def VarDecl.Grows (d : VarDecl) : Prop :=
  ∀ (s : Scope) p s', d.declare s p = .ok s' → s.GrowsTo s'

theorem tells_param : Tells param fun x => x.type.isBare = true → x.Grows := by
  refine tells_typeName.bind fun x => tells_past_gap1 fun _ => tells_name.bind fun y => ?_
  refine tells_pure ?_
  intro hy hx hbare s p s' h
  obtain ⟨t, ht, h⟩ := Attempt.bind_eq_ok.mp h
  refine Scope.growsTo_of_declare ?_ (hx hbare _ t ht) h
  rw [String.toList_ofList]
  exact hy

theorem growsTo_of_declareParams {xs : List (Pos × Param)} (hxs : ∀ x ∈ xs, x.2.Grows)
    (h : declareParams s xs = .ok s') : s.GrowsTo s' := by
  induction xs generalizing s with
  | nil =>
    cases h
    exact .refl _
  | cons x xs ih =>
    obtain ⟨hx, hxs⟩ := List.forall_mem_cons.mp hxs
    obtain ⟨s₁, h₁, h⟩ := Attempt.bind_eq_ok.mp h
    exact (hx s x.1 s₁ h₁).trans (ih hxs h)

theorem growsTo_of_declareAll {t : Ty} (ht : t.IsLegible) {xs : List (Pos × List Char)}
    (hxs : ∀ x ∈ xs, IsName x.2) (h : declareAll t s xs = .ok s') : s.GrowsTo s' := by
  induction xs generalizing s with
  | nil =>
    cases h
    exact .refl _
  | cons x xs ih =>
    obtain ⟨hx, hxs⟩ := List.forall_mem_cons.mp hxs
    obtain ⟨s₁, h₁, h⟩ := Attempt.bind_eq_ok.mp h
    refine (Scope.growsTo_of_declare ?_ ht h₁).trans (ih hxs h)
    rw [String.toList_ofList]
    exact hx

theorem tells_varDecl : Tells varDecl fun d => d.type.isBare = true → d.Grows := by
  refine tells_typeName.bind fun x => tells_past_gap1 fun _ => ?_
  refine (tells_listed tells_name).bind fun ys => tells_past_gap fun _ => tells_mark rfl ?_
  refine tells_past_gap fun _ => tells_pure ?_
  intro hys hx hbare s p s' h
  obtain ⟨t, ht, h⟩ := Attempt.bind_eq_ok.mp h
  exact growsTo_of_declareAll (hx hbare _ t ht) (forall_placed hys _) h

theorem growsTo_of_declareVars {ds : List VarDecl} (hds : ∀ d ∈ ds, d.Grows)
    (h : declareVars s p ds = .ok s') : s.GrowsTo s' := by
  induction ds generalizing s p with
  | nil =>
    cases h
    exact .refl _
  | cons d ds ih =>
    obtain ⟨hd, hds⟩ := List.forall_mem_cons.mp hds
    obtain ⟨s₁, h₁, h⟩ := Attempt.bind_eq_ok.mp h
    exact (hd s p s₁ h₁).trans (ih hds h)

end Declarations

section Methods

variable {p : Pos} {m : Method}

def Params.types (ps : Params) : List TypeName :=
  (ps.list.first :: ps.list.rest.map Later.item).map Param.type

/-- The names of types in a declaration of a method. -/
def MethodDecl.types (d : MethodDecl) : List TypeName :=
  d.type :: (d.params.elim [] Params.types ++ d.decls.map VarDecl.type ++
    d.items.flatMap Item.types)

def Program.types (x : Program) : List TypeName :=
  x.methods.flatMap MethodDecl.types

def MethodDecl.MeansLegible (d : MethodDecl) : Prop :=
  (∀ t ∈ d.types, t.isBare = true) → ∀ p m, d.meaning p = .ok m → m.IsLegible

theorem tells_methodDecl : Tells methodDecl MethodDecl.MeansLegible := by
  have hparams : Tells params fun ps =>
      ∀ x ∈ ps.list.first :: ps.list.rest.map Later.item, x.type.isBare = true → x.Grows :=
    (tells_listed tells_param).bind fun _ => tells_past_gap fun _ => tells_pure id
  refine tells_mark rfl (tells_past_gap1 fun _ => tells_typeName.bind fun ret => ?_)
  refine tells_past_gap1 fun _ => tells_name.bind fun x => ?_
  refine tells_past_gap fun _ => tells_mark rfl (tells_past_gap fun _ => ?_)
  refine hparams.optional.bind fun ps => tells_mark rfl (tells_past_gap fun _ => ?_)
  refine tells_mark rfl (tells_past_gap fun _ => tells_varDecl.many.bind fun ds => ?_)
  refine tells_item.many.bind fun is => tells_mark rfl (tells_past_gap fun _ => tells_pure ?_)
  intro his hds hps hx hret hbare p m hm
  obtain ⟨hbret, hbare⟩ := List.forall_mem_cons.mp hbare
  rw [List.forall_mem_append, List.forall_mem_append] at hbare
  obtain ⟨⟨hbps, hbds⟩, hbis⟩ := hbare
  obtain ⟨t, vs, s, l, xs, ht, hvs, hs, hl, hxs, rfl⟩ := MethodDecl.parts_of_meaning hm
  have hparams : Scope.GrowsTo [] vs := by
    cases ps with
    | none =>
      cases hvs
      exact .refl _
    | some ps =>
      have hbare' := List.forall_mem_map.mp hbps
      refine growsTo_of_declareParams (forall_placed ?_ _) hvs
      exact fun x hx => hps ps rfl x hx (hbare' x hx)
  have hbare' := List.forall_mem_map.mp hbds
  have hvars := growsTo_of_declareVars (fun d hd => hds d hd (hbare' d hd)) hs
  have hlegible := hvars.2 (hparams.2 Scope.isLegible_nil)
  have hscope : Method.scopeOf vs s = s := by
    obtain ⟨ws, rfl⟩ := hvars.1
    exact scopeOf_append hlegible.distinct.of_map
  have hempty : Layout.empty.IsLegible s := ⟨by simp [Layout.empty], by simp [Layout.empty]⟩
  have hbody := (hempty.ofItems his hbis hl).body hxs
  rw [Method.make, hscope]
  refine ⟨?_, hret hbret _ t ht, hvars.1, hlegible, hbody⟩
  rw [String.toList_ofList]
  exact hx

theorem tells_program : Tells program fun x => ∀ d ∈ x.methods, d.MeansLegible :=
  tells_past_gap fun _ => tells_methodDecl.many.bind fun _ => tells_pure id

/-- A method that is read from a text is legible, if there are no comments in the type names of the
text. -/
theorem isLegible_of_parse {text : String} {ms : List Method} (h : parse text = .ok ms)
    (hbare : ∀ t ∈ (Program.ofText text.toList).1.types, t.isBare = true) (hm : m ∈ ms) :
    m.IsLegible := by
  obtain ⟨hrest, d, hd, p, hmeaning⟩ := mem_readText (mem_of_parse h hm)
  have hread : program text.toList = some ((Program.ofText text.toList).1, []) := by
    cases hprogram : program text.toList with
    | none =>
      rw [Program.ofText, hprogram] at hd
      cases hd
    | some y =>
      rw [Program.ofText, hprogram] at hrest ⊢
      rw [Option.getD_some] at hrest ⊢
      rw [← hrest]
  have hmeans := (tells_program _ _ _ hread native_nil).1 d hd
  refine hmeans (fun t ht => hbare t ?_) p m hmeaning
  exact List.mem_flatMap.mpr ⟨d, hd, ht⟩

/-- The largest number of 3572 hexadecimal digits; it has 4302 decimal ones. -/
@[irreducible]
def longNumber : Nat :=
  16 ^ 3572 - 1

def longHex : Digits :=
  .hex 'x' (List.replicate 3572 'F')

def sampleText : String :=
  "method int f(int[] a) \x7b int x; L: x = a[-1]; if (x != 7) goto L; return x; \x7d"

/-- What is read of `sampleText`. -/
def sample : Method :=
  let a : Var := ⟨"a", .array (.prim .int)⟩
  let x : Var := ⟨"x", .prim .int⟩
  ⟨"f", [a], .prim .int, [a, x],
    [⟨.assign (.var x) (.element (.var a) (.int (-1))), 1⟩,
      ⟨.branch (.bin .ne (.var x) (.int 7)) (.stmt 0), 1⟩,
      ⟨.ret (some (.var x)), 1⟩]⟩

set_option maxRecDepth 20000 in
example : sample.written = .ok ("method int f(int[] a) \x7b int x; L0: x = a[-1];" ++
    "L1: if (x != 7) goto L0;L2: return x; \x7d") := by cbv

end Methods

end MethodFlow.Source
