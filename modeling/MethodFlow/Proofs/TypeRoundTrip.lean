import MethodFlow.Proofs.TypeText

/-!
The texts of types: a type is read off its own text, and any text at all is read as a type whose
text it is, spacing apart. The only texts that are no types are those of arrays of `void`.
-/

namespace MethodFlow.Ty

open Source

/-- Types whose texts name no other type: the names of their classes hold no spacing, do not end in
brackets and are names of classes only, and no array has `void` in it. -/
inductive IsReadable : Ty → Prop
  | prim (p : Prim) : IsReadable (prim p)
  | void : IsReadable void
  | object {x : String} (solid : ∀ c ∈ x.toList, Text.isSpacing c = false)
    (unbracketed : Unbracketed x.toList) (notVoid : x ≠ "void")
    (notPrim : ∀ p : Prim, x ≠ p.name) : IsReadable (object x)
  | array {t : Ty} (h : t.IsReadable) (notVoid : t ≠ Ty.void) : IsReadable (array t)

/-- A type that is the type of its own name, which has neither spacing nor brackets at its end. -/
structure IsNamed (t : Ty) : Prop where
  named : ofName t.render = t
  unbracketed : Unbracketed t.render.toList
  solid : ∀ c ∈ t.render.toList, Text.isSpacing c = false

variable {t : Ty} {s : String}

theorem isNamed_of_isTypeChar (h : t.render.toList.all isTypeChar = true)
    (named : ofName t.render = t) : IsNamed t where
  named := named
  unbracketed := unbracketed_of_notMem fun hmem => nomatch List.all_eq_true.mp h _ hmem
  solid c hc := isSpacing_of_isTypeChar (List.all_eq_true.mp h c hc)

theorem isNamed_prim (p : Prim) : IsNamed (prim p) := by
  cases p <;> exact isNamed_of_isTypeChar rfl rfl

theorem isNamed_void : IsNamed void :=
  isNamed_of_isTypeChar rfl rfl

/-- A readable type consists of arrays of a named type, which is not `void` if there are any. -/
theorem IsReadable.exists_named (h : t.IsReadable) :
    ∃ b n, t = arrays n b ∧ b.IsNamed ∧ (b = Ty.void → n = 0) := by
  induction h with
  | prim p => exact ⟨.prim p, 0, rfl, isNamed_prim p, fun _ => rfl⟩
  | void => exact ⟨.void, 0, rfl, isNamed_void, fun _ => rfl⟩
  | @object x solid unbracketed notVoid notPrim =>
    obtain ⟨y, hy⟩ := exists_ofName_eq_object.mpr ⟨notVoid, notPrim⟩
    have hname : y = x := by
      rw [← render_ofName x, hy, render]
    rw [hname] at hy
    exact ⟨.object x, 0, rfl, ⟨hy, unbracketed, solid⟩, fun _ => rfl⟩
  | array _ notVoid ih =>
    obtain ⟨b, n, rfl, hb, hvoid⟩ := ih
    refine ⟨b, n + 1, rfl, hb, fun hv => ?_⟩
    rw [hvoid hv, hv] at notVoid
    exact absurd rfl notVoid

theorem isSpacing_of_mem_emptyBrackets {n : Nat} {c : Char} (h : c ∈ emptyBrackets n) :
    Text.isSpacing c = false := by
  obtain ⟨l, hl, hc⟩ := List.mem_flatten.mp h
  rw [List.eq_of_mem_replicate hl, List.mem_pair] at hc
  rcases hc with rfl | rfl <;> rfl

theorem IsReadable.parse?_render (h : t.IsReadable) : parse? t.render = some t := by
  obtain ⟨b, n, rfl, hb, hvoid⟩ := h.exists_named
  have hsqueeze : Text.squeeze (arrays n b).render.toList = b.render.toList ++ emptyBrackets n := by
    rw [render_arrays]
    refine List.filter_eq_self.mpr fun c hc => ?_
    rcases List.mem_append.mp hc with hc | hc
    · rw [hb.solid c hc]
      rfl
    · rw [isSpacing_of_mem_emptyBrackets hc]
      rfl
  rw [parse?, ofText?_of_squeeze hb.unbracketed hsqueeze, String.ofList_toList, hb.named]
  cases b with
  | void => rw [hvoid rfl, if_pos rfl, arrays]
  | _ => rfl

theorem append_stripBrackets (cs : List Char) :
    (stripBrackets cs).2.reverse ++ emptyBrackets (stripBrackets cs).1 = cs.reverse ∧
      Unbracketed (stripBrackets cs).2.reverse := by
  fun_induction stripBrackets cs with
  | case1 r n base h ih =>
    rw [h] at ih
    rw [emptyBrackets_succ_append, ← List.append_assoc, ih.1]
    exact ⟨by simp, ih.2⟩
  | case2 r h =>
    refine ⟨List.append_nil _, fun hs => ?_⟩
    obtain ⟨pre, hpre⟩ := hs
    refine h pre.reverse ?_
    rw [← List.reverse_reverse r, ← hpre]
    simp

/-- Every text is a text that does not end in brackets, and pairs of brackets. -/
theorem exists_unbracketed (cs : List Char) :
    ∃ base n, Unbracketed base ∧ cs = base ++ emptyBrackets n := by
  obtain ⟨heq, hbase⟩ := append_stripBrackets cs.reverse
  exact ⟨_, _, hbase, (heq.trans (List.reverse_reverse cs)).symm⟩

theorem parse?_eq_none_iff :
    parse? s = none ↔ ∃ n, Text.squeeze s.toList = "void".toList ++ emptyBrackets (n + 1) := by
  constructor
  · intro h
    obtain ⟨base, n, hbase, hs⟩ := exists_unbracketed (Text.squeeze s.toList)
    rw [parse?, ofText?_of_squeeze hbase hs] at h
    split at h
    · rename_i hname
      have hn : n ≠ 0 := by
        rintro rfl
        cases h
      obtain ⟨k, rfl⟩ := Nat.exists_eq_succ_of_ne_zero hn
      rw [hs, ← ofName_eq_void.mp hname, String.toList_ofList]
      exact ⟨k, rfl⟩
    · cases h
  · rintro ⟨n, hs⟩
    rw [parse?, ofText?_of_squeeze isNamed_void.unbracketed hs]
    rfl

theorem render_of_parse? (h : parse? s = some t) : t.render.toList = Text.squeeze s.toList := by
  obtain ⟨base, n, hbase, hs⟩ := exists_unbracketed (Text.squeeze s.toList)
  rw [hs]
  exact render_of_squeeze hbase hs h

/-- Types and their texts: a readable type is read off its text, the texts that are no types are
those of arrays of `void`, and any other text is the text of the type that is read, but for its
spacing. -/
theorem parse?_inverts_render :
    (∀ t : Ty, t.IsReadable → parse? t.render = some t) ∧
      ∀ s : String,
        (parse? s = none ↔
          ∃ n, Text.squeeze s.toList = "void".toList ++ emptyBrackets (n + 1)) ∧
        ∀ t, parse? s = some t → t.render.toList = Text.squeeze s.toList :=
  ⟨fun _ h => h.parse?_render, fun _ => ⟨parse?_eq_none_iff, fun _ h => render_of_parse? h⟩⟩

/-- A class whose name ends in half a pair of brackets, an array of `void`, and a pair of brackets
that nothing is in front of. -/
theorem parse?_inverts_render_brackets :
    (array (array (object "a.B["))).IsReadable ∧
      parse? (array (array (object "a.B["))).render = some (array (array (object "a.B["))) ∧
      parse? "vo id [ ]" = none ∧
      parse? "[ ]" = some (array (object "")) ∧
      (array (object "")).render.toList = Text.squeeze "[ ]".toList := by
  have hsolid : "a.B[".toList.all (Text.isSpacing · == false) = true := rfl
  have hclass : IsReadable (object "a.B[") :=
    .object (fun c hc => eq_of_beq (List.all_eq_true.mp hsolid c hc))
      (by unfold Unbracketed; decide) (by decide) fun p => by cases p <;> decide
  have hread : (array (array (object "a.B["))).IsReadable := .array (.array hclass nofun) nofun
  have hbare : parse? "[ ]" = some (array (object "")) := rfl
  obtain ⟨hrender, htext⟩ := parse?_inverts_render
  exact ⟨hread, hrender _ hread, (htext _).1.mpr ⟨0, rfl⟩, hbare, (htext _).2 _ hbare⟩

end MethodFlow.Ty
