import MethodFlow.Proofs.StaticRules

/-!
The checks of phrases and commands are decided by the static rules: a phrase has a meaning exactly
when the names it uses are declared and its types are sound.
-/

namespace MethodFlow

namespace Source

open Reader

section Types

variable {t : TypeName} {p : Pos}

theorem TypeName.IsWritten.meaning_eq (h : t.IsWritten) :
    t.meaning p = match Ty.ofName (String.ofList t.base) with
      | .void => if t.dims = [] then .ok .void else reject .arrayOfVoid p
      | ty => .ok (.arrays t.dims.length ty) := by
  have hclose : Unbracketed t.base :=
    unbracketed_of_notMem fun hmem => nomatch h.base.all_isTypeChar _ hmem
  rw [meaning, Ty.ofText?_of_squeeze hclose (squeeze_text h.base h.dims)]
  cases hname : Ty.ofName (String.ofList t.base) with
  | void =>
    simp only [List.length_eq_zero_iff]
    by_cases hdims : t.dims = []
    · simp only [hdims, if_true]
    · simp only [hdims, if_false]
  | _ => rfl

theorem ofList_eq_iff {x : List Char} {s : String} : String.ofList x = s ↔ x = s.toList := by
  constructor
  · rintro rfl
    exact String.toList_ofList.symm
  · rintro rfl
    exact String.ofList_toList

theorem TypeName.IsWritten.decides (h : t.IsWritten) (p : Pos) :
    Decides (t.meaning p) (¬ t.IsVoidArray) True := by
  rw [h.meaning_eq]
  have hvoid : Ty.ofName (String.ofList t.base) = .void ↔ t.base = "void".toList :=
    Ty.ofName_eq_void.trans ofList_eq_iff
  split
  · rename_i hname
    split
    · rename_i hdims
      exact (decides_ok _).congr (iff_of_true trivial fun hv => hv.2 hdims) Iff.rfl
    · rename_i hdims
      exact (decides_reject rfl p).congr
        (iff_of_false id (not_not_intro ⟨hvoid.mp hname, hdims⟩)) Iff.rfl
  · rename_i hname
    exact (decides_ok _).congr (iff_of_true trivial fun hv => hname (hvoid.mpr hv.1)) Iff.rfl

theorem TypeName.isClass_iff : t.IsClass ↔
    t.dims = [] ∧ ∃ c, Ty.ofName (String.ofList t.base) = .object c := by
  rw [Ty.exists_ofName_eq_object]
  simp only [ne_eq, ofList_eq_iff]
  exact Iff.rfl

/-- A class type is what a class type name means. -/
theorem TypeName.IsWritten.isClass_iff (h : t.IsWritten) {ty : Ty} (ht : t.meaning p = .ok ty) :
    t.IsClass ↔ ∃ c, ty = .object c := by
  rw [h.meaning_eq] at ht
  rw [TypeName.isClass_iff]
  cases hdims : t.dims with
  | nil =>
    rw [hdims] at ht
    have hty : ty = Ty.ofName (String.ofList t.base) := by
      split at ht
      · rename_i hname
        cases ht
        exact hname.symm
      · cases ht
        rfl
    rw [hty]
    exact and_iff_right rfl
  | cons d ds =>
    refine iff_of_false (fun h => nomatch h.1) fun ⟨c, hc⟩ => ?_
    rw [hdims] at ht
    split at ht
    · cases ht
    · cases ht
      cases hc

end Types

section Phrases

variable {s : Scope} {ns : List (List Char)} {p : Pos}

theorem decides_lookup (hs : s.map Var.name = ns.map String.ofList) (x : List Char) :
    Decides (s.lookup p x) (x ∈ ns) True := by
  have hmem : String.ofList x ∈ s.map Var.name ↔ x ∈ ns := by
    rw [hs]
    exact List.mem_map_of_injective fun _ _ => String.ofList_injective
  unfold Scope.lookup
  split
  · rename_i v hv
    refine (decides_ok v).congr (iff_of_true trivial (hmem.mp ?_)) Iff.rfl
    have hname := List.find?_some (l := s) hv
    exact of_decide_eq_true hname ▸ List.mem_map_of_mem (List.mem_of_find?_eq_some hv)
  · rename_i hnone
    refine (decides_reject rfl p).congr (iff_of_false id fun hx => ?_) Iff.rfl
    obtain ⟨v, hv, hname⟩ := List.mem_map.mp (hmem.mpr hx)
    exact List.find?_eq_none.mp hnone v hv (decide_eq_true hname)

theorem Atom.decides (hs : s.map Var.name = ns.map String.ofList) (a : Atom) :
    Decides (a.meaning s p) (∀ x ∈ a.names, x ∈ ns) (∀ n ∈ a.numbers, n.digits.IsShort) := by
  cases a with
  | name x =>
    exact (decides_lookup hs x).map.congr List.forall_mem_singleton.symm
      (iff_of_true trivial (List.forall_mem_nil _))
  | int n =>
    refine n.decides.map.congr (iff_of_true trivial (List.forall_mem_nil _)) ?_
    exact (List.forall_mem_singleton (p := fun n : Number => n.digits.IsShort)).symm
  | _ =>
    exact (decides_ok _).congr (iff_of_true trivial (List.forall_mem_nil _))
      (iff_of_true trivial (List.forall_mem_nil _))

theorem Element.decides (hs : s.map Var.name = ns.map String.ofList) (e : Element) :
    Decides (e.place s p) (∀ x ∈ e.names, x ∈ ns) (∀ n ∈ e.numbers, n.digits.IsShort) := by
  refine ((e.index.decides hs).bind fun _ _ => (decides_lookup hs e.base).map).congr ?_
    (and_iff_left trivial)
  rw [Element.names, List.forall_mem_cons]
  exact and_comm

theorem LeftSide.decides (hs : s.map Var.name = ns.map String.ofList) (l : LeftSide) :
    Decides (l.meaning s p) (∀ x ∈ l.names, x ∈ ns) (∀ n ∈ l.numbers, n.digits.IsShort) := by
  cases l with
  | element e => exact e.decides hs
  | member m =>
    exact (decides_ok _).congr (iff_of_true trivial (List.forall_mem_nil _))
      (iff_of_true trivial (List.forall_mem_nil _))
  | name x =>
    exact (decides_lookup hs x).map.congr List.forall_mem_singleton.symm
      (iff_of_true trivial (List.forall_mem_nil _))

theorem Arguments.decides (hs : s.map Var.name = ns.map String.ofList) (a : Arguments) :
    Decides (a.meaning s p) (∀ x ∈ a.names, x ∈ ns) (∀ n ∈ a.numbers, n.digits.IsShort) := by
  refine (decides_mapM fun x _ => x.2.decides hs).congr ?_ ?_
  · rw [Arguments.names, List.forall_mem_flatMap, Listed.items, ← placed_items Atom.text p,
      List.forall_mem_map]
  · rw [Arguments.numbers, List.forall_mem_flatMap, Listed.items, ← placed_items Atom.text p,
      List.forall_mem_map]

theorem Invocation.decides (hs : s.map Var.name = ns.map String.ofList) (i : Invocation) :
    Decides (i.meaning s p) (∀ x ∈ i.names, x ∈ ns) (∀ n ∈ i.numbers, n.digits.IsShort) := by
  unfold Invocation.meaning Invocation.names Invocation.numbers
  cases i.arguments with
  | none =>
    exact (decides_ok _).congr (iff_of_true trivial (List.forall_mem_nil _))
      (iff_of_true trivial (List.forall_mem_nil _))
  | some a => exact (a.decides hs).map

theorem Operation.decides (hs : s.map Var.name = ns.map String.ofList) (o : Operation) :
    Decides (o.meaning s p) (∀ x ∈ o.names, x ∈ ns) (∀ n ∈ o.numbers, n.digits.IsShort) :=
  ((o.left.decides hs).bind fun _ _ => (o.right.decides hs).map).congr
    List.forall_mem_append.symm List.forall_mem_append.symm

theorem NewObject.decides {n : NewObject} (ht : n.type.IsWritten) :
    Decides (n.meaning p) (¬ n.type.IsVoidArray ∧ n.type.IsClass) True := by
  refine ((ht.decides _).bind fun ty hty => ?_).congr Iff.rfl (and_self_iff)
  have hclass := ht.isClass_iff hty
  split
  · rename_i c
    exact (decides_ok _).congr (iff_of_true trivial (hclass.mpr ⟨c, rfl⟩)) Iff.rfl
  · rename_i hnot
    refine (decides_reject rfl p).congr (iff_of_false id fun h => ?_) Iff.rfl
    obtain ⟨c, hc⟩ := hclass.mp h
    exact hnot c hc

/-- The rules for what an assignment writes. -/
structure RightSide.IsSound (ns : List (List Char)) (r : RightSide) : Prop where
  names : ∀ x ∈ r.names, x ∈ ns
  types : ∀ t ∈ r.types, ¬ t.IsVoidArray
  objects : ∀ t ∈ r.objects, t.IsClass

theorem RightSide.isSound_of_types_nil (r : RightSide) (htypes : r.types = [])
    (hobjects : r.objects = []) : (∀ x ∈ r.names, x ∈ ns) ↔ r.IsSound ns := by
  refine ⟨fun h => ⟨h, ?_, ?_⟩, IsSound.names⟩
  · rw [htypes]
    exact List.forall_mem_nil _
  · rw [hobjects]
    exact List.forall_mem_nil _

theorem RightSide.decides (hs : s.map Var.name = ns.map String.ofList) {r : RightSide}
    (ht : ∀ t ∈ r.types, t.IsWritten) :
    Decides (r.meaning s p) (r.IsSound ns) (∀ n ∈ r.numbers, n.digits.IsShort) := by
  cases r with
  | newArray a =>
    have helem := ht a.elem List.mem_cons_self
    refine ((helem.decides _).bind fun _ _ => (a.length.decides hs).map).congr ?_
      (and_iff_right trivial)
    refine ⟨fun h => ⟨h.2, List.forall_mem_singleton.mpr h.1, List.forall_mem_nil _⟩, fun h => ?_⟩
    exact ⟨h.types _ List.mem_cons_self, h.names⟩
  | newObject n =>
    refine (NewObject.decides (ht n.type List.mem_cons_self)).congr ⟨fun h => ?_, fun h => ?_⟩
      (iff_of_true trivial (List.forall_mem_nil _))
    · exact ⟨List.forall_mem_nil _, List.forall_mem_singleton.mpr h.1,
        List.forall_mem_singleton.mpr h.2⟩
    · exact ⟨h.types _ List.mem_cons_self, h.objects _ List.mem_cons_self⟩
  | cast c =>
    have htype := ht c.type List.mem_cons_self
    refine ((htype.decides _).bind fun _ _ => (c.operand.decides hs).map).congr ?_
      (and_iff_right trivial)
    refine ⟨fun h => ⟨h.2, List.forall_mem_singleton.mpr h.1, List.forall_mem_nil _⟩, fun h => ?_⟩
    exact ⟨h.types _ List.mem_cons_self, h.names⟩
  | call i => exact (i.decides hs).congr (isSound_of_types_nil (.call i) rfl rfl) Iff.rfl
  | operation o => exact (o.decides hs).congr (isSound_of_types_nil (.operation o) rfl rfl) Iff.rfl
  | negation n =>
    refine (decides_lookup hs n.name).map.congr (List.forall_mem_singleton.symm.trans ?_)
      (iff_of_true trivial (List.forall_mem_nil _))
    exact isSound_of_types_nil (.negation n) rfl rfl
  | element e =>
    exact (e.decides hs).map.congr (isSound_of_types_nil (.element e) rfl rfl) Iff.rfl
  | member m =>
    refine (decides_ok _).congr ((iff_of_true trivial ?_).trans
      (isSound_of_types_nil (.member m) rfl rfl)) (iff_of_true trivial (List.forall_mem_nil _))
    exact List.forall_mem_nil _
  | atom a => exact (a.decides hs).congr (isSound_of_types_nil (.atom a) rfl rfl) Iff.rfl

end Phrases

section Commands

variable {s : Scope} {ns : List (List Char)} {p : Pos}

/-- Whether a command is sound as soon as its names are declared. -/
def Command.isPlain : Command → Bool
  | assign _ | switch _ => false
  | _ => true

theorem Command.isSound_of_plain (c : Command) (h : c.isPlain = true) :
    (∀ x ∈ c.names, x ∈ ns) ↔ c.IsSound ns := by
  refine ⟨fun hnames => ⟨hnames, ?_, ?_, ?_, ?_⟩, IsSound.names⟩
  · cases c with
    | assign a => cases h
    | _ => exact List.forall_mem_nil _
  · cases c with
    | assign a => cases h
    | _ => exact List.forall_mem_nil _
  · rintro a rfl
    cases h
  · cases c with
    | switch w => cases h
    | _ => exact List.nodup_nil

/-- A command that has no cases is as wieldy as its numbers. -/
theorem Command.isWieldy_of_caseValues_nil (c : Command) (h : c.caseValues = []) :
    (∀ n ∈ c.numbers, n.digits.IsShort) ↔ c.IsWieldy := by
  refine ⟨fun hnumbers => ⟨hnumbers, fun k hk => ?_⟩, IsWieldy.numbers⟩
  rw [h] at hk
  cases hk

theorem LeftSide.exists_name_iff {l : LeftSide} {q : Place} (h : l.meaning s p = .ok q) :
    (∃ x, l = .name x) ↔ ∃ v, q = .var v := by
  cases l with
  | element e =>
    obtain ⟨_, _, h⟩ := Attempt.bind_eq_ok.mp h
    obtain ⟨_, _, h⟩ := Attempt.bind_eq_ok.mp h
    cases h
    exact iff_of_false nofun nofun
  | member m =>
    cases h
    refine iff_of_false nofun ?_
    unfold Member.place
    split <;> exact nofun
  | name x =>
    obtain ⟨v, _, h⟩ := Attempt.bind_eq_ok.mp h
    cases h
    exact iff_of_true ⟨x, rfl⟩ ⟨v, rfl⟩

theorem Assignment.decides (hs : s.map Var.name = ns.map String.ofList) {a : Assignment}
    (ht : ∀ t ∈ a.right.types, t.IsWritten) :
    Decides (a.meaning s p) ((Command.assign a).IsSound ns) (Command.assign a).IsWieldy := by
  have hdecides : Decides (a.meaning s p) ((∀ x ∈ a.left.names, x ∈ ns) ∧ a.right.IsSound ns ∧
      (a.right.isCall = true → ∃ x, a.left = .name x))
      ((∀ n ∈ a.left.numbers, n.digits.IsShort) ∧ (∀ n ∈ a.right.numbers, n.digits.IsShort) ∧
        True) := by
    refine (a.left.decides hs).bind fun q hq => (RightSide.decides hs ht).bind fun e _ => ?_
    have hname := LeftSide.exists_name_iff hq
    split
    · rename_i hcall
      refine (decides_ok _).congr (iff_of_true trivial fun h => ?_) Iff.rfl
      rw [h] at hcall
      cases hcall
    · rename_i hcall
      have hcall : a.right.isCall = true := by simpa using hcall
      split
      · rename_i v
        exact (decides_ok _).congr (iff_of_true trivial fun _ => hname.mpr ⟨v, rfl⟩) Iff.rfl
      · rename_i hq
        refine (decides_reject rfl p).congr (iff_of_false id fun h => ?_) Iff.rfl
        obtain ⟨v, hv⟩ := hname.mp (h hcall)
        exact hq v hv
  refine hdecides.congr ⟨fun h => ?_, fun h => ?_⟩ ?_
  · obtain ⟨hleft, hright, hresult⟩ := h
    refine ⟨List.forall_mem_append.mpr ⟨hleft, hright.names⟩, hright.types, hright.objects, ?_,
      List.nodup_nil⟩
    intro b hb
    cases hb
    exact hresult
  · obtain ⟨hleft, hright⟩ := List.forall_mem_append.mp h.names
    exact ⟨hleft, ⟨hright, h.types, h.objects⟩, h.results a rfl⟩
  · rw [and_true, ← List.forall_mem_append]
    exact (Command.assign a).isWieldy_of_caseValues_nil rfl

theorem Case.meanings_values {p : Pos} {cs : List Case} {ys : List (Int × LabelRef)}
    (h : Case.meanings p cs = .ok ys) : ys.map Prod.fst = cs.map fun c => c.value.denoted := by
  induction cs generalizing p ys with
  | nil =>
    cases h
    rfl
  | cons c cs ih =>
    obtain ⟨k, hk, h⟩ := Attempt.bind_eq_ok.mp h
    obtain ⟨zs, hzs, h⟩ := Attempt.bind_eq_ok.mp h
    cases h
    rw [List.map_cons, List.map_cons, ih hzs,
      Number.eq_denoted_of_value (Attempt.mapError_eq_ok.mp hk)]

theorem Case.decides_meanings (p : Pos) (cs : List Case) :
    Decides (Case.meanings p cs) True (∀ n ∈ cs.map Case.value, n.digits.IsShort) := by
  induction cs generalizing p with
  | nil => exact (decides_ok []).congr Iff.rfl (iff_of_true trivial (List.forall_mem_nil _))
  | cons c cs ih =>
    refine (c.value.decides.bind fun _ _ => (ih _).map).congr (and_self_iff) ?_
    rw [List.map_cons, List.forall_mem_cons]

/-- A number that is named in a message is written there, unless it is too long. -/
theorem decides_named {α : Type} {cause : String → Cause} (k : Int)
    (h : ∀ t, (cause t).severity = .meaningless) (p : Pos) :
    Decides (do reject (cause (← Text.writeInt k)) p : Checked α) False
      (Text.isWritable k = true) := by
  rw [Text.writeInt]
  split
  · rename_i hk
    exact (decides_reject (h _) p).congr Iff.rfl (iff_of_true trivial hk)
  · rename_i hk
    exact decides_unforeseen rfl hk

theorem Switch.decides (hs : s.map Var.name = ns.map String.ofList) (w : Switch) :
    Decides (w.meaning s p) ((Command.switch w).IsSound ns) (Command.switch w).IsWieldy := by
  have hdecides : Decides (w.meaning s p)
      (True ∧ w.selector ∈ ns ∧ (Command.switch w).caseValues.Nodup)
      ((∀ n ∈ w.cases.map Case.value, n.digits.IsShort) ∧ True ∧
        ∀ k, 1 < (Command.switch w).caseValues.count k → Text.isWritable k = true) := by
    refine (Case.decides_meanings _ _).bind fun ys hys => (decides_lookup hs w.selector).bind ?_
    intro v _
    rw [Command.caseValues, ← Case.meanings_values hys]
    split
    · rename_i c hc
      have hrepeated := count_of_repeated? hc
      refine (decides_named c.1 (fun _ => rfl) _).weaken (fun h => ?_) fun h => h c.1 hrepeated
      rw [repeated?_eq_none.mpr h] at hc
      cases hc
    · rename_i hnone
      have hnodup := repeated?_eq_none.mp hnone
      refine (decides_ok _).congr (iff_of_true trivial hnodup) (iff_of_true trivial fun k hk => ?_)
      exact absurd hk (Nat.not_lt.mpr (List.nodup_iff_count_le_one.mp hnodup k))
  refine hdecides.congr ⟨fun h => ⟨?_, ?_, ?_, fun _ ha => ?_, h.2.2⟩, fun h => ?_⟩
    ⟨fun h => ⟨h.1, h.2.2⟩, fun h => ⟨h.numbers, trivial, h.repeats⟩⟩
  · exact List.forall_mem_singleton.mpr h.2.1
  · exact List.forall_mem_nil _
  · exact List.forall_mem_nil _
  · cases ha
  · exact ⟨trivial, h.names _ List.mem_cons_self, h.cases⟩

/-- The check of a command is decided by its rules. -/
theorem Command.decides (hs : s.map Var.name = ns.map String.ofList) {c : Command}
    (ht : ∀ t ∈ c.types, t.IsWritten) : Decides (c.meaning s p) (c.IsSound ns) c.IsWieldy := by
  cases c with
  | assign a => exact Assignment.decides hs ht
  | switch w => exact w.decides hs
  | ret r g =>
    refine Decides.congr ?_ (isSound_of_plain _ rfl) (isWieldy_of_caseValues_nil _ rfl)
    cases r with
    | none =>
      exact (decides_ok _).congr (iff_of_true trivial (List.forall_mem_nil _))
        (iff_of_true trivial (List.forall_mem_nil _))
    | some r => exact (r.value.decides hs).map
  | branch b =>
    exact (b.condition.decides hs).map.congr (isSound_of_plain (.branch b) rfl)
      (isWieldy_of_caseValues_nil (.branch b) rfl)
  | call i g =>
    exact (i.decides hs).map.congr (isSound_of_plain (.call i g) rfl)
      (isWieldy_of_caseValues_nil (.call i g) rfl)
  | goto j =>
    refine (decides_ok _).congr ((iff_of_true trivial ?_).trans (isSound_of_plain _ rfl))
      ((iff_of_true trivial ?_).trans (isWieldy_of_caseValues_nil _ rfl))
    · exact List.forall_mem_nil _
    · exact List.forall_mem_nil _
  | nop g =>
    refine (decides_ok _).congr ((iff_of_true trivial ?_).trans (isSound_of_plain _ rfl))
      ((iff_of_true trivial ?_).trans (isWieldy_of_caseValues_nil _ rfl))
    · exact List.forall_mem_nil _
    · exact List.forall_mem_nil _

end Commands

end Source

end MethodFlow
