import MethodFlow.Proofs.StaticRules

/-!
What a phrase means hangs neither on where it stands nor on the gaps in it: phrases with the same
parts mean the same, or both mean nothing.
-/

namespace MethodFlow

namespace Source

open Attempt

variable (s : Scope) (p p' : Pos)

section Atoms

theorem lookup_likewise (x : List Char) : Likewise Eq (s.lookup p x) (s.lookup p' x) := by
  unfold Scope.lookup
  split
  · exact likewise_ok rfl
  · exact likewise_error

theorem TypeName.meaning_likewise (t : TypeName) : Likewise Eq (t.meaning p) (t.meaning p') := by
  unfold meaning
  split
  · exact likewise_ok rfl
  · exact likewise_error

theorem Atom.meaning_likewise (a : Atom) :
    Likewise Eq (a.meaning s p) (a.meaning s p') := by
  cases a with
  | name x => exact (lookup_likewise s p p' x).bindEq fun _ => likewise_ok rfl
  | _ => exact likewise_refl _

end Atoms

section Phrases

theorem Element.place_likewise {e e' : Element} (hbase : e.base = e'.base)
    (hindex : e.index = e'.index) : Likewise Eq (e.place s p) (e'.place s p') := by
  unfold place
  rw [hbase, hindex]
  exact (e'.index.meaning_likewise s _ _).bindEq fun _ =>
    (lookup_likewise s p p' _).bindEq fun _ => likewise_ok rfl

theorem Member.place_congr {m m' : Member}
    (howner : m.owner = m'.owner) (hname : m.name = m'.name) :
    m.place s = m'.place s := by
  rw [place, place, howner, hname]

/-- The items of two lists go together where they stand. -/
theorem forall₂_placed {α : Type} {S : α → α → Prop} {print : α → List Char} {l l' : Listed α}
    (h : List.Forall₂ S l.items l'.items) :
    List.Forall₂ (fun x x' => S x.2 x'.2) (l.placed p print) (l'.placed p' print) := by
  rw [Listed.items, ← placed_items print p, Listed.items, ← placed_items print p',
    List.forall₂_map_left_iff, List.forall₂_map_right_iff] at h
  exact h

theorem Arguments.meaning_likewise {a a' : Arguments} (h : a.atoms.items = a'.atoms.items) :
    Likewise Eq (a.meaning s p) (a'.meaning s p') := by
  have hitems : List.Forall₂ Eq a.atoms.items a'.atoms.items := by rw [h, List.forall₂_eq_eq_eq]
  refine (likewise_mapM (T := Eq) (forall₂_placed p p' hitems) fun x x' hx => ?_).mono
    fun es es' hes => ?_
  · rw [hx]
    exact x'.2.meaning_likewise s x.1 x'.1
  · rwa [List.forall₂_eq_eq_eq] at hes

/-- Calls that mean the same among any variables, wherever they stand. -/
def Invocation.Like (i i' : Invocation) : Prop :=
  ∀ s p p', Likewise Eq (i.meaning s p) (i'.meaning s p')

theorem Callee.meaning_congr {m m' : Member}
    (howner : m.owner = m'.owner) (hname : m.name = m'.name) :
    (Callee.member m).meaning s = (Callee.member m').meaning s := by
  rw [meaning, meaning, howner, hname]

theorem Invocation.like {i i' : Invocation}
    (hcallee : ∀ s, i.callee.meaning s = i'.callee.meaning s)
    (harguments : Option.Rel (fun a a' => a.atoms.items = a'.atoms.items)
      i.arguments i'.arguments) :
    i.Like i' := by
  intro s p p'
  unfold Invocation.meaning
  rw [hcallee]
  refine Likewise.bindEq ?_ fun es => likewise_ok rfl
  generalize i.arguments = as at harguments ⊢
  generalize i'.arguments = as' at harguments ⊢
  cases harguments with
  | none => exact likewise_ok rfl
  | some h => exact Arguments.meaning_likewise s _ _ h

theorem Operation.meaning_likewise {o o' : Operation} (hleft : o.left = o'.left)
    (hop : o.op = o'.op) (hright : o.right = o'.right) :
    Likewise Eq (o.meaning s p) (o'.meaning s p') := by
  unfold meaning
  rw [hleft, hop, hright]
  exact (o'.left.meaning_likewise s p p').bindEq fun _ =>
    (o'.right.meaning_likewise s _ _).bindEq fun _ => likewise_ok rfl

theorem NewObject.meaning_likewise {n n' : NewObject} (h : n.type = n'.type) :
    Likewise Eq (n.meaning p) (n'.meaning p') := by
  unfold meaning
  rw [h]
  refine (n'.type.meaning_likewise _ _).bindEq fun ty => ?_
  split
  · exact likewise_ok rfl
  · exact likewise_error

/-- Right sides that mean the same among any variables, wherever they stand. -/
structure RightSide.Like (r r' : RightSide) : Prop where
  meaning : ∀ s p p', Likewise Eq (r.meaning s p) (r'.meaning s p')
  isCall : r.isCall = r'.isCall

def LeftSide.Like (l l' : LeftSide) : Prop :=
  ∀ s p p', Likewise Eq (l.meaning s p) (l'.meaning s p')

theorem optionRel_refl {α : Type} {R : α → α → Prop} (hR : ∀ a, R a a) (o : Option α) :
    Option.Rel R o o := by
  cases o with
  | none => exact .none
  | some a => exact .some (hR a)

theorem Invocation.like_refl (i : Invocation) : i.Like i :=
  Invocation.like (fun _ => rfl) (optionRel_refl (fun a => Eq.refl a.atoms.items) _)

end Phrases

section Sides

theorem RightSide.like_newArray {a a' : NewArray} (helem : a.elem = a'.elem)
    (hlength : a.length = a'.length) : (newArray a).Like (newArray a') := by
  refine ⟨fun s p p' => ?_, rfl⟩
  simp only [RightSide.meaning, helem, hlength]
  exact (a'.elem.meaning_likewise _ _).bindEq fun _ =>
    (a'.length.meaning_likewise s _ _).bindEq fun _ => likewise_ok rfl

theorem RightSide.like_newObject {n n' : NewObject} (h : n.type = n'.type) :
    (newObject n).Like (newObject n') :=
  ⟨fun _ p p' => NewObject.meaning_likewise p p' h, rfl⟩

theorem RightSide.like_call {i i' : Invocation} (h : i.Like i') : (call i).Like (call i') :=
  ⟨h, rfl⟩

theorem RightSide.like_cast {c c' : Cast} (htype : c.type = c'.type)
    (hoperand : c.operand = c'.operand) : (cast c).Like (cast c') := by
  refine ⟨fun s p p' => ?_, rfl⟩
  simp only [RightSide.meaning, htype, hoperand]
  exact (c'.type.meaning_likewise _ _).bindEq fun _ =>
    (c'.operand.meaning_likewise s _ _).bindEq fun _ => likewise_ok rfl

theorem RightSide.like_operation {o o' : Operation} (hleft : o.left = o'.left)
    (hop : o.op = o'.op) (hright : o.right = o'.right) : (operation o).Like (operation o') :=
  ⟨fun s p p' => Operation.meaning_likewise s p p' hleft hop hright, rfl⟩

theorem RightSide.like_negation {n n' : Negation} (h : n.name = n'.name) :
    (negation n).Like (negation n') := by
  refine ⟨fun s p p' => ?_, rfl⟩
  simp only [RightSide.meaning, h]
  exact (lookup_likewise s _ _ _).bindEq fun _ => likewise_ok rfl

theorem RightSide.like_element {e e' : Element} (hbase : e.base = e'.base)
    (hindex : e.index = e'.index) : (element e).Like (element e') :=
  ⟨fun s p p' => (Element.place_likewise s p p' hbase hindex).bindEq fun _ => likewise_ok rfl, rfl⟩

theorem RightSide.like_member {m m' : Member} (howner : m.owner = m'.owner)
    (hname : m.name = m'.name) : (member m).Like (member m') := by
  refine ⟨fun s p p' => likewise_ok ?_, rfl⟩
  rw [Member.place_congr s howner hname]

theorem RightSide.like_atom (a : Atom) : (atom a).Like (atom a) :=
  ⟨fun s p p' => a.meaning_likewise s p p', rfl⟩

theorem RightSide.like_refl (r : RightSide) : r.Like r := by
  cases r with
  | newArray a => exact like_newArray rfl rfl
  | newObject n => exact like_newObject rfl
  | call i => exact like_call i.like_refl
  | cast c => exact like_cast rfl rfl
  | operation o => exact like_operation rfl rfl rfl
  | negation n => exact like_negation rfl
  | element e => exact like_element rfl rfl
  | member m => exact like_member rfl rfl
  | atom a => exact like_atom a

theorem LeftSide.like_element {e e' : Element} (hbase : e.base = e'.base)
    (hindex : e.index = e'.index) : (element e).Like (element e') :=
  fun s p p' => Element.place_likewise s p p' hbase hindex

theorem LeftSide.like_member {m m' : Member} (howner : m.owner = m'.owner)
    (hname : m.name = m'.name) : (member m).Like (member m') :=
  fun s _ _ => likewise_ok (Member.place_congr s howner hname)

theorem LeftSide.like_name (x : List Char) : (name x).Like (name x) :=
  fun s p p' => (lookup_likewise s p p' x).bindEq fun _ => likewise_ok rfl

theorem LeftSide.like_refl (l : LeftSide) : l.Like l := by
  cases l with
  | element e => exact like_element rfl rfl
  | member m => exact like_member rfl rfl
  | name x => exact like_name x

end Sides

section Commands

/-- Labels of one name. -/
def LabelRef.Same (x x' : LabelRef) : Prop :=
  x.name = x'.name

/-- Commands that mean the same among any variables, wherever they stand; their jumps lead to the
same labels. -/
def Command.Like (c c' : Command) : Prop :=
  ∀ s p p', Likewise (Instr.Rel LabelRef.Same) (c.meaning s p) (c'.meaning s p')

theorem Command.like_ret {v v' : Option Returned} {g g' : Gap}
    (h : Option.Rel (fun r r' => r.value = r'.value) v v') :
    (Command.ret v g).Like (.ret v' g') := by
  intro s p p'
  cases h with
  | none => exact likewise_ok (.ret none)
  | @some r r' h =>
    simp only [Command.meaning, h]
    exact (r'.value.meaning_likewise s _ _).bindEq fun e => likewise_ok (.ret (some e))

theorem Command.like_goto {j j' : JumpTo} (h : j.label = j'.label) :
    (Command.goto j).Like (.goto j') :=
  fun _ _ _ => likewise_ok (.goto (congrArg String.ofList h))

theorem Command.like_branch {b b' : Branch} (hleft : b.condition.left = b'.condition.left)
    (hop : b.condition.op = b'.condition.op) (hright : b.condition.right = b'.condition.right)
    (hjump : b.jump.label = b'.jump.label) : (Command.branch b).Like (.branch b') := by
  intro s p p'
  refine (Operation.meaning_likewise s _ _ hleft hop hright).bindEq fun e => ?_
  exact likewise_ok (.branch e (congrArg String.ofList hjump))

theorem Command.like_nop (g g' : Gap) : (Command.nop g).Like (.nop g') :=
  fun _ _ _ => likewise_ok .nop

theorem Command.like_call {i i' : Invocation} {g g' : Gap} (h : i.Like i') :
    (Command.call i g).Like (.call i' g') :=
  fun s p p' => (h s p p').bindEq fun e => likewise_ok (.call none e)

theorem Assignment.like {a a' : Assignment} (hleft : a.left.Like a'.left)
    (hright : a.right.Like a'.right) : (Command.assign a).Like (.assign a') := by
  intro s p p'
  refine (hleft s p p').bindEq fun place => ?_
  refine (hright.meaning s _ _).bindEq fun value => ?_
  rw [hright.isCall]
  split
  · exact likewise_ok (.assign place value)
  · split
    · exact likewise_ok (.call _ value)
    · exact likewise_error

/-- Cases of one value that lead to one label. -/
def Case.Like (c c' : Case) : Prop :=
  c.value = c'.value ∧ c.jump.label = c'.jump.label

theorem Case.meanings_like {cs cs' : List Case} (h : List.Forall₂ Case.Like cs cs') (p p' : Pos) :
    Likewise (List.Forall₂ fun c c' => c.1 = c'.1 ∧ LabelRef.Same c.2 c'.2)
      (meanings p cs) (meanings p' cs') := by
  induction h generalizing p p' with
  | nil => exact likewise_ok .nil
  | cons hc _ ih =>
    rw [meanings, meanings, hc.1]
    refine (likewise_refl _).bindEq fun k => (ih _ _).bind fun cs cs' hcs => ?_
    exact likewise_ok (.cons ⟨rfl, congrArg String.ofList hc.2⟩ hcs)

theorem Switch.like {w w' : Switch} (hselector : w.selector = w'.selector)
    (hcases : List.Forall₂ Case.Like w.cases w'.cases)
    (hdefault : w.default.jump.label = w'.default.jump.label) :
    (Command.switch w).Like (.switch w') := by
  intro s p p'
  simp only [Command.meaning, Switch.meaning, hselector]
  refine (Case.meanings_like hcases _ _).bind fun cs cs' hlike => ?_
  refine (lookup_likewise s _ _ _).bindEq fun v => ?_
  have hvalues : cs.map Prod.fst = cs'.map Prod.fst := by
    rw [← List.forall₂_eq_eq_eq, List.forall₂_map_left_iff, List.forall₂_map_right_iff]
    exact hlike.imp fun _ _ h => h.1
  have hlabels : List.Forall₂ LabelRef.Same (cs.map Prod.snd) (cs'.map Prod.snd) := by
    rw [List.forall₂_map_left_iff, List.forall₂_map_right_iff]
    exact hlike.imp fun _ _ h => h.2
  have hrepeated : repeated? [] cs = none ↔ repeated? [] cs' = none := by
    rw [repeated?_eq_none, repeated?_eq_none, hvalues]
  obtain ⟨hcs, hcs'⟩ | ⟨c, c', hcs, hcs'⟩ := none_or_some_of_iff hrepeated
  · rw [hcs, hcs', hvalues]
    exact likewise_ok (.switch v _ hlabels (congrArg String.ofList hdefault))
  · rw [hcs, hcs']
    exact likewise_error_behind

theorem Command.like_refl (c : Command) : c.Like c := by
  cases c with
  | ret v g => exact like_ret (optionRel_refl (fun r => Eq.refl r.value) v)
  | goto j => exact like_goto rfl
  | branch b => exact like_branch rfl rfl rfl rfl
  | switch w => exact Switch.like rfl (List.forall₂_same.mpr fun _ _ => ⟨rfl, rfl⟩) rfl
  | nop g => exact like_nop g g
  | call i g => exact like_call i.like_refl
  | assign a => exact Assignment.like a.left.like_refl a.right.like_refl

end Commands

end Source

end MethodFlow
