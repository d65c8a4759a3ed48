import MethodFlow.Proofs.AtomText
import MethodFlow.Source.Parse

/-!
Names as atoms: a name is read as an atom that stands for its variable, unless it begins with
`null`. Then the literal is read off its front, and the rest of the name is left over.
-/

namespace MethodFlow.Source

open Reader

variable {x rest : List Char}

/-- An atom that means the variable of a name in every scope that has one. -/
def Atom.StandsFor (a : Atom) (x : List Char) : Prop :=
  ∀ (s : Scope) (p : Pos) (v : Var), s.named? (String.ofList x) = some v →
    a.meaning s p = .ok (.var v)

theorem Atom.name_standsFor (x : List Char) : (Atom.name x).StandsFor x := by
  intro s p v h
  rw [Atom.meaning, Scope.lookup, h]
  rfl

/-- The texts that are read as a name to their end are the names. -/
theorem name_eq_some_nil : name x = some (x, []) ↔ IsName x := by
  constructor
  · intro h
    exact (wordOf_eq_some h).2.2 rfl
  · intro h
    have hread : name (x ++ []) = some (x, []) := name_append h rfl
    rwa [List.append_nil] at hread

/-- A name that begins with `null` goes on, and what it goes on with is left over. -/
theorem atom_null_name {z : List Char} (hx : IsName ("null".toList ++ z)) :
    z ≠ [] ∧ atom (("null".toList ++ z) ++ rest) = some (.null, z ++ rest) := by
  constructor
  · rintro rfl
    have hfree := afterKeyword?_eq_none.mp hx.free "null" (by decide) [] rfl
    cases hfree
  · rw [List.append_assoc]
    exact atom_null

/-- A name in front of what cannot continue it is read as an atom that stands for its variable
exactly when it does not begin with `null`; if it does, no more than `null` is read. -/
theorem atom_standsFor_iff (hx : name x = some (x, [])) (hrest : stops isNameChar rest = true) :
    ((∃ a, atom (x ++ rest) = some (a, rest) ∧ a.StandsFor x) ↔ ¬ "null".toList <+: x) ∧
      ∀ z, x = "null".toList ++ z → z ≠ [] ∧ atom (x ++ rest) = some (.null, z ++ rest) := by
  rw [name_eq_some_nil] at hx
  have hnull : ∀ z, x = "null".toList ++ z →
      z ≠ [] ∧ atom (x ++ rest) = some (.null, z ++ rest) := by
    rintro z rfl
    exact atom_null_name hx
  refine ⟨⟨?_, fun hfree => ?_⟩, hnull⟩
  · rintro ⟨a, hread, -⟩ ⟨z, hz⟩
    obtain ⟨hne, hleft⟩ := hnull z hz.symm
    have heq : rest = z ++ rest := congrArg Prod.snd (Option.some.inj (hread.symm.trans hleft))
    exact hne (List.self_eq_append_left.mp heq)
  · exact ⟨.name x, atom_name hx hfree hrest, Atom.name_standsFor x⟩

/-- A keyword other than `null` at the front of a name does no harm. -/
theorem atom_standsFor_iff_newest :
    ∃ a, atom ("newest".toList ++ ";".toList) = some (a, ";".toList) ∧
      a.StandsFor "newest".toList :=
  (atom_standsFor_iff (by decide) (by decide)).1.mpr (by decide)

/-- The text of a method that declares a name and returns the variable. -/
def nullableText : String :=
  "method int f(int nullable) \x7b return nullable; \x7d"

set_option maxRecDepth 20000 in
/-- A name that begins with `null` can be declared, but is read as no atom. -/
theorem nullable_no_atom :
    name "nullable".toList = some ("nullable".toList, []) ∧
      (¬ ∃ a, atom "nullable".toList = some (a, [])) ∧
      parse nullableText = .error ⟨.noMethodAt "method int f(int nul", some ⟨1, 1⟩⟩ := by
  have hread : atom "nullable".toList = some (.null, "able".toList) := rfl
  refine ⟨by decide, ?_, ?_⟩
  · rintro ⟨a, ha⟩
    rw [hread] at ha
    cases ha
  · simp only [parse, nullableText, String.reduceToList]
    rfl

end MethodFlow.Source
