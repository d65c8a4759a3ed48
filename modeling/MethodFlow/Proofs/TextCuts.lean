import Mathlib
import MethodFlow.Text.Blank

/-!
Cutting text. What is cut at a separator has the separator nowhere else, and texts that do not have
it are told apart again when they stand on both sides of one. A trimmed text has no spacing at
either end, and trimming takes nothing off it.
-/

namespace MethodFlow.Text

variable {sep c : Char} {a b cs : List Char}

section Cut

theorem cutAt_append (h : sep ∉ a) (b : List Char) : cutAt sep (a ++ sep :: b) = (a, some b) := by
  induction a with
  | nil => exact if_pos rfl
  | cons c a ih =>
    rw [List.mem_cons, not_or] at h
    rw [List.cons_append, cutAt, if_neg fun hc => h.1 hc.symm, ih h.2]

theorem cutAt_of_notMem (h : sep ∉ a) : cutAt sep a = (a, none) := by
  induction a with
  | nil => rfl
  | cons c a ih =>
    rw [List.mem_cons, not_or] at h
    rw [cutAt, if_neg fun hc => h.1 hc.symm, ih h.2]

/-- A text is what is in front of the first separator, and the separator with what is behind it. -/
theorem append_cutAt (sep : Char) (cs : List Char) :
    (cutAt sep cs).1 ++ (cutAt sep cs).2.elim [] (sep :: ·) = cs := by
  induction cs with
  | nil => rfl
  | cons c cs ih =>
    unfold cutAt
    split
    · rename_i hc
      rw [hc]
      rfl
    · exact congrArg (c :: ·) ih

theorem notMem_cutAt (sep : Char) (cs : List Char) : sep ∉ (cutAt sep cs).1 := by
  induction cs with
  | nil => exact List.not_mem_nil
  | cons c cs ih =>
    unfold cutAt
    split
    · exact List.not_mem_nil
    · rename_i hc
      exact List.not_mem_cons_of_ne_of_not_mem (fun h => hc h.symm) ih

/-- A text with a separator in it, apart at the first one. -/
theorem eq_append_of_cutAt (h : cutAt sep cs = (a, some b)) : cs = a ++ sep :: b ∧ sep ∉ a := by
  have happend := append_cutAt sep cs
  have hmem := notMem_cutAt sep cs
  rw [h] at happend hmem
  exact ⟨happend.symm, hmem⟩

end Cut

section Pieces

theorem pieces_of_notMem (h : sep ∉ a) : pieces sep a = [a] := by
  induction a with
  | nil => rfl
  | cons c a ih =>
    rw [List.mem_cons, not_or] at h
    rw [pieces, if_neg fun hc => h.1 hc.symm, ih h.2]

theorem pieces_append (h : sep ∉ a) (b : List Char) :
    pieces sep (a ++ sep :: b) = a :: pieces sep b := by
  induction a with
  | nil => exact if_pos rfl
  | cons c a ih =>
    rw [List.mem_cons, not_or] at h
    rw [List.cons_append, pieces, if_neg fun hc => h.1 hc.symm, ih h.2]

/-- Texts without the separator that stand apart by it are the pieces of the whole. -/
theorem pieces_intercalate {ps : List (List Char)} (hne : ps ≠ []) (h : ∀ p ∈ ps, sep ∉ p) :
    pieces sep ([sep].intercalate ps) = ps := by
  induction ps with
  | nil => exact absurd rfl hne
  | cons p ps ih =>
    obtain ⟨hp, hps⟩ := List.forall_mem_cons.mp h
    cases ps with
    | nil => rw [List.intercalate_singleton, pieces_of_notMem hp]
    | cons q qs =>
      rw [List.intercalate_cons_cons, List.append_assoc, List.singleton_append,
        pieces_append hp, ih (List.cons_ne_nil q qs) hps]

theorem notMem_of_mem_pieces {p : List Char} (h : p ∈ pieces sep cs) : sep ∉ p := by
  induction cs generalizing p with
  | nil =>
    rw [List.mem_singleton.mp h]
    exact List.not_mem_nil
  | cons c cs ih =>
    unfold pieces at h
    split at h
    · rcases List.mem_cons.mp h with rfl | h
      · exact List.not_mem_nil
      · exact ih h
    · rename_i hc
      have hne : sep ≠ c := fun he => hc he.symm
      split at h
      · rw [List.mem_singleton.mp h, List.mem_singleton]
        exact hne
      · rename_i q qs hq
        rw [hq] at ih
        rcases List.mem_cons.mp h with rfl | h
        · exact List.not_mem_cons_of_ne_of_not_mem hne (ih List.mem_cons_self)
        · exact ih (List.mem_cons_of_mem q h)

end Pieces

section Trim

theorem trim_eq (cs : List Char) : trim cs = (cs.dropWhile isSpacing).rdropWhile isSpacing := rfl

theorem mem_of_mem_trim (h : c ∈ trim cs) : c ∈ cs :=
  (List.dropWhile_suffix isSpacing).subset ((List.rdropWhile_prefix isSpacing _).subset h)

/-- No spacing is at either end of a text. -/
structure IsTrimmed (cs : List Char) : Prop where
  head : ∀ c ∈ cs.head?, isSpacing c = false
  last : ∀ c ∈ cs.getLast?, isSpacing c = false

theorem isTrimmed_of_solid (h : ∀ c ∈ cs, isSpacing c = false) : IsTrimmed cs :=
  ⟨fun c hc => h c (List.mem_of_mem_head? hc), fun c hc => h c (List.mem_of_mem_getLast? hc)⟩

theorem IsTrimmed.trim_eq_self (h : IsTrimmed cs) : trim cs = cs := by
  have hdrop : cs.dropWhile isSpacing = cs := by
    cases cs with
    | nil => rfl
    | cons c cs => rw [List.dropWhile_cons_of_neg (by simp [h.head c rfl])]
  rw [trim_eq, hdrop, List.rdropWhile_eq_self_iff]
  intro hne
  simp [h.last _ (List.getLast?_eq_some_getLast hne)]

theorem isTrimmed_trim (cs : List Char) : IsTrimmed (trim cs) where
  head c hc := by
    obtain ⟨r, hr⟩ := List.rdropWhile_prefix isSpacing (cs.dropWhile isSpacing)
    have hhead : (cs.dropWhile isSpacing).head? = some c := by
      rw [← hr, List.head?_append, ← trim_eq, hc, Option.some_or]
    have hnot := List.head?_dropWhile_not isSpacing cs
    rw [hhead] at hnot
    exact hnot
  last c hc := by
    obtain ⟨hne, rfl⟩ := List.mem_getLast?_eq_getLast hc
    exact Bool.eq_false_of_not_eq_true (List.rdropWhile_last_not isSpacing _ hne)

/-- Two trimmed texts on both sides of a separator. -/
theorem isTrimmed_joined (ha : IsTrimmed a) (hne : a ≠ []) (hsep : isSpacing sep = false)
    (hb : IsTrimmed b) : IsTrimmed (a ++ sep :: b) := by
  refine ⟨fun c hc => ha.head c ?_, fun c hc => ?_⟩
  · rwa [List.head?_append_of_ne_nil a hne] at hc
  · rw [List.getLast?_append_of_ne_nil a (List.cons_ne_nil sep b)] at hc
    cases b with
    | nil =>
      cases hc
      exact hsep
    | cons d b =>
      rw [List.getLast?_cons_cons] at hc
      exact hb.last c hc

end Trim

end MethodFlow.Text
