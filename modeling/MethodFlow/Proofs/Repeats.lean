import Mathlib.Data.List.Nodup
import MethodFlow.Source.Parse

/-!
Searches for the first thing that repeats an earlier one: they find nothing exactly when all things
are different.
-/

namespace MethodFlow.Source

section Searches

variable {α β κ : Type} [DecidableEq κ] {search : List κ → List α → Option β} {found : α → β}

/-- A search that remembers the keys it has seen and stops at the first of them that it meets. -/
theorem search_eq_none {key : α → κ} (hnil : ∀ seen, search seen [] = none)
    (hcons : ∀ seen x xs, search seen (x :: xs) =
      if key x ∈ seen then some (found x) else search (key x :: seen) xs)
    {seen : List κ} {xs : List α} :
    search seen xs = none ↔ (xs.map key).Nodup ∧ ∀ x ∈ xs, key x ∉ seen := by
  induction xs generalizing seen with
  | nil => exact iff_of_true (hnil seen) ⟨.nil, List.forall_mem_nil _⟩
  | cons x xs ih =>
    rw [hcons, List.map_cons, List.nodup_cons, List.forall_mem_cons]
    by_cases hx : key x ∈ seen
    · rw [if_pos hx]
      exact iff_of_false nofun fun h => h.2.1 hx
    · rw [if_neg hx, ih]
      simp only [List.mem_cons, not_or, List.mem_map, not_exists, not_and]
      constructor
      · intro ⟨hxs, hseen⟩
        exact ⟨⟨fun y hy => (hseen y hy).1, hxs⟩, hx, fun y hy => (hseen y hy).2⟩
      · intro ⟨⟨hnew, hxs⟩, _, hseen⟩
        exact ⟨hxs, fun y hy => ⟨hnew y hy, hseen y hy⟩⟩

end Searches

theorem repeated?_eq_none {cs : List (Int × LabelRef)} :
    repeated? [] cs = none ↔ (cs.map Prod.fst).Nodup := by
  rw [search_eq_none (fun _ => rfl) (fun _ _ _ => rfl)]
  exact and_iff_left fun _ _ => List.not_mem_nil

/-- The case that is found has a value that stands more than once. -/
theorem count_of_repeated? {seen : List Int} {cs : List (Int × LabelRef)} {c : Int × LabelRef}
    (h : repeated? seen cs = some c) : 1 < (seen ++ cs.map Prod.fst).count c.1 := by
  induction cs generalizing seen with
  | nil => cases h
  | cons d cs ih =>
    rw [repeated?] at h
    rw [List.map_cons, List.count_append]
    split at h
    · rename_i hd
      cases h
      have hseen := List.count_pos_iff.mpr hd
      rw [List.count_cons_self]
      omega
    · have hcount := ih h
      rw [List.cons_append, List.count_cons, List.count_append] at hcount
      rw [List.count_cons]
      omega

theorem Layout.repeated?_eq_none {ms : List Mark} :
    Layout.repeated? [] ms = none ↔ (ms.map fun m => m.label.name).Nodup := by
  rw [search_eq_none (fun _ => rfl) (fun _ _ _ => rfl)]
  exact and_iff_left fun _ _ => List.not_mem_nil

theorem repeatedMethod?_eq_none {ms : List Method} :
    repeatedMethod? [] ms = none ↔ (ms.map Method.name).Nodup := by
  rw [search_eq_none (fun _ => rfl) (fun _ _ _ => rfl)]
  exact and_iff_left fun _ _ => List.not_mem_nil

end MethodFlow.Source
