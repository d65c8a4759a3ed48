import Mathlib.Order.Lattice
import Mathlib.Order.BoundedOrder.Basic
import MethodFlow.Value

/-!
What is known about a variable, as a join semilattice: nothing below every constant, every constant
below a value that may vary.
-/

namespace MethodFlow.Value

theorem le_iff {v w : Value} : v ≤ w ↔ v = .undef ∨ v = w ∨ w = .nac := by
  constructor
  · intro h
    cases h with
    | undef => exact Or.inl rfl
    | refl => exact Or.inr (Or.inl rfl)
    | nac => exact Or.inr (Or.inr rfl)
  · rintro (rfl | rfl | rfl)
    · exact .undef w
    · exact .refl v
    · exact .nac v

theorem meet_undef (v : Value) : v.meet .undef = v := by
  cases v <;> rfl

theorem meet_self (v : Value) : v.meet v = v := by
  cases v <;> simp [meet]

theorem meet_comm (v w : Value) : v.meet w = w.meet v := by
  cases v <;> cases w <;> simp only [meet]
  rename_i a b
  by_cases h : a = b
  · simp [h]
  · have h' : ¬ b = a := fun he => h he.symm
    simp [h, h']

theorem le_meet_right (v w : Value) : w ≤ v.meet w := by
  rw [le_iff]
  cases v with
  | undef => exact Or.inr (Or.inl rfl)
  | nac => cases w <;> simp [meet]
  | const a =>
    cases w with
    | undef => exact Or.inl rfl
    | nac => exact Or.inr (Or.inr rfl)
    | const b =>
      by_cases h : a = b
      · simp [meet, h]
      · simp [meet, h]

theorem meet_le {u v w : Value} (hv : v ≤ u) (hw : w ≤ u) : v.meet w ≤ u := by
  rw [le_iff] at hv hw ⊢
  rcases hv with rfl | rfl | rfl
  · exact hw
  · rcases hw with rfl | rfl | rfl
    · exact Or.inr (Or.inl (meet_undef v))
    · exact Or.inr (Or.inl (meet_self w))
    · exact Or.inr (Or.inr rfl)
  · exact Or.inr (Or.inr rfl)

instance : PartialOrder Value where
  le_refl := .refl
  le_trans u v w huv hvw := by
    rw [le_iff] at huv hvw ⊢
    rcases huv with rfl | rfl | rfl
    · exact Or.inl rfl
    · exact hvw
    · rcases hvw with h | rfl | rfl
      · cases h
      · exact Or.inr (Or.inr rfl)
      · exact Or.inr (Or.inr rfl)
  le_antisymm v w hvw hwv := by
    rw [le_iff] at hvw hwv
    rcases hvw with rfl | rfl | rfl
    · rcases hwv with rfl | rfl | h
      · rfl
      · rfl
      · cases h
    · rfl
    · rcases hwv with h | rfl | rfl
      · cases h
      · rfl
      · rfl

instance : SemilatticeSup Value where
  sup := meet
  le_sup_left v w := meet_comm v w ▸ le_meet_right w v
  le_sup_right := le_meet_right
  sup_le _ _ _ := meet_le

instance : OrderBot Value where
  bot := .undef
  bot_le := .undef

instance : OrderTop Value where
  top := .nac
  le_top := .nac

theorem const_le_iff {c : Int} {x : Value} : .const c ≤ x ↔ x = .const c ∨ x = .nac := by
  rw [le_iff]
  constructor
  · rintro (h | h | h)
    · cases h
    · exact Or.inl h.symm
    · exact Or.inr h
  · rintro (h | h)
    · exact Or.inr (Or.inl h.symm)
    · exact Or.inr (Or.inr h)

theorem nac_le_iff {x : Value} : .nac ≤ x ↔ x = .nac := by
  rw [le_iff]
  constructor
  · rintro (h | h | h)
    · cases h
    · exact h.symm
    · exact h
  · exact fun h => Or.inr (Or.inr h)

theorem le_undef_iff {x : Value} : x ≤ .undef ↔ x = .undef := by
  rw [le_iff]
  constructor
  · rintro (h | h | h)
    · exact h
    · exact h
    · cases h
  · exact Or.inl

/-- A constant can come out of a join only where it went in. -/
theorem meet_eq_const {v w : Value} {c : Int} (h : v.meet w = .const c) :
    v = .const c ∨ w = .const c := by
  cases v with
  | undef => exact Or.inr h
  | nac => cases w <;> cases h
  | const a =>
    cases w with
    | undef => exact Or.inl h
    | nac => cases h
    | const b =>
      simp only [meet] at h
      split at h
      · exact Or.inl h
      · cases h

end MethodFlow.Value
