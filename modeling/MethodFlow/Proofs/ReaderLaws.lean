import Mathlib.Data.List.TakeWhile
import MethodFlow.Source.Gap

/-!
The laws of readers: what a reader made of others reads is what they read one after the other.
-/

namespace MethodFlow.Source.Reader

variable {α β : Type} {p q : Reader α} {f : α → Reader β} {g : α → β} {a : α}
  {cs r rest : List Char}

section Sequence

theorem bind_apply : (p >>= f) cs = (p cs).bind fun x => f x.1 x.2 := rfl

theorem bind_eq_some {b : β} :
    (p >>= f) cs = some (b, rest) ↔ ∃ a r, p cs = some (a, r) ∧ f a r = some (b, rest) := by
  rw [bind_apply, Option.bind_eq_some_iff, Prod.exists]

/-- A first reader that matches hands its value and what it leaves to the next. -/
theorem bind_of {y : Option (β × List Char)} (h : p cs = some (a, r)) (hf : f a r = y) :
    (p >>= f) cs = y := by
  rw [bind_apply, h]
  exact hf

theorem bind_none (h : p cs = none) : (p >>= f) cs = none := by
  rw [bind_apply, h]
  rfl

/-- Where the first of two readers matches, the second decides whether both do. -/
theorem bind_none_of (h : ∀ a r, p cs = some (a, r) → f a r = none) : (p >>= f) cs = none := by
  rw [bind_apply, Option.bind_eq_none_iff]
  exact fun x hx => h x.1 x.2 hx

theorem map_apply : (g <$> p) cs = (p cs).map fun x => (g x.1, x.2) := by
  change ((p cs).bind fun x => some (g x.1, x.2)) = _
  cases p cs <;> rfl

theorem map_eq_some {b : β} :
    (g <$> p) cs = some (b, rest) ↔ ∃ a, p cs = some (a, rest) ∧ g a = b := by
  rw [map_apply, Option.map_eq_some_iff, Prod.exists]
  simp only [Prod.mk.injEq]
  constructor
  · intro ⟨a, _, h, hb, hr⟩
    exact ⟨a, hr ▸ h, hb⟩
  · intro ⟨a, h, hb⟩
    exact ⟨a, rest, h, hb, rfl⟩

theorem map_some (h : p cs = some (a, r)) : (g <$> p) cs = some (g a, r) := by
  rw [map_apply, h, Option.map_some]

theorem map_eq_none : (g <$> p) cs = none ↔ p cs = none := by
  rw [map_apply, Option.map_eq_none_iff]

theorem map_none (h : p cs = none) : (g <$> p) cs = none :=
  map_eq_none.mpr h

end Sequence

section Choice

theorem orElse_apply : (p <|> q) cs = (p cs).or (q cs) := by
  change (p cs <|> q cs) = _
  cases p cs <;> rfl

theorem orElse_some {x : α × List Char} (h : p cs = some x) : (p <|> q) cs = some x := by
  rw [orElse_apply, h, Option.some_or]

theorem orElse_none (h : p cs = none) : (p <|> q) cs = q cs := by
  rw [orElse_apply, h, Option.none_or]

theorem orElse_eq_some {x : α × List Char} :
    (p <|> q) cs = some x ↔ p cs = some x ∨ p cs = none ∧ q cs = some x := by
  rw [orElse_apply, Option.or_eq_some_iff]

theorem optional_some (h : p cs = some (a, r)) : optional p cs = some (some a, r) :=
  orElse_some (map_some h)

theorem optional_none (h : p cs = none) : optional p cs = some (none, cs) := by
  rw [optional, orElse_none (map_none h)]
  rfl

end Choice

section Literals

theorem satisfying_cons {t : Char → Bool} {c : Char} :
    satisfying t (c :: r) = if t c then some (c, r) else none := rfl

theorem satisfying_some {t : Char → Bool} {c : Char} (h : t c = true) :
    satisfying t (c :: r) = some (c, r) := by
  rw [satisfying_cons, if_pos h]

theorem satisfying_none {t : Char → Bool} {c : Char} (h : t c = false) :
    satisfying t (c :: r) = none := by
  rw [satisfying_cons, h]
  rfl

theorem satisfying_eq_some {t : Char → Bool} {c : Char} :
    satisfying t cs = some (c, r) ↔ cs = c :: r ∧ t c = true := by
  cases cs with
  | nil => simp [satisfying]
  | cons d cs =>
    rw [satisfying_cons, Option.ite_none_right_eq_some, Option.some.injEq, Prod.mk.injEq,
      List.cons.injEq]
    constructor
    · intro ⟨h, hd, hr⟩
      exact ⟨⟨hd, hr⟩, hd ▸ h⟩
    · intro ⟨⟨hd, hr⟩, h⟩
      exact ⟨hd ▸ h, hd, hr⟩

theorem after?_eq_some {k : List Char} : after? k cs = some r ↔ cs = k ++ r := by
  induction k generalizing cs with
  | nil => simp [after?, eq_comm]
  | cons c k ih =>
    cases cs with
    | nil => simp [after?]
    | cons d cs =>
      by_cases h : c = d
      · simp [after?, h, ih]
      · simp [after?, h, Ne.symm h]

theorem exactly_eq_some {s : String} {u : Unit} :
    exactly s cs = some (u, r) ↔ cs = s.toList ++ r := by
  simp [exactly, after?_eq_some]

theorem exactly_append (s : String) (r : List Char) : exactly s (s.toList ++ r) = some ((), r) :=
  exactly_eq_some.mpr rfl

theorem exactly_none {s : String} {c d : Char} (hs : s.toList.head? = some d) (h : c ≠ d) :
    exactly s (c :: r) = none := by
  rw [Option.eq_none_iff_forall_ne_some]
  intro x hx
  have heq := congrArg List.head? (exactly_eq_some.mp hx)
  rw [List.head?_append, hs] at heq
  exact h (Option.some.inj heq)

/-- Whether a text does not go on with a character of some class. -/
def stops (t : Char → Bool) : List Char → Bool
  | [] => true
  | c :: _ => !t c

theorem span_append {t : Char → Bool} {x : List Char} (hx : ∀ c ∈ x, t c = true)
    (hrest : stops t rest = true) : span t (x ++ rest) = some (x, rest) := by
  have htake : rest.takeWhile t = [] := by
    cases rest with
    | nil => rfl
    | cons c r => exact List.takeWhile_cons_of_neg (by simpa [stops] using hrest)
  have hdrop : rest.dropWhile t = rest := by
    cases rest with
    | nil => rfl
    | cons c r => exact List.dropWhile_cons_of_neg (by simpa [stops] using hrest)
  rw [span, List.takeWhile_append_of_pos hx, List.dropWhile_append_of_pos hx, htake, hdrop,
    List.append_nil]

theorem span_eq_some {t : Char → Bool} {x : List Char} (h : span t cs = some (x, rest)) :
    cs = x ++ rest ∧ (∀ c ∈ x, t c = true) ∧ stops t rest = true := by
  cases h
  refine ⟨List.takeWhile_append_dropWhile.symm, fun c hc => List.mem_takeWhile_imp hc, ?_⟩
  cases hd : cs.dropWhile t with
  | nil => rfl
  | cons c r =>
    have h := List.head_dropWhile_not t (l := cs) (by simp [hd])
    simp only [hd, List.head_cons] at h
    simp [stops, h]

theorem span1_append {t : Char → Bool} {x : List Char} (hne : x ≠ []) (hx : ∀ c ∈ x, t c = true)
    (hrest : stops t rest = true) : span1 t (x ++ rest) = some (x, rest) := by
  obtain ⟨c, x, rfl⟩ := List.exists_cons_of_ne_nil hne
  refine bind_of (satisfying_some (hx c List.mem_cons_self)) ?_
  exact bind_of (span_append (fun d hd => hx d (List.mem_cons_of_mem c hd)) hrest) rfl

end Literals

section Repetition

/-- Values one after the other, each of which takes something, up to where there is none. -/
inductive Run (p : Reader α) : List Char → List α → List Char → Prop
  | stop {cs : List Char} (h : p cs = none) : Run p cs [] cs
  | step {cs r rest : List Char} {a : α} {as : List α} (h : p cs = some (a, r))
      (hlt : r.length < cs.length) (hr : Run p r as rest) : Run p cs (a :: as) rest

variable {as : List α}

theorem Run.atMost {n : Nat} (h : Run p cs as rest) (hn : cs.length ≤ n) :
    atMost p n cs = some (as, rest) := by
  induction h generalizing n with
  | stop h =>
    cases n with
    | zero => rfl
    | succ n => exact orElse_none (bind_none h)
  | step h hlt _ ih =>
    cases n with
    | zero => omega
    | succ n => exact orElse_some (bind_of h (bind_of (ih (by omega)) rfl))

theorem Run.many (h : Run p cs as rest) : many p cs = some (as, rest) :=
  h.atMost (Nat.le_refl _)

theorem Run.many1 (h : Run p cs (a :: as) rest) : many1 p cs = some (a :: as, rest) := by
  cases h with
  | step h _ hr => exact bind_of h (bind_of hr.many rfl)

theorem Run.stops (h : Run p cs as rest) : p rest = none := by
  induction h with
  | stop h => exact h
  | step _ _ _ ih => exact ih

/-- A reader that takes at least one character wherever it matches. -/
def Consumes (p : Reader α) : Prop :=
  ∀ cs a r, p cs = some (a, r) → r.length < cs.length

theorem Consumes.exists_run (h : Consumes p) (cs : List Char) : ∃ as rest, Run p cs as rest := by
  cases hp : p cs with
  | none => exact ⟨[], cs, .stop hp⟩
  | some x =>
    have hlt := h cs x.1 x.2 hp
    obtain ⟨as, rest, hrun⟩ := h.exists_run x.2
    exact ⟨x.1 :: as, rest, .step hp hlt hrun⟩
termination_by cs.length

theorem many_eq_some (h : Consumes p) : many p cs = some (as, rest) ↔ Run p cs as rest := by
  refine ⟨fun hmany => ?_, Run.many⟩
  obtain ⟨as', rest', hrun⟩ := h.exists_run cs
  cases hmany.symm.trans hrun.many
  exact hrun

/-- There are always some values one after the other, if only none. -/
theorem exists_many (p : Reader α) (cs : List Char) : ∃ x, many p cs = some x := by
  unfold many
  cases cs.length with
  | zero => exact ⟨([], cs), rfl⟩
  | succ n =>
    rw [atMost, orElse_apply]
    exact Option.isSome_iff_exists.mp (by rw [Option.isSome_or]; exact Bool.or_true _)

theorem many_none (h : p cs = none) : many p cs = some ([], cs) :=
  (Run.stop h).many

theorem many1_none (h : p cs = none) : many1 p cs = none :=
  bind_none h

end Repetition

section Gaps

/-- Whether a character begins neither a blank nor a comment. -/
def isSolid (c : Char) : Bool :=
  !Text.isBlank c && c != '/'

theorem blank_none {c : Char} (h : isSolid c = true) : blank (c :: r) = none := by
  simp only [isSolid, Bool.and_eq_true, Bool.not_eq_true', bne_iff_ne, ne_eq] at h
  rw [blank, orElse_none (map_none (satisfying_none h.1)), comment, lineComment,
    orElse_none (bind_none (exactly_none rfl h.2)), blockComment,
    bind_none (exactly_none rfl h.2)]

theorem blank_space : blank (' ' :: r) = some (.space ' ', r) := rfl

theorem run_spaces (n : Nat) (h : blank rest = none) :
    Run blank (List.replicate n ' ' ++ rest) (List.replicate n (.space ' ')) rest := by
  induction n with
  | zero => exact .stop h
  | succ n ih =>
    refine .step blank_space ?_ ih
    simp

theorem gap_spaces (n : Nat) (h : blank rest = none) :
    gap (List.replicate n ' ' ++ rest) = some (List.replicate n (.space ' '), rest) :=
  (run_spaces n h).many

theorem gap_nil (h : blank cs = none) : gap cs = some ([], cs) :=
  many_none h

theorem gap_space (h : blank r = none) : gap (' ' :: r) = some ([.space ' '], r) :=
  gap_spaces 1 h

theorem gap1_space (h : blank r = none) : gap1 (' ' :: r) = some ([.space ' '], r) :=
  (run_spaces 1 h).many1

theorem gap1_none (h : blank cs = none) : gap1 cs = none :=
  many1_none h

end Gaps

end MethodFlow.Source.Reader
