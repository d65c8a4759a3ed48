import MethodFlow.DeadCode
import MethodFlow.Proofs.GraphShape

/-!
The search for nodes that feasible paths reach: a finished search is closed under going on, what it
finds reachable are the visited nodes without the useless statements, and so the dead statements are
those that it did not visit and the useless ones.
-/

namespace MethodFlow.DeadCode

variable {w : Evidence} {fuel : Nat} {pending : List Node} {n : Node} {s r : Search}

/-- A useless statement assigns a pure expression to a variable that is dead behind it. -/
theorem isUseless_eq_true {n : Node} (h : isUseless w n = .ok true) : ∃ v e live,
    n.instr w.method = .assign (.var v) e ∧ w.live n = .ok live ∧ v ∉ live ∧ e.isPure = true := by
  unfold isUseless at h
  split at h
  · rename_i v e hi
    obtain ⟨live, hl, h⟩ := Attempt.bind_eq_ok.mp h
    have hb := Except.ok.inj h
    simp only [Bool.and_eq_true, Bool.not_eq_true', decide_eq_false_iff_not] at hb
    exact ⟨v, e, live, hi, hl, hb⟩
  · cases h

/-- What a search keeps of the nodes that it visits. -/
structure Search.Keeps (w : Evidence) (s : Search) : Prop where
  judged : ∀ n ∈ s.visited, ∃ b, isUseless w n = .ok b
  reachable : ∀ n, n ∈ s.reachable ↔
    n = .entry ∨ n = .exit ∨ n ∈ s.visited ∧ isUseless w n = .ok false

theorem Search.keeps_start (w : Evidence) : Search.start.Keeps w where
  judged := List.forall_mem_nil _
  reachable n := by simp [Search.start]

theorem Search.Keeps.visit (h : s.Keeps w) {b : Bool} (hb : isUseless w n = .ok b) :
    (s.visit n b).Keeps w where
  judged := List.forall_mem_cons.mpr ⟨⟨b, hb⟩, h.judged⟩
  reachable k := by
    rw [Search.visit, List.mem_cons]
    by_cases hk : k = n
    · subst hk
      cases b with
      | true => simp [h.reachable k, hb]
      | false => simp [hb]
    · cases b with
      | true => simp [h.reachable k, hk]
      | false => simp [h.reachable k, hk]

theorem explore_keeps (hs : s.Keeps w) (h : explore w fuel pending s = .ok r) : r.Keeps w := by
  induction fuel, pending, s using explore.induct with
  | case1 fuel s =>
    rw [explore] at h
    cases h
    exact hs
  | case2 n pending s =>
    rw [explore] at h
    cases h
  | case3 fuel n pending s hn ih =>
    rw [explore, if_pos hn] at h
    exact ih hs h
  | case4 fuel n pending s hn ih =>
    rw [explore, if_neg hn] at h
    obtain ⟨b, hb, h⟩ := Attempt.bind_eq_ok.mp h
    obtain ⟨ns, hns, h⟩ := Attempt.bind_eq_ok.mp h
    exact ih b ns (hs.visit hb) h

/-- A finished search has come to everything that was visited or pending, and goes on nowhere
else. -/
theorem explore_closed (h : explore w fuel pending s = .ok r) :
    (∀ n ∈ s.visited, n ∈ r.visited) ∧ (∀ n ∈ pending, n ∈ r.visited) ∧
      ∀ n ∈ r.visited, n ∈ s.visited ∨
        ∃ ns, feasible w n = .ok ns ∧ ∀ k ∈ ns, k ∈ r.visited := by
  induction fuel, pending, s using explore.induct with
  | case1 fuel s =>
    rw [explore] at h
    cases h
    exact ⟨fun _ hn => hn, fun _ hn => absurd hn List.not_mem_nil, fun _ hn => Or.inl hn⟩
  | case2 n pending s =>
    rw [explore] at h
    cases h
  | case3 fuel n pending s hn ih =>
    rw [explore, if_pos hn] at h
    obtain ⟨hs, hp, hr⟩ := ih h
    refine ⟨hs, fun k hk => ?_, hr⟩
    rcases List.mem_cons.mp hk with rfl | hk
    · exact hs k hn
    · exact hp k hk
  | case4 fuel n pending s hn ih =>
    rw [explore, if_neg hn] at h
    obtain ⟨b, _, h⟩ := Attempt.bind_eq_ok.mp h
    obtain ⟨ns, hns, h⟩ := Attempt.bind_eq_ok.mp h
    obtain ⟨hs, hp, hr⟩ := ih b ns h
    refine ⟨fun k hk => hs k (List.mem_cons_of_mem n hk), fun k hk => ?_, fun k hk => ?_⟩
    · rcases List.mem_cons.mp hk with rfl | hk
      · exact hs k List.mem_cons_self
      · exact hp k (List.mem_append_left _ hk)
    · rcases hr k hk with hk | hk
      · rcases List.mem_cons.mp hk with rfl | hk
        · -- what the visit made pending is visited, and what it left out had been visited
          refine Or.inr ⟨ns, hns, fun q hq => ?_⟩
          by_cases hseen : q ∈ (s.visit k b).visited
          · exact hs q hseen
          · exact hp q (List.mem_append_right _ (List.mem_filter.mpr ⟨hq, by simpa using hseen⟩))
        · exact Or.inl hk
      · exact Or.inr hk

/-- The visited nodes hold the entry, and every node to which a feasible edge leads from one of
them. -/
theorem search_closed (h : search w = .ok r) : .entry ∈ r.visited ∧
    ∀ n ∈ r.visited, ∃ ns, feasible w n = .ok ns ∧ ∀ k ∈ ns, k ∈ r.visited := by
  obtain ⟨_, hp, hr⟩ := explore_closed h
  refine ⟨hp .entry (List.mem_singleton_self _), fun n hn => ?_⟩
  exact (hr n hn).resolve_left List.not_mem_nil

/-- A statement is dead exactly when it is not visited, or useless. -/
theorem mem_of_detect {dead : List Nat} (h : detect w = .ok dead) : ∃ r, search w = .ok r ∧
    ∀ i, i ∈ dead ↔
      i < w.method.size ∧ (.stmt i ∈ r.visited → isUseless w (.stmt i) = .ok true) := by
  obtain ⟨r, hr, h⟩ := Attempt.bind_eq_ok.mp h
  cases h
  have hkeeps := explore_keeps (Search.keeps_start w) hr
  refine ⟨r, hr, fun i => ?_⟩
  rw [List.mem_filter, List.mem_range, decide_eq_true_eq, hkeeps.reachable]
  refine and_congr_right fun _ => ⟨fun hout hi => ?_, fun huseless => ?_⟩
  · obtain ⟨b, hb⟩ := hkeeps.judged _ hi
    cases b with
    | true => exact hb
    | false => exact absurd (.inr (.inr ⟨hi, hb⟩)) hout
  · rintro (hi | hi | ⟨hi, hb⟩)
    · cases hi
    · cases hi
    · cases (huseless hi).symm.trans hb

end MethodFlow.DeadCode
