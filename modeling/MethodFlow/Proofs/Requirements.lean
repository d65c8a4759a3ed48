import Mathlib.Data.List.Permutation
import Mathlib.Logic.Relation
import MethodFlow.Plan
import MethodFlow.Proofs.Attempt

/-!
What analyses require, and the walk from analysis to analysis that a plan is made by. An analysis
is done after everything that it requires; a walk fails where it comes to an id that is not
registered, or back to an analysis that it is still on the way through.
-/

namespace MethodFlow

/-- Of three items, each in front of the next, the first is in front of the last. -/
theorem pair_sublist_trans {α : Type} {x y z : α} {xs : List α} (hn : xs.Nodup)
    (hxy : [x, y].Sublist xs) (hyz : [y, z].Sublist xs) : [x, z].Sublist xs := by
  induction xs with
  | nil => cases hxy
  | cons w xs ih =>
    obtain ⟨hw, hn⟩ := List.nodup_cons.mp hn
    cases hxy with
    | cons _ hxy =>
      cases hyz with
      | cons _ hyz => exact (ih hn hxy hyz).cons w
      | cons_cons _ _ => exact absurd (hxy.subset (by simp)) hw
    | cons_cons _ hy =>
      cases hyz with
      | cons _ hyz => exact (List.singleton_sublist.mpr (hyz.subset (by simp))).cons_cons x
      | cons_cons _ _ => exact absurd (List.singleton_sublist.mp hy) hw

theorem pair_sublist_of_concat {α : Type} {x y z : α} {xs : List α} (hy : y ≠ z)
    (h : [x, y].Sublist (xs ++ [z])) : [x, y].Sublist xs := by
  have hrev : [y, x].Sublist (z :: xs.reverse) := by simpa using h.reverse
  cases hrev with
  | cons _ h => simpa using h.reverse
  | cons_cons _ _ => exact absurd rfl hy

/-- What stands behind an item that is new stands among the items that came with it. -/
theorem mem_of_pair_sublist {α : Type} {x y : α} {xs ys : List α} (hx : x ∉ xs)
    (h : [x, y].Sublist (xs ++ x :: ys)) : y ∈ ys := by
  induction xs with
  | nil =>
    cases h with
    | cons _ h => exact h.subset (by simp)
    | cons_cons _ h => exact List.singleton_sublist.mp h
  | cons w xs ih =>
    simp only [List.mem_cons, not_or] at hx
    cases h with
    | cons _ h => exact ih hx.2 h
    | cons_cons _ _ => exact absurd rfl hx.1

/-- What stands in front of an item that does not come again stands among the items before it. -/
theorem mem_of_sublist_pair {α : Type} {x y : α} {xs ys : List α} (hx : x ∉ ys)
    (h : [y, x].Sublist (xs ++ x :: ys)) : y ∈ xs := by
  rw [← List.mem_reverse] at hx ⊢
  exact mem_of_pair_sublist hx (by simpa using h.reverse)

namespace Registry

variable {α : Type}

def Requires (r : Registry α) (x y : String) : Prop :=
  y ∈ r.requires x

/-- An analysis itself, what it requires, what that requires, and so on. -/
def Reaches (r : Registry α) : String → String → Prop :=
  Relation.ReflTransGen r.Requires

/-- Following what is required leads to an id that is not registered, or in a circle. -/
def IsStuck (r : Registry α) (x : String) : Prop :=
  ∃ y, r.Reaches x y ∧ (r.contains y = false ∨ Relation.TransGen r.Requires y y)

/-- The walk that goes from each id to all that it requires before it goes on to the next id.
`met` are the ids that it has met, in the order in which it first met them. -/
inductive Walk (r : Registry α) : (met ids out : List String) → Prop
  | nil (met : List String) : Walk r met [] met
  | again {met ids out : List String} {x : String} (h : x ∈ met) (hw : Walk r met ids out) :
    Walk r met (x :: ids) out
  | enter {met ids out : List String} {x : String} (h : x ∉ met)
    (hw : Walk r (met ++ [x]) (r.requires x ++ ids) out) : Walk r met (x :: ids) out

theorem IsStuck.head {r : Registry α} {x y : String} (h : r.Requires x y) (hy : r.IsStuck y) :
    r.IsStuck x := by
  obtain ⟨z, hz, hbad⟩ := hy
  exact ⟨z, .head h hz, hbad⟩

end Registry

namespace Plan

open Registry

variable {α : Type} {r : Registry α} {met new active done done' ids pending : List String}
  {id : String}

/-- How far a walk has come: it has met what is done and what it is still on the way through. What
is done stands behind all that it requires, and apart from that in the order in which it was met. -/
structure Stage (r : Registry α) (met active done : List String) : Prop where
  nodup : done.Nodup
  mem_met : ∀ x, x ∈ met ↔ x ∈ done ∨ x ∈ active
  apart : ∀ x ∈ active, x ∉ done
  registered : ∀ x ∈ done, r.contains x = true
  after : ∀ x ∈ done, ∀ y, r.Requires x y → [y, x].Sublist done
  order : ∀ x ∈ done, ∀ y ∈ done, [x, y].Sublist met → ¬ r.Reaches x y → [x, y].Sublist done

namespace Stage

theorem start (r : Registry α) : Stage r [] [] [] where
  nodup := List.nodup_nil
  mem_met x := by simp
  apart x hx := by simp at hx
  registered x hx := by simp at hx
  after x hx := by simp at hx
  order x hx := by simp at hx

theorem enter (h : Stage r met active done) (hd : id ∉ done) :
    Stage r (met ++ [id]) (active ++ [id]) done where
  nodup := h.nodup
  mem_met x := by simp [h.mem_met, or_assoc]
  apart x hx := by
    rcases List.mem_append.mp hx with hx | hx
    · exact h.apart x hx
    · exact List.mem_singleton.mp hx ▸ hd
  registered := h.registered
  after := h.after
  order x hx y hy hxy := by
    apply h.order x hx y hy
    -- the id that was met last is not done
    have hne : y ≠ id := fun he => hd (he ▸ hy)
    exact pair_sublist_of_concat hne hxy

/-- An id is done once everything is that it requires. -/
theorem leave (h : Stage r (met ++ [id] ++ new) (active ++ [id]) done) (hm : id ∉ met)
    (ha : id ∉ active) (hr : r.contains id = true) (hreq : ∀ y, r.Requires id y → y ∈ done)
    (hnew : ∀ y ∈ new, r.Reaches id y) :
    Stage r (met ++ [id] ++ new) active (done ++ [id]) where
  nodup := by
    have hd : id ∉ done := h.apart id (by simp)
    simp [List.nodup_append, h.nodup]
    intro x hx he
    exact hd (he ▸ hx)
  mem_met x := by
    rw [h.mem_met]
    simp only [List.mem_append, List.mem_singleton]
    tauto
  apart x hx hd := by
    rcases List.mem_append.mp hd with hd | he
    · exact h.apart x (List.mem_append_left _ hx) hd
    · exact ha (List.mem_singleton.mp he ▸ hx)
  registered x hx := by
    rcases List.mem_append.mp hx with hx | he
    · exact h.registered x hx
    · exact List.mem_singleton.mp he ▸ hr
  after x hx y hxy := by
    rcases List.mem_append.mp hx with hx | he
    · exact (h.after x hx y hxy).trans (List.sublist_append_left done [id])
    · rw [List.mem_singleton.mp he] at hxy ⊢
      exact (List.singleton_sublist.mpr (hreq y hxy)).append (List.Sublist.refl [id])
  order x hx y hy hxy hn := by
    rcases List.mem_append.mp hx with hx | he
    · rcases List.mem_append.mp hy with hy | he
      · exact (h.order x hx y hy hxy hn).trans (List.sublist_append_left done [id])
      · rw [List.mem_singleton.mp he]
        exact (List.singleton_sublist.mpr hx).append (List.Sublist.refl [id])
    · -- what was met behind the id was met on the way through it, so the id reaches it
      cases List.mem_singleton.mp he
      rw [List.append_assoc] at hxy
      exact absurd (hnew y (mem_of_pair_sublist hm hxy)) hn

/-- Everything that an id requires, directly or not, is done in front of it. -/
theorem after_of_transGen (h : Stage r met active done) {x y : String} (hx : x ∈ done)
    (hxy : Relation.TransGen r.Requires x y) : [y, x].Sublist done := by
  induction hxy with
  | single hy => exact h.after x hx _ hy
  | tail _ hz ih => exact pair_sublist_trans h.nodup (h.after _ (ih.subset (by simp)) _ hz) ih

theorem mem_of_reaches (h : Stage r met active done) {x y : String} (hx : x ∈ done)
    (hxy : r.Reaches x y) : y ∈ done := by
  rcases Relation.reflTransGen_iff_eq_or_transGen.mp hxy with rfl | hxy
  · exact hx
  · exact (h.after_of_transGen hx hxy).subset (by simp)

/-- What is done is not stuck. -/
theorem not_isStuck (h : Stage r met active done) {x : String} (hx : x ∈ done) :
    ¬ r.IsStuck x := by
  rintro ⟨y, hy, hbad⟩
  have hd := h.mem_of_reaches hx hy
  rcases hbad with hbad | hbad
  · rw [h.registered y hd] at hbad
    cases hbad
  · exact List.nodup_iff_sublist.mp h.nodup y (h.after_of_transGen hd hbad)

end Stage

/-- What walking to some ids does: they are done afterwards, and the ids that are met on the way,
`new`, are reached from them. -/
structure Passes (r : Registry α) (active ids met new done done' : List String) : Prop where
  stage : Stage r (met ++ new) active done'
  grows : ∀ x ∈ done, x ∈ done'
  passed : ∀ x ∈ ids, x ∈ done'
  source : ∀ y ∈ new, ∃ x ∈ ids, r.Reaches x y
  walk : ∀ rest out, Walk r (met ++ new) rest out → Walk r met (ids ++ rest) out

theorem passes_nil (h : Stage r met active done) : Passes r active [] met [] done done where
  stage := by simpa using h
  grows x hx := hx
  passed x hx := by simp at hx
  source y hy := by simp at hy
  walk rest out hw := by simpa using hw

theorem Passes.cons {new' done'' : List String} (h : Passes r active [id] met new done done')
    (h' : Passes r active ids (met ++ new) new' done' done'') :
    Passes r active (id :: ids) met (new ++ new') done done'' where
  stage := by simpa using h'.stage
  grows x hx := h'.grows x (h.grows x hx)
  passed x hx := by
    rcases List.mem_cons.mp hx with rfl | hx
    · exact h'.grows x (h.passed x (by simp))
    · exact h'.passed x hx
  source y hy := by
    rcases List.mem_append.mp hy with hy | hy
    · obtain ⟨x, hx, hxy⟩ := h.source y hy
      exact ⟨x, List.mem_cons.mpr (.inl (List.mem_singleton.mp hx)), hxy⟩
    · obtain ⟨x, hx, hxy⟩ := h'.source y hy
      exact ⟨x, List.mem_cons_of_mem id hx, hxy⟩
  walk rest out hw := h.walk _ out (h'.walk rest out (by simpa using hw))

/-- Walks to ids one after the other. -/
theorem passes_foldlM {f : List String → String → Except ConfigError (List String)}
    (hf : ∀ {met done done' id}, Stage r met active done → f done id = .ok done' →
      ∃ new, Passes r active [id] met new done done')
    (hs : Stage r met active done) (h : ids.foldlM f done = .ok done') :
    ∃ new, Passes r active ids met new done done' := by
  induction ids generalizing met done with
  | nil =>
    cases h
    exact ⟨[], passes_nil hs⟩
  | cons id ids ih =>
    rw [List.foldlM_cons] at h
    obtain ⟨done₁, hid, h⟩ := Attempt.bind_eq_ok.mp h
    obtain ⟨new, hnew⟩ := hf hs hid
    obtain ⟨new', hnew'⟩ := ih hnew.stage h
    exact ⟨new ++ new', hnew.cons hnew'⟩

/-- A walk to an id comes to an end with the id done. -/
theorem passes_visit (hp : ∀ x ∈ pending, r.contains x = true) (hs : Stage r met active done)
    (h : visit r active done pending id = .ok done') :
    ∃ new, Passes r active [id] met new done done' := by
  induction active, done, pending, id using visit.induct generalizing met done' with
  | case1 active done pending id hd =>
    rw [visit, if_pos hd] at h
    cases h
    refine ⟨[], by simpa using hs, fun x hx => hx, by simpa using hd, by simp, ?_⟩
    intro rest out hw
    apply Walk.again ((hs.mem_met id).mpr (.inl hd))
    simpa using hw
  | case2 active done pending id hd ha =>
    rw [visit, if_neg hd, if_pos ha] at h
    cases h
  | case3 active done pending id hd ha hid _ ih =>
    rw [visit, if_neg hd, if_neg ha, dif_pos hid] at h
    obtain ⟨done₁, hdeps, h⟩ := Attempt.bind_eq_ok.mp h
    cases h
    have hm : id ∉ met := fun hm => ((hs.mem_met id).mp hm).elim hd ha
    obtain ⟨new, hnew⟩ := passes_foldlM
      (fun hs' hv => ih _ _ (fun x hx => hp x (List.mem_of_mem_erase hx)) hs' hv)
      (hs.enter hd) hdeps
    have hreach : ∀ y ∈ new, r.Reaches id y := by
      intro y hy
      obtain ⟨x, hx, hxy⟩ := hnew.source y hy
      exact .head hx hxy
    refine ⟨id :: new, ?_, fun x hx => List.mem_append_left _ (hnew.grows x hx), by simp, ?_, ?_⟩
    · simpa using hnew.stage.leave hm ha (hp id hid) hnew.passed hreach
    · intro y hy
      refine ⟨id, by simp, ?_⟩
      rcases List.mem_cons.mp hy with rfl | hy
      · exact .refl
      · exact hreach y hy
    · intro rest out hw
      exact .enter hm (hnew.walk rest out (by simpa using hw))
  | case4 active done pending id hd ha hid =>
    rw [visit, if_neg hd, if_neg ha, dif_neg hid] at h
    cases h

/-- A walk to an id fails only where the id is stuck; each id that the walk is still on the way
through leads to it. -/
theorem isStuck_of_visit {e : ConfigError}
    (hp : ∀ x, r.contains x = true → x ∉ active → x ∈ pending)
    (hactive : ∀ x ∈ active, Relation.TransGen r.Requires x id)
    (h : visit r active done pending id = .error e) : r.IsStuck id := by
  induction active, done, pending, id using visit.induct generalizing e with
  | case1 active done pending id hd =>
    rw [visit, if_pos hd] at h
    cases h
  | case2 active done pending id hd ha => exact ⟨id, .refl, .inr (hactive id ha)⟩
  | case3 active done pending id hd ha hid _ ih =>
    rw [visit, if_neg hd, if_neg ha, dif_pos hid] at h
    rcases Attempt.bind_eq_error.mp h with h | ⟨_, _, h⟩
    · obtain ⟨dep, hdep, done₁, h⟩ := Attempt.exists_of_foldlM_eq_error h
      apply IsStuck.head hdep
      apply ih done₁ dep _ _ h
      · intro x hx hn
        simp only [List.mem_append, List.mem_singleton, not_or] at hn
        exact (List.mem_erase_of_ne hn.2).mpr (hp x hx hn.1)
      · intro x hx
        rcases List.mem_append.mp hx with hx | he
        · exact (hactive x hx).tail hdep
        · exact List.mem_singleton.mp he ▸ .single hdep
    · cases h
  | case4 active done pending id hd ha hid =>
    refine ⟨id, .refl, .inl (Bool.eq_false_iff.mpr fun hr => ?_)⟩
    exact hid (hp id hr ha)

end Plan

end MethodFlow
