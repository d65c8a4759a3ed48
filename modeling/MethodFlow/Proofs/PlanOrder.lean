import MethodFlow.Proofs.Requirements

/-!
Plans: when there is one for a list of requests, and what it is. It holds the requested analyses and
all that they require, each once and after everything that it requires, and otherwise in the order
in which a walk through the requests and their requirements comes to them.
-/

namespace MethodFlow

namespace Registry

variable {α : Type}

/-- What is requested, what that requires, and so on. -/
def Needs (r : Registry α) (configs : List Config) (id : String) : Prop :=
  ∃ c ∈ configs, r.Reaches c.id id

/-- The requests that there is no plan for. -/
inductive Refuses (r : Registry α) (configs : List Config) : Prop
  | unknown {c : Config} (hc : c ∈ configs) (h : r.contains c.id = false)
  | twice (h : ¬ (configs.map Config.id).Nodup)
  | unregistered {id : String} (hid : r.Needs configs id) (h : r.contains id = false)
  | circular {id : String} (hid : r.Needs configs id) (h : Relation.TransGen r.Requires id id)

/-- The plan for a list of requests: what is needed, once, with the requested configurations and
plain ones for the rest, each analysis after everything that it requires. Of two analyses of which
the first that is met does not require the other, the one that is met first comes first. -/
structure IsPlanFor (r : Registry α) (configs plan : List Config) : Prop where
  nodup : (plan.map Config.id).Nodup
  mem_iff : ∀ id, id ∈ plan.map Config.id ↔ r.Needs configs id
  requested : ∀ c ∈ configs, c ∈ plan
  plain : ∀ c ∈ plan, c.id ∉ configs.map Config.id → c = .plain c.id
  after : ∀ x ∈ plan.map Config.id, ∀ y, Relation.TransGen r.Requires x y →
    [y, x].Sublist (plan.map Config.id)
  order : ∃ met, r.Walk [] (configs.map Config.id) met ∧ ∀ x y, [x, y].Sublist met →
    ¬ r.Reaches x y → [x, y].Sublist (plan.map Config.id)

theorem IsStuck.refuses {r : Registry α} {configs : List Config} {c : Config} (hc : c ∈ configs)
    (h : r.IsStuck c.id) : r.Refuses configs := by
  obtain ⟨id, hid, h | h⟩ := h
  · exact .unregistered ⟨c, hc, hid⟩ h
  · exact .circular ⟨c, hc, hid⟩ h

/-- Different requests of registered analyses that lead nowhere else are not refused. -/
theorem not_refuses {r : Registry α} {configs : List Config}
    (hknown : ∀ c ∈ configs, r.contains c.id = true) (hnodup : (configs.map Config.id).Nodup)
    (hfree : ∀ id, r.Needs configs id → ¬ r.IsStuck id) : ¬ r.Refuses configs := by
  intro hbad
  cases hbad with
  | unknown hc h =>
    rw [hknown _ hc] at h
    cases h
  | twice h => exact h hnodup
  | unregistered hid h => exact hfree _ hid ⟨_, .refl, .inl h⟩
  | circular hid h => exact hfree _ hid ⟨_, .refl, .inr h⟩

theorem contains_eq_true_iff {r : Registry α} {id : String} :
    r.contains id = true ↔ id ∈ r.keys := by
  rw [← Decidable.not_iff_not, ← OrderedMap.find?_eq_none_iff, OrderedMap.contains]
  simp

end Registry

namespace Plan

open Registry

variable {α : Type} {r : Registry α} {configs seen plan : List Config}
  {known known' : OrderedMap String Config} {ids done : List String}

section Requests

/-- The requests by their ids. -/
def Lists (known : OrderedMap String Config) (seen : List Config) : Prop :=
  ∀ id, known.find? id = seen.find? fun c => c.id = id

theorem Lists.contains_iff (h : Lists known seen) {id : String} :
    known.contains id = true ↔ id ∈ seen.map Config.id := by
  rw [OrderedMap.contains, h id]
  simp

theorem Lists.insert (h : Lists known seen) {c : Config} (hc : c.id ∉ seen.map Config.id) :
    Lists (known.insert c.id c) (seen ++ [c]) := by
  intro id
  rw [OrderedMap.find?_insert, List.find?_append, h id]
  by_cases he : c.id = id
  · subst he
    have hnone : seen.find? (fun d => d.id = c.id) = none := by simpa using hc
    simp [hnone]
  · simp [he]

theorem note_eq_ok {c : Config} : note r known c = .ok known' ↔
    r.contains c.id = true ∧ known.contains c.id = false ∧ known' = known.insert c.id c := by
  unfold note
  cases r.contains c.id <;> cases known.contains c.id <;> simp [eq_comm]

theorem lists_foldlM (hk : Lists known seen) (hn : (seen.map Config.id).Nodup)
    (h : configs.foldlM (note r) known = .ok known') : Lists known' (seen ++ configs) ∧
      ((seen ++ configs).map Config.id).Nodup ∧ ∀ c ∈ configs, r.contains c.id = true := by
  induction configs generalizing known seen with
  | nil =>
    cases h
    simpa using ⟨hk, hn⟩
  | cons c configs ih =>
    rw [List.foldlM_cons] at h
    obtain ⟨_, hnote, h⟩ := Attempt.bind_eq_ok.mp h
    obtain ⟨hc, hnew, rfl⟩ := note_eq_ok.mp hnote
    have hfresh : c.id ∉ seen.map Config.id := by
      rw [← hk.contains_iff, hnew]
      simp
    have hn' : ((seen ++ [c]).map Config.id).Nodup := by
      rw [List.map_append, List.map_singleton, ← List.concat_eq_append]
      exact hn.concat hfresh
    obtain ⟨hlists, hnodup, hcontains⟩ := ih (hk.insert hfresh) hn' h
    rw [List.append_assoc] at hlists hnodup
    exact ⟨hlists, hnodup, List.forall_mem_cons.mpr ⟨hc, hcontains⟩⟩

theorem refuses_foldlM {e : ConfigError} (hk : Lists known seen)
    (h : configs.foldlM (note r) known = .error e) :
    (∃ c ∈ configs, r.contains c.id = false) ∨ ¬ ((seen ++ configs).map Config.id).Nodup := by
  induction configs generalizing known seen with
  | nil => cases h
  | cons c configs ih =>
    by_cases hc : r.contains c.id = true
    · by_cases hfresh : c.id ∈ seen.map Config.id
      · right
        intro hn
        rw [List.map_append, List.nodup_append] at hn
        exact hn.2.2 c.id hfresh c.id (by simp) rfl
      · have hnew : known.contains c.id = false := by
          rw [Bool.eq_false_iff, ne_eq, hk.contains_iff]
          exact hfresh
        have hnote : note r known c = .ok (known.insert c.id c) := note_eq_ok.mpr ⟨hc, hnew, rfl⟩
        rw [List.foldlM_cons, hnote, Attempt.ok_bind] at h
        rcases ih (hk.insert hfresh) h with ⟨d, hd, hbad⟩ | hbad
        · exact .inl ⟨d, List.mem_cons_of_mem c hd, hbad⟩
        · rw [List.append_assoc] at hbad
          exact .inr hbad
    · exact .inl ⟨c, by simp, Bool.eq_false_iff.mpr hc⟩

theorem lists_nil : Lists ∅ [] :=
  fun _ => rfl

theorem lists_collect (h : collect r configs = .ok known) : Lists known configs ∧
    (configs.map Config.id).Nodup ∧ ∀ c ∈ configs, r.contains c.id = true :=
  lists_foldlM lists_nil List.nodup_nil h

theorem refuses_collect {e : ConfigError} (h : collect r configs = .error e) :
    r.Refuses configs := by
  rcases refuses_foldlM lists_nil h with ⟨c, hc, hbad⟩ | hbad
  · exact .unknown hc hbad
  · exact .twice hbad

/-- The configuration that goes with an id. -/
theorem Lists.find?_of_mem (h : Lists known configs) (hn : (configs.map Config.id).Nodup)
    {c : Config} (hc : c ∈ configs) : known.find? c.id = some c := by
  rw [h c.id]
  cases hf : configs.find? fun d => d.id = c.id with
  | none => simpa using List.find?_eq_none.mp hf c hc
  | some d =>
    have hd : d.id = c.id := by simpa using List.find?_some hf
    rw [List.inj_on_of_nodup_map hn (List.mem_of_find?_eq_some hf) hc hd]

theorem Lists.id_getD (h : Lists known configs) (id : String) :
    ((known.find? id).getD (.plain id)).id = id := by
  rw [h id]
  cases hf : configs.find? fun d => d.id = id with
  | none => rfl
  | some d => simpa using List.find?_some hf

theorem Lists.map_id_getD (h : Lists known configs) (ids : List String) :
    (ids.map fun id => (known.find? id).getD (.plain id)).map Config.id = ids := by
  rw [List.map_map]
  exact (List.map_congr_left fun id _ => h.id_getD id).trans (List.map_id ids)

end Requests

theorem passes_schedule (h : schedule r ids = .ok done) :
    ∃ met, Passes r [] ids [] met [] done := by
  apply passes_foldlM _ (Stage.start r) h
  intro met done done' id hs hv
  exact passes_visit (fun x hx => contains_eq_true_iff.mpr hx) hs hv

/-- What is done behind a walk through the requests is what they need. -/
theorem mem_iff_needs {met : List String}
    (h : Passes r [] (configs.map Config.id) [] met [] done) {id : String} :
    id ∈ done ↔ r.Needs configs id := by
  constructor
  · intro hid
    obtain ⟨x, hx, hreach⟩ := h.source id (by simpa using (h.stage.mem_met id).mpr (.inl hid))
    obtain ⟨c, hc, rfl⟩ := List.mem_map.mp hx
    exact ⟨c, hc, hreach⟩
  · rintro ⟨c, hc, hreach⟩
    exact h.stage.mem_of_reaches (h.passed c.id (List.mem_map_of_mem hc)) hreach

theorem refuses_schedule {e : ConfigError} (h : schedule r (configs.map Config.id) = .error e) :
    r.Refuses configs := by
  obtain ⟨id, hid, done, h⟩ := Attempt.exists_of_foldlM_eq_error h
  obtain ⟨c, hc, rfl⟩ := List.mem_map.mp hid
  apply IsStuck.refuses hc
  exact isStuck_of_visit (fun x hx _ => contains_eq_true_iff.mp hx) (by simp) h

theorem refuses_of_arrange {e : ConfigError} (h : arrange r configs = .error e) :
    r.Refuses configs := by
  rcases Attempt.bind_eq_error.mp h with h | ⟨known, _, h⟩
  · exact refuses_collect h
  · rcases Attempt.bind_eq_error.mp h with h | ⟨ids, _, h⟩
    · exact refuses_schedule h
    · cases h

theorem isPlanFor_of_arrange (h : arrange r configs = .ok plan) :
    r.IsPlanFor configs plan ∧ ¬ r.Refuses configs := by
  obtain ⟨known, hknown, h⟩ := Attempt.bind_eq_ok.mp h
  obtain ⟨done, hdone, h⟩ := Attempt.bind_eq_ok.mp h
  obtain ⟨hlists, hnodup, hcontains⟩ := lists_collect hknown
  obtain ⟨met, hpass⟩ := passes_schedule hdone
  have hstage := hpass.stage
  cases h
  have hids := hlists.map_id_getD done
  refine ⟨⟨?_, ?_, ?_, ?_, ?_, met, ?_, ?_⟩, ?_⟩
  · rw [hids]
    exact hstage.nodup
  · rw [hids]
    exact fun id => mem_iff_needs hpass
  · intro c hc
    apply List.mem_map.mpr
    refine ⟨c.id, hpass.passed c.id (List.mem_map_of_mem hc), ?_⟩
    rw [hlists.find?_of_mem hnodup hc, Option.getD_some]
  · intro c hc hnot
    obtain ⟨id, _, rfl⟩ := List.mem_map.mp hc
    rw [hlists.id_getD] at hnot ⊢
    have hnone : known.find? id = none := by
      rw [hlists id]
      simpa using hnot
    rw [hnone, Option.getD_none]
  · rw [hids]
    intro x hx y hxy
    exact hstage.after_of_transGen hx hxy
  · simpa using hpass.walk [] met (.nil _)
  · rw [hids]
    intro x y hxy hn
    have hmem : ∀ z ∈ [x, y], z ∈ done := fun z hz => by
      simpa using (hstage.mem_met z).mp (hxy.subset hz)
    exact hstage.order x (hmem x (by simp)) y (hmem y (by simp)) hxy hn
  · exact not_refuses hcontains hnodup fun id hid =>
      hstage.not_isStuck ((mem_iff_needs hpass).mpr hid)

/-- Requests are refused exactly where one is not registered or made twice, or leads to an id that
is not registered or in a circle; for all others there is the plan. -/
theorem arrange_decides (r : Registry α) (configs : List Config) :
    ((∃ e, arrange r configs = .error e) ↔ r.Refuses configs) ∧
      (¬ r.Refuses configs → ∃ plan, arrange r configs = .ok plan ∧ r.IsPlanFor configs plan) := by
  cases h : arrange r configs with
  | error e =>
    have hbad := refuses_of_arrange h
    exact ⟨⟨fun _ => hbad, fun _ => ⟨e, rfl⟩⟩, fun hn => absurd hbad hn⟩
  | ok plan =>
    obtain ⟨hplan, hgood⟩ := isPlanFor_of_arrange h
    exact ⟨⟨nofun, fun hbad => absurd hbad hgood⟩, fun _ => ⟨plan, rfl, hplan⟩⟩

/-- An analysis that requires two others, which both require a third. -/
def diamond : Registry Unit :=
  .ofList [
    ("top", ⟨["right", "left", "base"], .custom fun _ => ()⟩),
    ("left", ⟨["base"], .custom fun _ => ()⟩),
    ("right", ⟨["base"], .custom fun _ => ()⟩),
    ("base", ⟨[], .custom fun _ => ()⟩)]

theorem arrange_decides_diamond : ¬ diamond.Refuses [.plain "top", .plain "left"] ∧
    ∃ plan, arrange diamond [.plain "top", .plain "left"] = .ok plan ∧
      diamond.IsPlanFor [.plain "top", .plain "left"] plan ∧
      plan.map Config.id = ["base", "right", "left", "top"] := by
  have hplan : arrange diamond [.plain "top", .plain "left"] =
      .ok [.plain "base", .plain "right", .plain "left", .plain "top"] := by cbv
  obtain ⟨hrefuses, harrange⟩ := arrange_decides diamond [.plain "top", .plain "left"]
  have hgood : ¬ diamond.Refuses [.plain "top", .plain "left"] := by
    intro hbad
    obtain ⟨e, he⟩ := hrefuses.mpr hbad
    cases he.symm.trans hplan
  obtain ⟨plan, h, hfor⟩ := harrange hgood
  cases h.symm.trans hplan
  exact ⟨hgood, _, h, hfor, rfl⟩

end Plan

end MethodFlow
