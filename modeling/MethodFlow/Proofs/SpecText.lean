import MethodFlow.Proofs.OptionText

/-!
The text of a configuration that was read off a spec is a spec of the same configuration: with the
same id, and with the same options in the same order.
-/

namespace MethodFlow.Config

open Text Source

section Ids

variable {id : List Char}

theorem mem_of_isId (h : isId id = true) {c : Char} (hc : c ∈ id) :
    isTypeChar c = true ∨ c = '-' := by
  cases id with
  | nil => cases h
  | cons d r =>
    obtain ⟨hd, hr⟩ := Bool.and_eq_true_iff.mp h
    rcases List.mem_cons.mp hc with rfl | hc
    · left
      simp [isTypeChar, isNameChar, Char.isAlphanum, hd]
    · have hchar := List.all_eq_true.mp hr c hc
      rw [Bool.or_eq_true, Bool.or_eq_true, beq_iff_eq, beq_iff_eq] at hchar
      rcases hchar with (hchar | hchar) | hchar
      · left
        simp [isTypeChar, isNameChar, hchar]
      · left
        rw [hchar]
        rfl
      · exact .inr hchar

theorem isTrimmed_of_isId (h : isId id = true) : IsTrimmed id :=
  isTrimmed_of_solid fun c hc => by
    rcases mem_of_isId h hc with hc | rfl
    · exact isSpacing_of_isTypeChar hc
    · rfl

theorem notMem_of_isId (h : isId id = true) : '=' ∉ id := fun hmem => by
  rcases mem_of_isId h hmem with hc | hc <;> cases hc

theorem ne_nil_of_isId (h : isId id = true) : id ≠ [] := by
  rintro rfl
  cases h

end Ids

variable {spec : List Char}

/-- The id that a spec begins with. -/
def idOf (spec : List Char) : List Char :=
  trim (cutAt '=' (trim spec)).1

/-- The items that a spec holds behind its id. -/
def itemsOf (spec : List Char) : List (List Char) :=
  ((pieces ';' ((cutAt '=' (trim spec)).2.getD [])).map trim).filter (!·.isEmpty)

theorem notMem_of_mem_itemsOf {item : List Char} (h : item ∈ itemsOf spec) : ';' ∉ item := by
  obtain ⟨p, hp, rfl⟩ := List.mem_map.mp (List.mem_filter.mp h).1
  exact fun hmem => notMem_of_mem_pieces hp (mem_of_mem_trim hmem)

variable {source description : String} {c : Config}

theorem parse_eq (source description : String) : parse source description =
    if isId (idOf source.toList) = true then do
      let options ←
        (itemsOf source.toList).foldlM (addOption (String.ofList (idOf source.toList))) ∅
      return ⟨String.ofList (idOf source.toList), options, description⟩
    else .error (.invalidId (String.ofList (trim source.toList))) := by
  by_cases hid : isId (idOf source.toList) = true
  · rw [if_pos hid]
    unfold idOf at hid
    simp only [parse, hid, Bool.not_true, Bool.false_eq_true, if_false]
    rfl
  · rw [if_neg hid]
    unfold idOf at hid
    simp only [parse, hid, Bool.not_false, if_true]
    rfl

theorem parse_eq_ok : parse source description = .ok c ↔ isId (idOf source.toList) = true ∧
    (itemsOf source.toList).foldlM (addOption (String.ofList (idOf source.toList))) ∅ =
      .ok c.options ∧ c.id = String.ofList (idOf source.toList) ∧ c.description = description := by
  rw [parse_eq]
  split
  · rename_i hid
    refine Attempt.bind_eq_ok.trans ⟨?_, ?_⟩
    · rintro ⟨options, hoptions, h⟩
      have hc : (⟨String.ofList (idOf source.toList), options, description⟩ : Config) = c :=
        Except.ok.inj h
      rw [← hc]
      exact ⟨hid, hoptions, rfl, rfl⟩
    · rintro ⟨_, hoptions, hcid, hdescription⟩
      refine ⟨c.options, hoptions, ?_⟩
      rw [← hcid, ← hdescription]
      rfl
  · rename_i hid
    exact ⟨nofun, fun h => absurd h.1 hid⟩

/-- A configuration that a spec can spell out. -/
structure IsSpelled (c : Config) : Prop where
  id : isId c.id.toList = true
  options : ∀ o ∈ c.options.entries, IsOption o

theorem isSpelled_of_parse (h : parse source description = .ok c) : c.IsSpelled := by
  obtain ⟨hid, hitems, hcid, _⟩ := parse_eq_ok.mp h
  refine ⟨?_, ?_⟩
  · rw [hcid, String.toList_ofList]
    exact hid
  · exact isOption_of_foldlM (fun _ => notMem_of_mem_itemsOf) (List.forall_mem_nil _) hitems

/-- The text of options, apart by semicolons. -/
def optionsText (os : List (String × OptionValue)) : List Char :=
  [';'].intercalate (os.map optionText)

/-- The text of a configuration whose options can be written. -/
def text (c : Config) : String :=
  if c.options.entries.isEmpty then c.id
  else c.id ++ "=" ++ ";".intercalate (c.options.entries.map fun o => o.1 ++ ":" ++ o.2.text)

/-- What can be spelled out can be written. -/
theorem IsSpelled.render_eq (h : c.IsSpelled) : c.render = .ok c.text := by
  unfold render text
  split
  · rfl
  · have hoptions : c.options.entries.mapM (fun o => do return o.1 ++ ":" ++ (← o.2.render)) =
        (.ok (c.options.entries.map fun o => o.1 ++ ":" ++ o.2.text) : Except Overlong _) := by
      refine Attempt.mapM_eq_ok.mpr (List.forall₂_map_right_iff.mpr (List.forall₂_same.mpr ?_))
      intro o ho
      obtain ⟨cs, _, hvalue⟩ := (h.options o ho).exists_text
      rw [OptionValue.render_of_ofText hvalue]
      rfl
    rw [hoptions]
    rfl

theorem toList_text (c : Config) : c.text.toList =
    if c.options.entries = [] then c.id.toList
    else c.id.toList ++ '=' :: optionsText c.options.entries := by
  have htext (o : String × OptionValue) : (o.1 ++ ":" ++ o.2.text).toList = optionText o := by
    simp [optionText]
  unfold text
  simp only [List.isEmpty_iff]
  split
  · rfl
  · rw [String.toList_append, String.toList_append, String.toList_intercalate, List.map_map,
      List.append_assoc]
    simp only [Function.comp_def, htext]
    rfl

section Options

variable {os : List (String × OptionValue)}

theorem isTrimmed_optionsText (hne : os ≠ []) (h : ∀ o ∈ os, IsOption o) :
    IsTrimmed (optionsText os) := by
  induction os with
  | nil => exact absurd rfl hne
  | cons o os ih =>
    obtain ⟨ho, hos⟩ := List.forall_mem_cons.mp h
    cases os with
    | nil =>
      rw [optionsText, List.map_singleton, List.intercalate_singleton]
      exact ho.isTrimmed
    | cons q qs =>
      have hcons : optionsText (o :: q :: qs) = optionText o ++ ';' :: optionsText (q :: qs) := by
        rw [optionsText, List.map_cons, List.map_cons, List.intercalate_cons_cons,
          List.append_assoc]
        rfl
      have hfirst : optionText o ≠ [] := by simp [optionText]
      rw [hcons]
      exact isTrimmed_joined ho.isTrimmed hfirst rfl (ih (List.cons_ne_nil q qs) hos)

/-- The options that stand apart by semicolons are the items between them. -/
theorem items_optionsText (hne : os ≠ []) (h : ∀ o ∈ os, IsOption o) :
    ((pieces ';' (optionsText os)).map trim).filter (!·.isEmpty) = os.map optionText := by
  have hpieces : pieces ';' (optionsText os) = os.map optionText :=
    pieces_intercalate (by simpa using hne)
      (List.forall_mem_map.mpr fun o ho => (h o ho).notMem_text)
  have htrim : (os.map optionText).map trim = os.map optionText := by
    rw [List.map_map]
    exact List.map_congr_left fun o ho => (h o ho).isTrimmed.trim_eq_self
  rw [hpieces, htrim]
  refine List.filter_eq_self.mpr (List.forall_mem_map.mpr fun o _ => ?_)
  simp [optionText]

end Options

theorem IsSpelled.isTrimmed_text (h : c.IsSpelled) : IsTrimmed c.text.toList := by
  have hid := isTrimmed_of_isId h.id
  rw [toList_text]
  split
  · exact hid
  · rename_i hsome
    exact isTrimmed_joined hid (ne_nil_of_isId h.id) rfl (isTrimmed_optionsText hsome h.options)

theorem IsSpelled.idOf_text (h : c.IsSpelled) : idOf c.text.toList = c.id.toList := by
  have hmark := notMem_of_isId h.id
  rw [idOf, h.isTrimmed_text.trim_eq_self, toList_text]
  split
  · rw [cutAt_of_notMem hmark, (isTrimmed_of_isId h.id).trim_eq_self]
  · rw [cutAt_append hmark, (isTrimmed_of_isId h.id).trim_eq_self]

theorem IsSpelled.itemsOf_text (h : c.IsSpelled) :
    itemsOf c.text.toList = c.options.entries.map optionText := by
  have hmark := notMem_of_isId h.id
  rw [itemsOf, h.isTrimmed_text.trim_eq_self, toList_text]
  split
  · rename_i hnone
    rw [cutAt_of_notMem hmark, hnone]
    rfl
  · rename_i hsome
    rw [cutAt_append hmark]
    exact items_optionsText hsome h.options

theorem IsSpelled.parse_text (h : c.IsSpelled) : parse c.text c.description = .ok c := by
  refine parse_eq_ok.mpr ?_
  rw [h.idOf_text, h.itemsOf_text, String.ofList_toList]
  exact ⟨h.id, foldlM_optionText (m := ∅) h.options c.options.nodup_keys, rfl, rfl⟩

/-- Whatever spec a configuration was read off, its own text is a spec of it too: with the same id,
and with the same options and kinds of values in the same order. -/
theorem parse_render_of_parse (h : parse source description = .ok c) :
    ∃ t, c.render = .ok t ∧ parse t description = .ok c := by
  have hspelled := isSpelled_of_parse h
  refine ⟨c.text, hspelled.render_eq, ?_⟩
  rw [← (parse_eq_ok.mp h).2.2.2]
  exact hspelled.parse_text

/-- A spec with blanks, an empty item, digits of another script, a repeated key, an equals sign in a
key and a colon in a value. -/
def respelledText : String :=
  " live = n : -٠٠٧ ;; k=x: YES ; n:on:1"

/-- What `respelledText` configures. -/
def respelled : Config :=
  ⟨"live", .ofList [("n", .str "on:1"), ("k=x", .bool true)], ""⟩

theorem parse_render_respelled : parse respelledText "" = .ok respelled ∧
    respelled.render = .ok "live=n:on:1;k=x:True" ∧
      parse "live=n:on:1;k=x:True" "" = .ok respelled := by
  have hid : idOf respelledText.toList = ['l', 'i', 'v', 'e'] := by
    simp only [respelledText, String.reduceToList]
    decide
  have hitems : itemsOf respelledText.toList =
      ["n : -٠٠٧".toList, "k=x: YES".toList, "n:on:1".toList] := by
    simp only [respelledText, String.reduceToList]
    decide
  have hoptions : ["n : -٠٠٧".toList, "k=x: YES".toList, "n:on:1".toList].foldlM
      (addOption (String.ofList ['l', 'i', 'v', 'e'])) ∅ = .ok respelled.options := by
    simp only [String.reduceToList]
    rfl
  have h : parse respelledText "" = .ok respelled :=
    parse_eq_ok.mpr ⟨by rw [hid]; decide, by rw [hid, hitems, hoptions], by rw [hid]; rfl, rfl⟩
  have hrender : respelled.render = .ok "live=n:on:1;k=x:True" := by cbv
  obtain ⟨t, ht, hparse⟩ := parse_render_of_parse h
  cases hrender.symm.trans ht
  exact ⟨h, hrender, hparse⟩

end MethodFlow.Config
