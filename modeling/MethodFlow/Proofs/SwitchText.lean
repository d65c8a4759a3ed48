import MethodFlow.Proofs.JumpText
import MethodFlow.Proofs.Repeats

/-!
The text of a switch: its cases are read one after the other and keep their values and targets.
-/

namespace MethodFlow

open Source Reader Instr

variable {s : Scope} {n : Nat}

section Cases

/-- A case that says what a value and a target say. -/
def Source.Case.Says (c : Int × Target) (x : Case) : Prop :=
  x.value.value = .ok c.1 ∧ String.ofList x.jump.label = c.2.labelled

theorem blank_number (k : Int) (rest : List Char) : blank ((toString k).toList ++ rest) = none := by
  obtain ⟨c, r, hr, hc⟩ := toString_head k
  rw [hr]
  apply blank_none
  rcases hc with rfl | hc
  · rfl
  · exact isSolid_of_isNameChar (isNameChar_of_isDigit hc)

theorem case_reads {c : Int × Target} (hw : Text.isWritable c.1 = true) (h : c.2.IsWithin n) :
    ∃ x : Case, x.Says c ∧ ∀ rest, blank rest = none →
      Reader.case (spacedText (caseWords Target.labelled c) ++ rest) = some (x, rest) := by
  obtain ⟨k, hk, hkread⟩ := number_append c.1
  obtain ⟨j, hj, hjread⟩ := h.reads
  refine ⟨⟨[.space ' '], k, [], [.space ' '], j, [.space ' ']⟩, ⟨hk hw, hj⟩, fun rest hrest => ?_⟩
  have htext : spacedText (caseWords Target.labelled c) ++ rest =
      "case".toList ++ ' ' :: ((toString c.1).toList ++ ':' :: ' ' ::
        (c.2.jumpText ++ ' ' :: rest)) := by
    simp [spacedText, caseWords, Target.jumpText]
  rw [htext]
  refine bind_of (exactly_append "case" _) ?_
  refine bind_of (gap1_space (blank_number _ _)) ?_
  refine bind_of (hkread _ rfl) ?_
  refine bind_of (gap_nil (blank_none rfl)) ?_
  refine bind_of (exactly_append ":" _) ?_
  refine bind_of (gap_space blank_jumpText) ?_
  refine bind_of (hjread _) ?_
  exact bind_of (gap_space hrest) rfl

theorem default_reads {d : Target} (h : d.IsWithin n) :
    ∃ x : Default, String.ofList x.jump.label = d.labelled ∧ ∀ rest, blank rest = none →
      Reader.default (spacedText (defaultWords Target.labelled d) ++ rest) = some (x, rest) := by
  obtain ⟨j, hj, hjread⟩ := h.reads
  refine ⟨⟨[], [.space ' '], j, [.space ' ']⟩, hj, fun rest hrest => ?_⟩
  have htext : spacedText (defaultWords Target.labelled d) ++ rest =
      "default".toList ++ ':' :: ' ' :: (d.jumpText ++ ' ' :: rest) := by
    simp [spacedText, defaultWords, Target.jumpText]
  rw [htext]
  refine bind_of (exactly_append "default" _) ?_
  refine bind_of (gap_nil (blank_none rfl)) ?_
  refine bind_of (exactly_append ":" _) ?_
  refine bind_of (gap_space blank_jumpText) ?_
  refine bind_of (hjread _) ?_
  exact bind_of (gap_space hrest) rfl

theorem run_cases {cs : List (Int × Target)} (hw : ∀ c ∈ cs, Text.isWritable c.1 = true)
    (h : ∀ c ∈ cs, c.2.IsWithin n) :
    ∃ xs : List Case, List.Forall₂ (fun c x => x.Says c) cs xs ∧
      ∀ rest, blank rest = none → Reader.case rest = none →
        Run Reader.case (spacedText (cs.flatMap (caseWords Target.labelled)) ++ rest) xs rest ∧
          blank (spacedText (cs.flatMap (caseWords Target.labelled)) ++ rest) = none := by
  induction cs with
  | nil => exact ⟨[], .nil, fun rest hsolid hend => ⟨.stop hend, hsolid⟩⟩
  | cons c cs ih =>
    obtain ⟨hwc, hwcs⟩ := List.forall_mem_cons.mp hw
    obtain ⟨x, hx, hread⟩ := case_reads hwc (h c List.mem_cons_self)
    obtain ⟨xs, hxs, hrun⟩ := ih hwcs fun c' hc => h c' (List.mem_cons_of_mem c hc)
    refine ⟨x :: xs, .cons hx hxs, fun rest hsolid hend => ?_⟩
    obtain ⟨hmore, hblank⟩ := hrun rest hsolid hend
    rw [List.flatMap_cons, spacedText_append, List.append_assoc]
    refine ⟨.step (hread _ hblank) ?_ hmore, ?_⟩
    · simp [spacedText, caseWords]
      omega
    · rw [caseWords, spacedText_cons, List.append_assoc]
      exact blank_none rfl

/-- The values of cases and the labels they lead to are those that the cases say. -/
theorem Source.Case.meanings_of {cs : List (Int × Target)} {xs : List Case}
    (h : List.Forall₂ (fun c x => x.Says c) cs xs) (p : Pos) :
    ∃ ys, Case.meanings p xs = .ok ys ∧ ys.map Prod.fst = cs.map Prod.fst ∧
      List.Forall₂ (fun c (x : LabelRef) => x.name = c.2.labelled) cs (ys.map Prod.snd) := by
  induction h generalizing p with
  | nil => exact ⟨[], rfl, rfl, .nil⟩
  | @cons c x cs xs hc _ ih =>
    obtain ⟨ys, hys, hvalues, hlabels⟩ := ih (p.after x.text)
    refine ⟨(c.1, x.jump.target (p.after x.head)) :: ys, ?_, congrArg _ hvalues,
      .cons hc.2 hlabels⟩
    rw [Case.meanings, hc.1, hys]
    rfl

end Cases

section Switch

variable {v : Var} {ks : List Int} {ts : List Target} {d : Target}

theorem resolve_cases {l : Layout LabelRef} (hl : l.Resolves n) {cs : List (Int × Target)}
    (hcs : ∀ c ∈ cs, c.2.IsWithin n) {xs : List LabelRef}
    (h : List.Forall₂ (fun c (x : LabelRef) => x.name = c.2.labelled) cs xs) :
    xs.mapM l.resolve = .ok (cs.map Prod.snd) := by
  rw [Attempt.mapM_eq_ok]
  induction h with
  | nil => exact .nil
  | cons hx _ ih =>
    refine .cons ((hcs _ List.mem_cons_self).resolve hl hx) ?_
    exact ih fun c hc => hcs c (List.mem_cons_of_mem _ hc)

theorem Source.Switch.meaning_of {w : Switch} (hv : s.Knows v) (hks : ks.Nodup)
    (hlen : ks.length = ts.length) (hts : ∀ t ∈ ts, t.IsWithin n) (hd : d.IsWithin n)
    (hselector : w.selector = v.name.toList)
    (hcases : List.Forall₂ (fun c x => x.Says c) (ks.zip ts) w.cases)
    (hdefault : String.ofList w.default.jump.label = d.labelled) (p : Pos) :
    ∃ x, w.meaning s p = .ok x ∧
      ∀ l : Layout LabelRef, l.Resolves n → l.resolveInstr x = .ok (.switch v ks ts d) := by
  have hfst : (ks.zip ts).map Prod.fst = ks := List.map_fst_zip (by omega)
  have hsnd : (ks.zip ts).map Prod.snd = ts := List.map_snd_zip (by omega)
  obtain ⟨ys, hys, hvalues, hlabels⟩ := Case.meanings_of hcases (p.after w.head)
  have hrepeated : repeated? [] ys = none :=
    repeated?_eq_none.mpr (by rw [hvalues, hfst]; exact hks)
  refine ⟨.switch v (ys.map Prod.fst) (ys.map Prod.snd)
    (w.default.jump.target (((p.after w.head).after (w.cases.flatMap Case.text)).after
      w.default.head)), ?_, fun l hl => ?_⟩
  · rw [Switch.meaning, hselector, hv.lookup]
    simp only [hys, hrepeated, Attempt.ok_bind, Attempt.pure_eq_ok]
  · have hwithin : ∀ c ∈ ks.zip ts, c.2.IsWithin n := fun c hc => hts c.2 (List.of_mem_zip hc).2
    rw [Layout.resolveInstr, resolve_cases hl hwithin hlabels, hsnd, Attempt.ok_bind,
      hd.resolve hl hdefault, hvalues, hfst]
    rfl

theorem switchText_toList (hv : IsName v.name.toList) :
    ((Instr.switch v ks ts d).textWith Target.labelled).toList =
      "switch".toList ++ ' ' :: '(' :: (v.name.toList ++ ')' :: ' ' :: '\x7b' :: ' ' ::
        (spacedText ((ks.zip ts).flatMap (caseWords Target.labelled)) ++
          (spacedText (defaultWords Target.labelled d) ++ ['\x7d']))) := by
  have hblank : ' ' ∉ v.name.toList := fun h => by cases hv.all_isNameChar _ h
  rw [textWith, String.toList_ofList, halveBlanks_switchText v _ d hblank]
  simp [switchWords, headWords, spacedText]

/-- The text of a switch is read as a switch on the same variable, with the same values and
targets. -/
theorem switch_reads (hv : s.Knows v) (hks : ks.Nodup) (hlen : ks.length = ts.length)
    (hts : ∀ t ∈ ts, t.IsWithin n) (hd : d.IsWithin n)
    (hw : (Instr.switch v ks ts d).IsWritable) :
    ∃ w : Switch, (∀ p, ∃ x, w.meaning s p = .ok x ∧
        ∀ l : Layout LabelRef, l.Resolves n → l.resolveInstr x = .ok (.switch v ks ts d)) ∧
      ∀ rest, Reader.switch (((Instr.switch v ks ts d).textWith Target.labelled).toList ++ rest) =
        some (w, rest) := by
  have hwithin : ∀ c ∈ ks.zip ts, c.2.IsWithin n := fun c hc => hts c.2 (List.of_mem_zip hc).2
  obtain ⟨xs, hxs, hrun⟩ := run_cases (List.forall_mem_map.mp hw) hwithin
  obtain ⟨y, hy, hyread⟩ := default_reads hd
  refine ⟨⟨[.space ' '], [], v.name.toList, [], [.space ' '], [.space ' '], xs, y⟩,
    fun p => ?_, fun rest => ?_⟩
  · exact Switch.meaning_of hv hks hlen hts hd rfl hxs hy p
  · have htext : ((Instr.switch v ks ts d).textWith Target.labelled).toList ++ rest =
        "switch".toList ++ ' ' :: '(' :: (v.name.toList ++ ')' :: ' ' :: '\x7b' :: ' ' ::
          (spacedText ((ks.zip ts).flatMap (caseWords Target.labelled)) ++
            (spacedText (defaultWords Target.labelled d) ++ '\x7d' :: rest))) := by
      rw [switchText_toList hv.isName]
      simp only [List.append_assoc, List.cons_append, List.nil_append]
    obtain ⟨hcases, hsolid⟩ := hrun
      (spacedText (defaultWords Target.labelled d) ++ '\x7d' :: rest) rfl (bind_none rfl)
    rw [htext]
    refine bind_of (exactly_append "switch" _) ?_
    refine bind_of (gap_space (blank_none rfl)) ?_
    refine bind_of (exactly_append "(" _) ?_
    refine bind_of (gap_nil hv.isName.blank_append) ?_
    refine bind_of (name_append hv.isName rfl) ?_
    refine bind_of (gap_nil (blank_none rfl)) ?_
    refine bind_of (exactly_append ")" _) ?_
    refine bind_of (gap_space (blank_none rfl)) ?_
    refine bind_of (exactly_append "\x7b" _) ?_
    refine bind_of (gap_space hsolid) ?_
    refine bind_of hcases.many ?_
    refine bind_of (hyread _ (blank_none rfl)) ?_
    exact bind_of (exactly_append "\x7d" rest) rfl

end Switch

end MethodFlow
