import MethodFlow.Proofs.LikeMethods
import MethodFlow.Proofs.SeamedPhrases

/-!
Statements and methods are read side by side on two texts that part at a seam, unless one goes
beyond a closing brace at the seam.
-/

namespace MethodFlow.Source

open Attempt Reader

/-- Positions that are the same if the texts have been the same so far. -/
def Seam.near (k : Seam) (p p' : Pos) : Prop :=
  k.isBrace = true → p = p'

namespace Reader

variable {α β : Type} {k : Seam} {p p' q q' : Reader α} {f f' : α → Reader β} {g g' : α → β}
  {S S' : α → α → Prop} {T : β → β → Prop} {cs cs' r r' : List Char}

section Laws

/-- A reader goes beyond the closing brace at the seam. -/
def Crosses (k : Seam) (x : Option (α × List Char)) : Prop :=
  k.isBrace = true ∧ ∃ a r, x = some (a, r) ∧ r.length < k.left.length

/-- Readers that stay side by side unless the first goes beyond a closing brace at the seam. -/
def Tracks (k : Seam) (p p' : Reader α) (S : α → α → Prop) : Prop :=
  ∀ cs cs', Near k cs cs' → Abreast k S (p cs) (p' cs') ∨ Crosses k (p cs)

theorem Keeps.tracks (h : Keeps k p p' S) : Tracks k p p' S :=
  fun cs cs' hcs => .inl (h cs cs' hcs)

theorem Tracks.keeps (h : Tracks k p p' S) (hk : k.isBrace = false) : Keeps k p p' S := by
  intro cs cs' hcs
  rcases h cs cs' hcs with h | ⟨hbrace, _⟩
  · exact h
  · cases hk.symm.trans hbrace

theorem Tracks.mono (h : Tracks k p p' S) (hS : ∀ a a', S a a' → S' a a') : Tracks k p p' S' :=
  fun cs cs' hcs => (h cs cs' hcs).imp_left fun h => h.mono hS

theorem Keeps.bindTracks (hp : Keeps k p p' S)
    (hf : ∀ a a', S a a' → Tracks k (f a) (f' a') T) : Tracks k (p >>= f) (p' >>= f') T := by
  intro cs cs' hcs
  rw [bind_apply, bind_apply]
  obtain ⟨h, h'⟩ | ⟨a, a', r, r', h, h', hS, hr⟩ := hp cs cs' hcs
  · rw [h, h']
    exact .inl abreast_none
  · rw [h, h']
    exact hf a a' hS r r' hr

/-- A mark between other things. -/
theorem tracks_mark {s : String} {f f' : Unit → Reader β} (hs : s.toList.all isInner = true)
    (hf : Tracks k (f ()) (f' ()) T) : Tracks k (exactly s >>= f) (exactly s >>= f') T :=
  (keeps_exactly hs).bindTracks fun _ _ _ => hf

/-- A gap between other things. -/
theorem tracks_past_gap {f f' : Gap → Reader β} (hf : ∀ g g', Tracks k (f g) (f' g') T) :
    Tracks k (gap >>= f) (gap >>= f') T :=
  keeps_gap.bindTracks fun g g' _ => hf g g'

/-- Where a reader is followed by one that always matches, no brace is crossed in vain. -/
theorem Tracks.bindTotal (hp : Tracks k p p' S)
    (hf : ∀ a a', S a a' → Keeps k (f a) (f' a') T)
    (htotal : ∀ a r, ∃ b r', f a r = some (b, r') ∧ r'.length ≤ r.length) :
    Tracks k (p >>= f) (p' >>= f') T := by
  intro cs cs' hcs
  rcases hp cs cs' hcs with h | ⟨hk, a, r, hread, hlt⟩
  · exact .inl (h.bind fun a a' r r' hS hr => hf a a' hS r r' hr)
  · obtain ⟨b, z, hb, hle⟩ := htotal a r
    exact .inr ⟨hk, b, z, bind_of hread hb, by omega⟩

theorem Tracks.bindPure (hp : Tracks k p p' S) (hg : ∀ a a', S a a' → T (g a) (g' a')) :
    Tracks k (p >>= fun a => pure (g a)) (p' >>= fun a => pure (g' a)) T :=
  hp.bindTotal (fun a a' hS => keeps_pure (hg a a' hS)) fun a r => ⟨g a, r, rfl, Nat.le_refl _⟩

theorem Tracks.map (h : Tracks k p p' fun a a' => T (g a) (g' a')) :
    Tracks k (g <$> p) (g' <$> p') T := by
  rw [map_eq_pure_bind, map_eq_pure_bind]
  exact h.bindPure fun _ _ h => h

theorem Tracks.orElse (hp : Tracks k p p' S) (hq : Tracks k q q' S) :
    Tracks k (p <|> q) (p' <|> q') S := by
  intro cs cs' hcs
  rcases hp cs cs' hcs with (⟨h, h'⟩ | ⟨a, a', r, r', h, h', hS, hr⟩) | ⟨hk, a, r, h, hlt⟩
  · rw [orElse_none h, orElse_none h']
    exact hq cs cs' hcs
  · rw [orElse_some h, orElse_some h']
    exact .inl (abreast_some hS hr)
  · exact .inr ⟨hk, a, r, orElse_some h, hlt⟩

theorem Run.length_le {as : List α} {rest : List Char} (h : Run p cs as rest) :
    rest.length ≤ cs.length := by
  induction h with
  | stop => exact Nat.le_refl _
  | step _ hlt _ ih => omega

theorem Tracks.many (h : Tracks k p p S) (hp : Consumes p) :
    Tracks k (many p) (many p) (List.Forall₂ S) := by
  intro cs cs' hcs
  obtain ⟨as, rest, hrun⟩ := hp.exists_run cs
  obtain ⟨as', rest', hrun', hSs, hrest⟩ | ⟨hk, hlt⟩ :
      (∃ as' rest', Run p cs' as' rest' ∧ List.Forall₂ S as as' ∧ Near k rest rest') ∨
        k.isBrace = true ∧ rest.length < k.left.length := by
    induction hrun generalizing cs' with
    | @stop cs hnone =>
      rcases h cs cs' hcs with (⟨-, hnone'⟩ | ⟨_, _, _, _, hread, _⟩) | ⟨_, _, _, hread, _⟩
      · exact .inl ⟨[], cs', .stop hnone', .nil, hcs⟩
      · cases hnone.symm.trans hread
      · cases hnone.symm.trans hread
    | @step cs r rest a as hread _ hmore ih =>
      rcases h cs cs' hcs with (⟨hnone, -⟩ | ⟨_, a', _, r', hread₁, hread', hS, hr⟩) |
        ⟨hk, _, _, hread₁, hlt⟩
      · cases hnone.symm.trans hread
      · cases hread.symm.trans hread₁
        refine (ih r' hr).imp_left fun ⟨as', rest', hrun', hSs, hrest⟩ => ?_
        exact ⟨a' :: as', rest', .step hread' (hp _ _ _ hread') hrun', .cons hS hSs, hrest⟩
      · cases hread.symm.trans hread₁
        have hle := hmore.length_le
        exact .inr ⟨hk, by omega⟩
  · rw [hrun.many, hrun'.many]
    exact .inl (abreast_some hSs hrest)
  · exact .inr ⟨hk, as, rest, hrun.many, hlt⟩

end Laws

section Braces

theorem text_eq_of_near {x x' : List Char} (hk : k.isBrace = true) (hcs : Near k cs cs')
    (hr : Near k r r') (h : cs = x ++ r) (h' : cs' = x' ++ r') : x = x' := by
  cases hcs with
  | behind hk' => cases hk.symm.trans hk'
  | ahead _ hls hls' =>
    cases hr with
    | behind hk' => cases hk.symm.trans hk'
    | ahead _ hks hks' =>
      rw [hls.text, hks.text, ← List.append_assoc, List.append_cancel_right_eq] at h
      rw [hls'.text, hks'.text, ← List.append_assoc, List.append_cancel_right_eq] at h'
      exact List.append_cancel_right (h.symm.trans h')

/-- In front of a brace, what is read side by side has the same text. -/
theorem Tracks.withText {t : α → List Token} (h : Tracks k p p S) (hp : Spells [] p t) :
    Tracks k p p fun a a' => S a a' ∧ (k.isBrace = true → spelling (t a) = spelling (t a')) := by
  intro cs cs' hcs
  rcases h cs cs' hcs with (hnone | ⟨a, a', r, r', h, h', hS, hr⟩) | hcross
  · exact .inl (.inl hnone)
  · refine .inl (.inr ⟨a, a', r, r', h, h', ⟨hS, fun hk => ?_⟩, hr⟩)
    exact text_eq_of_near hk hcs hr (hp.text h) (hp.text h')
  · exact .inr hcross

/-- A closing brace that only the first reader may take is the one at the seam. -/
theorem tracks_close : Tracks k (exactly "\x7d") (exactly "\x7d") Eq := by
  intro cs cs' hcs
  rcases hcs.start with ⟨hk, rfl⟩ | ⟨rfl, rfl⟩ | ⟨l, r, r', hl, hl', hr⟩
  · exact .inl (abreast_behind hk (fun _ => rfl) _)
  · cases k with
    | comment ls c rest hread hcomment hbare =>
      obtain ⟨z, hz⟩ := Blank.text_of_isSpace hcomment
      have hleft : exactly "\x7d" (c.text ++ rest) = none := by
        rw [hz]
        exact exactly_none rfl (by decide)
      exact .inl (.inl ⟨hleft, exactly_none rfl (by decide)⟩)
    | brace ls r r' => exact .inr ⟨rfl, (), r, exactly_append "\x7d" r, Nat.lt_succ_self _⟩
  · by_cases hclose : l = .char '\x7d'
    · subst hclose
      obtain rfl := (lexeme_eq_some hl).1
      obtain rfl := (lexeme_eq_some hl').1
      exact .inl (abreast_some rfl hr)
    · have hnone : ∀ {cs r}, lexeme cs = some (l, r) → exactly "\x7d" cs = none := by
        intro cs r hl
        rw [Option.eq_none_iff_forall_ne_some]
        intro x hx
        obtain rfl : cs = '\x7d' :: x.2 := exactly_eq_some.mp hx
        cases hl.symm.trans (lexeme_of_isLone rfl)
        exact hclose rfl
      exact .inl (.inl ⟨hnone hl, hnone hl'⟩)

end Braces

section Statements

theorem keeps_jumpTo : Keeps k jumpTo jumpTo fun j j' => j.label = j'.label := by
  refine keeps_mark rfl (keeps_past_gap1 fun _ _ => keeps_name.bindEq fun x => ?_)
  exact keeps_past_gap fun _ _ => keeps_mark rfl (keeps_pure rfl)

theorem keeps_branch : Keeps k branch branch fun b b' =>
    (Command.branch b).Like (.branch b') := by
  refine keeps_mark rfl (keeps_past_gap fun _ _ => keeps_mark rfl (keeps_past_gap fun _ _ => ?_))
  refine keeps_condition.bind fun o o' ho => keeps_past_gap fun _ _ => keeps_mark rfl ?_
  refine keeps_past_gap fun _ _ => keeps_jumpTo.bind fun j j' hj => keeps_pure ?_
  exact Command.like_branch ho.1 ho.2.1 ho.2.2 hj

theorem keeps_case : Keeps k case case Case.Like := by
  refine keeps_mark rfl (keeps_past_gap1 fun _ _ => keeps_number.bindEq fun n => ?_)
  refine keeps_past_gap fun _ _ => keeps_mark rfl (keeps_past_gap fun _ _ => ?_)
  refine keeps_jumpTo.bind fun j j' hj => keeps_past_gap fun _ _ => keeps_pure ?_
  exact ⟨rfl, hj⟩

theorem keeps_default : Keeps k default default fun d d' => d.jump.label = d'.jump.label := by
  refine keeps_mark rfl (keeps_past_gap fun _ _ => keeps_mark rfl (keeps_past_gap fun _ _ => ?_))
  exact keeps_jumpTo.bind fun j j' hj => keeps_past_gap fun _ _ => keeps_pure hj

theorem tracks_switch : Tracks k switch switch fun w w' =>
    (Command.switch w).Like (.switch w') := by
  refine tracks_mark rfl (tracks_past_gap fun _ _ => tracks_mark rfl ?_)
  refine tracks_past_gap fun _ _ => keeps_name.bindTracks fun x x' hx => ?_
  refine tracks_past_gap fun _ _ => tracks_mark rfl (tracks_past_gap fun _ _ => ?_)
  refine tracks_mark rfl (tracks_past_gap fun _ _ => ?_)
  refine (keeps_case.many consumes_case).bindTracks fun cs cs' hcs => ?_
  refine keeps_default.bindTracks fun d d' hd => tracks_close.bindPure fun _ _ _ => ?_
  exact Switch.like hx hcs hd

theorem keeps_assignment : Keeps k assignment assignment fun a a' =>
    (Command.assign a).Like (.assign a') := by
  refine keeps_leftSide.bind fun l l' hl => keeps_past_gap fun _ _ => keeps_mark rfl ?_
  refine keeps_past_gap fun _ _ => keeps_rightSide.bind fun r r' hr => ?_
  refine keeps_past_gap fun _ _ => keeps_mark rfl (keeps_pure ?_)
  exact Assignment.like hl hr

theorem keeps_returnCommand : Keeps k returnCommand returnCommand Command.Like := by
  have hreturned : Keeps k returned returned fun r r' => r.value = r'.value :=
    keeps_past_gap1 fun _ _ => keeps_atom.bindEq fun _ => keeps_pure rfl
  refine keeps_mark rfl (hreturned.optional.bind fun r r' hr => keeps_past_gap fun _ _ => ?_)
  exact keeps_mark rfl (keeps_pure (Command.like_ret hr))

theorem tracks_command : Tracks k command command Command.Like := by
  have hnop : Keeps k nopCommand nopCommand Command.Like := by
    refine keeps_mark rfl (keeps_past_gap fun _ _ => keeps_mark rfl (keeps_pure ?_))
    exact Command.like_nop _ _
  have hcall : Keeps k callCommand callCommand Command.Like := by
    refine keeps_invocation.bind fun i i' hi => keeps_past_gap fun _ _ => ?_
    exact keeps_mark rfl (keeps_pure (Command.like_call hi))
  refine keeps_returnCommand.tracks.orElse <| .orElse (.map (keeps_jumpTo.mono ?_).tracks) <|
    .orElse (.map keeps_branch.tracks) <| .orElse (.map tracks_switch) <|
      hnop.tracks.orElse <| hcall.tracks.orElse (.map keeps_assignment.tracks)
  exact fun j j' h => Command.like_goto h

theorem exists_gap (cs : List Char) : ∃ g r, gap cs = some (g, r) ∧ r.length ≤ cs.length := by
  obtain ⟨g, r, hrun⟩ := consumes_blank.exists_run cs
  exact ⟨g, r, hrun.many, hrun.length_le⟩

theorem tracks_item : Tracks k item item fun i i' =>
    i.Like i' ∧ (k.isBrace = true → i.text = i'.text) := by
  have hlabel : Keeps k label label fun l l' => l.name = l'.name := by
    refine keeps_name.bindEq fun x => keeps_past_gap fun _ _ => keeps_mark rfl ?_
    exact keeps_past_gap fun _ _ => keeps_pure rfl
  have hstatement : Tracks k statement statement fun x x' => x.command.Like x'.command := by
    refine tracks_command.bindTotal (fun c c' hc => keeps_past_gap fun _ _ => keeps_pure hc) ?_
    intro c r
    obtain ⟨g, r', hg, hle⟩ := exists_gap r
    exact ⟨⟨c, g⟩, r', bind_of hg rfl, hle⟩
  have hitem : Tracks k item item fun i i' => i.Like i' :=
    .orElse (.map (hlabel.mono fun _ _ h => .label h).tracks)
      (.map (hstatement.mono fun _ _ h => .statement h))
  refine (hitem.withText spells_item).mono fun i i' h => ⟨h.1, fun hk => ?_⟩
  rw [← i.spelling_tokens, h.2 hk, i'.spelling_tokens]

end Statements

section Methods

theorem keeps_params : Keeps k params params fun ps ps' =>
    List.Forall₂ Param.Like ps.items ps'.items := by
  have hparam : Keeps k param param Param.Like := by
    refine keeps_typeName.bindEq fun type => keeps_past_gap1 fun _ _ => ?_
    exact keeps_name.bindEq fun x => keeps_pure ⟨rfl, rfl⟩
  exact (keeps_listed spells_param hparam).bind fun l l' h => keeps_past_gap fun _ _ => keeps_pure h

theorem keeps_varDecl : Keeps k varDecl varDecl VarDecl.Like := by
  refine keeps_typeName.bindEq fun type => keeps_past_gap1 fun _ _ => ?_
  refine (keeps_listed spells_name keeps_name).bind fun l l' hl => keeps_past_gap fun _ _ => ?_
  refine keeps_mark rfl (keeps_past_gap fun _ _ => keeps_pure ⟨rfl, ?_⟩)
  rwa [List.forall₂_eq_eq_eq] at hl

/-- Methods are read side by side up to their closing braces. In front of a brace they have the same
text there, and their statements stand on the same lines. -/
theorem tracks_methodFront : Tracks k methodFront methodFront fun d d' =>
    (k.isBrace = true → d.inner = d'.inner) ∧ ∀ p p', k.near p p' →
      Likewise (Method.Like fun l l' => k.isBrace = true → l = l')
        (d.meaning p) (d'.meaning p') := by
  have hfront : Tracks k methodFront methodFront fun d d' => d.Like k.near d' ∧
      (k.isBrace = true → d.items.flatMap Item.text = d'.items.flatMap Item.text) := by
    refine tracks_mark rfl (keeps_gap1.bindTracks fun _ _ _ => ?_)
    refine keeps_typeName.bindTracks fun t t' ht => keeps_gap1.bindTracks fun _ _ _ => ?_
    refine keeps_name.bindTracks fun x x' hx => tracks_past_gap fun _ _ => tracks_mark rfl ?_
    refine tracks_past_gap fun _ _ => keeps_params.optional.bindTracks fun ps ps' hps => ?_
    refine tracks_mark rfl (tracks_past_gap fun _ _ => tracks_mark rfl ?_)
    refine tracks_past_gap fun _ _ => ?_
    refine (keeps_varDecl.many consumes_varDecl).bindTracks fun ds ds' hds => ?_
    refine (tracks_item.many consumes_item).bindPure fun is is' his => ?_
    have hitems : List.Forall₂ (Item.Keeps k.near) is is' := his.imp fun i i' hi =>
      ⟨hi.1, fun p p' hp hk => by rw [hp hk, hi.2 hk]⟩
    refine ⟨⟨ht, hx, hps, hds, hitems⟩, fun hk => congrArg List.flatten ?_⟩
    rw [← List.forall₂_eq_eq_eq, List.forall₂_map_left_iff, List.forall₂_map_right_iff]
    exact his.imp fun i i' hi => hi.2 hk
  refine (hfront.withText spells_methodFront).mono fun d d' h => ?_
  have hinner (hk : k.isBrace = true) : d.inner = d'.inner := by
    rw [← d.spelling_innerTokens, h.2 hk, d'.spelling_innerTokens]
  refine ⟨hinner, fun p p' hp => MethodDecl.Like.meaning (fun q q' hq hk => ?_) h.1.1 fun hk => ?_⟩
  · rw [hq hk]
  · have hdecls := hinner hk
    rw [MethodDecl.inner, MethodDecl.inner, h.1.2 hk] at hdecls
    rw [← Pos.after_append, ← Pos.after_append, hp hk, List.append_cancel_right hdecls]

/-- Where a comment stands in the place of a space, methods are read side by side. -/
theorem keeps_methodDecl (hk : k.isBrace = false) : Keeps k methodDecl methodDecl fun d d' =>
    ∀ p p', Likewise (Method.Like fun _ _ => True) (d.meaning p) (d'.meaning p') := by
  rw [methodDecl_eq]
  refine (tracks_methodFront.keeps hk).bind fun d d' hd => ?_
  refine (tracks_close.keeps hk).bindEq fun _ => keeps_past_gap fun g g' => keeps_pure ?_
  intro p p'
  have hmeaning := hd.2 p p' fun hbrace => nomatch hk.symm.trans hbrace
  exact hmeaning.mono fun m m' h => h.mono fun _ _ _ => trivial

end Methods

end Reader

end MethodFlow.Source
