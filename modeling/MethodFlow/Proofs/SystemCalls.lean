import MethodFlow.CommandLine.Output
import Mathlib.Order.Defs.Unbundled

/-!
What the calls of the program leave behind. All that is done before an output is open leaves the
files as they look, whatever comes of it; behind that, only the file that was opened changes, or the
text that was printed does.
-/

namespace MethodFlow.CommandLine

/-- What is seen of a system: the contents of its files, and what was printed. -/
structure View (φ : Type) where
  files : φ → Option (List Nat)
  printed : String

namespace View

variable {φ : Type}

/-- All is as it was, but for the contents of one file. -/
def SameBut (f : φ) (v w : View φ) : Prop :=
  w.printed = v.printed ∧ ∀ g, g ≠ f → w.files g = v.files g

/-- All is as it was, but for what was printed. -/
def SameFiles (v w : View φ) : Prop :=
  w.files = v.files

instance (f : φ) : IsPreorder (View φ) (SameBut f) where
  refl _ := ⟨rfl, fun _ _ => rfl⟩
  trans _ _ _ h h' := ⟨h'.1.trans h.1, fun g hg => (h'.2 g hg).trans (h.2 g hg)⟩

instance : IsPreorder (View φ) SameFiles where
  refl _ := rfl
  trans _ _ _ h h' := Eq.trans h' h

end View

section Runs

variable {σ α β : Type}

/-- What comes of an action in a state, and the state behind it. -/
abbrev Action.outcome (x : Action (StateM σ) α) (s : σ) : Except Failure α × σ :=
  x.run.run s

theorem outcome_bind (x : Action (StateM σ) α) (f : α → Action (StateM σ) β) (s : σ) :
    (x >>= f).outcome s = match x.outcome s with
      | (.ok a, s') => (f a).outcome s'
      | (.error e, s') => (.error e, s') := by
  have hbind : (x >>= f).outcome s =
      (ExceptT.bindCont f (x.outcome s).1).run (x.outcome s).2 := rfl
  rw [hbind]
  obtain ⟨a | a, s'⟩ := x.outcome s <;> rfl

theorem outcome_ofExcept (r : Except Failure α) (s : σ) :
    (Action.ofExcept r : Action (StateM σ) α).outcome s = (r, s) := by
  cases r <;> rfl

theorem outcome_ofCall {ε : Type} (call : StateM σ (Except ε α)) (why : ε → Failure) (s : σ) :
    (Action.ofCall call why).outcome s = ((call.run s).1.mapError why, (call.run s).2) :=
  outcome_ofExcept ((call.run s).1.mapError why) (call.run s).2

/-- All failures of an action have a property. -/
def Fails (P : Failure → Prop) (x : Action (StateM σ) α) : Prop :=
  ∀ s e, (x.outcome s).1 = .error e → P e

variable {P : Failure → Prop}

theorem Fails.bind {x : Action (StateM σ) α} {f : α → Action (StateM σ) β} (hx : Fails P x)
    (hf : ∀ a, Fails P (f a)) : Fails P (x >>= f) := by
  intro s e h
  rw [outcome_bind] at h
  have hfirst := hx s
  cases hrun : x.outcome s with
  | mk r s' =>
    rw [hrun] at h hfirst
    cases r with
    | ok a => exact hf a s' e h
    | error e' =>
      cases h
      exact hfirst e rfl

theorem Fails.ofCall {ε : Type} {call : StateM σ (Except ε α)} {why : ε → Failure}
    (h : ∀ s e, (call.run s).1 = .error e → P (why e)) : Fails P (Action.ofCall call why) := by
  intro s e he
  rw [outcome_ofCall] at he
  cases hrun : (call.run s).1 with
  | ok a =>
    rw [hrun] at he
    cases he
  | error e' =>
    rw [hrun] at he
    cases he
    exact h s e' hrun

theorem Fails.pure (a : α) : Fails P (Pure.pure a : Action (StateM σ) α) :=
  nofun

theorem Fails.ofExcept {r : Except Failure α} (h : ∀ e, r = .error e → P e) :
    Fails P (Action.ofExcept r : Action (StateM σ) α) := by
  intro s e he
  cases r with
  | ok a => cases he
  | error e' =>
    cases he
    exact h e rfl

theorem Fails.putAll {put : String → Action (StateM σ) Unit} (hput : ∀ t, Fails P (put t))
    {texts : List (Except Failure String)} (h : ∀ e, .error e ∈ texts → P e) :
    Fails P (putAll put texts) := by
  induction texts with
  | nil => exact Fails.pure ()
  | cons text rest ih =>
    have hrest : ∀ e, .error e ∈ rest → P e := fun e he => h e (List.mem_cons_of_mem _ he)
    have htext : ∀ e, text = .error e → P e := fun e he => h e (he ▸ List.mem_cons_self)
    exact (Fails.ofExcept htext).bind fun t => (hput t).bind fun _ => ih hrest

end Runs

section Keeps

variable {σ φ α β : Type} {look : σ → View φ} {R : View φ → View φ → Prop}

/-- Whatever state a computation starts in, it looks afterwards as `R` says. -/
def Keeps (look : σ → View φ) (R : View φ → View φ → Prop) (x : StateM σ α) : Prop :=
  ∀ s, R (look s) (look (x.run s).2)

/-- A computation after which everything looks as it did before. -/
abbrev Quiet (look : σ → View φ) (x : StateM σ α) : Prop :=
  Keeps look Eq x

variable [IsPreorder (View φ) R]

theorem Keeps.pure (a : α) : Keeps look R (Pure.pure a : StateM σ α) :=
  fun s => refl_of R (look s)

theorem Keeps.bind {x : StateM σ α} {f : α → StateM σ β} (hx : Keeps look R x)
    (hf : ∀ a, Keeps look R (f a)) : Keeps look R (x >>= f) :=
  fun s => trans_of R (hx s) (hf _ _)

section Actions

variable {x : Action (StateM σ) α} {f : α → Action (StateM σ) β}

theorem Keeps.action_pure (a : α) : Keeps look R (Pure.pure a : Action (StateM σ) α).run :=
  Keeps.pure _

theorem Keeps.action_throw (e : Failure) : Keeps look R (throw e : Action (StateM σ) α).run :=
  Keeps.pure _

theorem Keeps.action_bind (hx : Keeps look R x.run) (hf : ∀ a, Keeps look R (f a).run) :
    Keeps look R (x >>= f).run := by
  have hnext : ∀ r : Except Failure α, Keeps look R (ExceptT.bindCont f r) := by
    intro r
    cases r with
    | ok a => exact hf a
    | error e => exact Keeps.pure _
  exact Keeps.bind hx hnext

theorem Keeps.action_lift {y : StateM σ α} (hy : Keeps look R y) :
    Keeps look R (ExceptT.lift y : Action (StateM σ) α).run :=
  Keeps.bind hy fun _ => Keeps.pure _

theorem Keeps.ofExcept (r : Except Failure α) :
    Keeps look R (Action.ofExcept r : Action (StateM σ) α).run := by
  cases r with
  | ok a => exact Keeps.action_pure a
  | error e => exact Keeps.action_throw e

theorem Keeps.ofCall {ε : Type} {call : StateM σ (Except ε α)} {why : ε → Failure}
    (h : Keeps look R call) : Keeps look R (Action.ofCall call why).run :=
  Keeps.action_bind (Keeps.action_lift h) fun _ => Keeps.ofExcept _

end Actions

end Keeps

/-- What is relied on of a system: a call that only looks at it leaves it as it looks, and so does
one that makes a directory, and one that cannot open a file. -/
structure System.Lawful {σ φ : Type} (sys : System (StateM σ) φ) (look : σ → View φ) : Prop where
  workingDirectory : Quiet look sys.workingDirectory
  home? : ∀ user, Quiet look (sys.home? user)
  read : ∀ p, Quiet look (sys.read p)
  link? : ∀ p, Quiet look (sys.link? p)
  isDirectory : ∀ p, Quiet look (sys.isDirectory p)
  makeDirectory : ∀ p, Quiet look (sys.makeDirectory p)
  unopened : ∀ p s e, ((sys.openFile p).run s).1 = .error e →
    look ((sys.openFile p).run s).2 = look s
  opened : ∀ p s f, ((sys.openFile p).run s).1 = .ok f →
    (look s).SameBut f (look ((sys.openFile p).run s).2)
  write : ∀ f text, Keeps look (View.SameBut f) (sys.write f text)
  close : ∀ f, Keeps look (View.SameBut f) (sys.close f)
  print : ∀ text, Keeps look View.SameFiles (sys.print text)

section Calls

variable {σ φ : Type} {sys : System (StateM σ) φ} {look : σ → View φ} {rt : Runtime}

theorem quiet_enter (stage : Stage) :
    Quiet look (rt.enter stage : Action (StateM σ) Unit).run := by
  unfold Runtime.enter
  split
  · exact Keeps.action_throw _
  · exact Keeps.action_pure _

variable (hsys : sys.Lawful look)

include hsys

theorem quiet_expandUser (p : Path) : Quiet look (expandUser sys p).run := by
  unfold expandUser
  split
  · exact Keeps.action_pure p
  · split
    · exact Keeps.action_throw _
    · refine Keeps.action_bind (Keeps.action_lift (hsys.home? _)) fun home => ?_
      cases home with
      | none => exact Keeps.action_throw _
      | some home => exact Keeps.action_pure _

theorem quiet_followNames {enterLink : List Path → Path → Path → Action (StateM σ) (Path × Bool)}
    (hlink : ∀ through p target, Quiet look (enterLink through p target).run)
    (through : List Path) (p : Path) (names : List String) :
    Quiet look (followNames sys enterLink through p names).run := by
  induction names generalizing p with
  | nil => exact Keeps.action_pure _
  | cons n ns ih =>
    unfold followNames
    split
    · exact ih _
    · dsimp only
      split
      · exact Keeps.action_throw _
      · refine Keeps.action_bind (Keeps.action_lift (hsys.link? _)) fun link => ?_
        cases link with
        | none => exact ih _
        | some target =>
          dsimp only
          split
          · exact Keeps.action_pure _
          · refine Keeps.action_bind (Keeps.ofCall (Keeps.pure target)) fun target => ?_
            refine Keeps.action_bind (hlink _ _ _) fun result => ?_
            obtain ⟨r, _ | _⟩ := result
            · exact Keeps.action_pure _
            · exact ih r

theorem quiet_follow (links : Nat) (through : List Path) (start target : Path) :
    Quiet look (follow sys links through start target).run := by
  induction links generalizing through start target with
  | zero => exact Keeps.action_throw _
  | succ links ih => exact quiet_followNames hsys ih through _ _

theorem quiet_originOf (p : Path) : Quiet look (originOf sys p).run := by
  unfold originOf
  split
  · exact Keeps.ofCall hsys.workingDirectory
  · exact Keeps.action_pure _

theorem quiet_checkCircle (p : Path) : Quiet look (checkCircle sys p).run := by
  unfold checkCircle
  split
  · exact Keeps.action_throw _
  · refine Keeps.action_bind (Keeps.action_lift (hsys.isDirectory p)) fun status => ?_
    split
    · exact Keeps.action_throw _
    · exact Keeps.action_pure p

theorem quiet_resolve (p : Path) : Quiet look (resolve sys rt p).run :=
  Keeps.action_bind (quiet_follow hsys _ _ _ _) fun q =>
    Keeps.action_bind (quiet_originOf hsys q.1) fun _ => quiet_checkCircle hsys _

theorem quiet_checkDirectory (p : Path) (e : SystemError) :
    Quiet look (checkDirectory sys p e).run := by
  refine Keeps.action_bind (Keeps.action_lift (hsys.isDirectory p)) fun status => ?_
  split
  · exact Keeps.action_pure _
  · exact Keeps.action_throw _
  · exact Keeps.action_throw _

theorem quiet_makeDirectories (p : Path) (k : Nat) :
    Quiet look (makeDirectories sys p k).run := by
  induction k with
  | zero =>
    unfold makeDirectories
    refine Keeps.action_bind (Keeps.action_lift (hsys.makeDirectory _)) fun made => ?_
    split
    · exact Keeps.action_pure _
    · exact Keeps.action_throw _
    · exact quiet_checkDirectory hsys _ _
  | succ k ih =>
    unfold makeDirectories
    refine Keeps.action_bind (Keeps.action_lift (hsys.makeDirectory _)) fun made => ?_
    split
    · exact Keeps.action_pure _
    · refine Keeps.action_bind ih fun _ => ?_
      refine Keeps.action_bind (Keeps.action_lift (hsys.makeDirectory _)) fun made => ?_
      split
      · exact Keeps.action_pure _
      · exact Keeps.action_throw _
      · exact quiet_checkDirectory hsys _ _
    · exact quiet_checkDirectory hsys _ _

/-- An output that is either open, or as all else was before. -/
def Opens (look : σ → View φ) (x : Action (StateM σ) φ) : Prop :=
  ∀ s, (∀ e, (x.outcome s).1 = .error e → look (x.outcome s).2 = look s) ∧
    ∀ f, (x.outcome s).1 = .ok f → (look s).SameBut f (look (x.outcome s).2)

omit hsys in
theorem Opens.behind {α : Type} {x : Action (StateM σ) α} {f : α → Action (StateM σ) φ}
    (hx : Quiet look x.run) (hf : ∀ a, Opens look (f a)) : Opens look (x >>= f) := by
  intro s
  have hlook : look s = look (x.outcome s).2 := hx s
  rw [outcome_bind]
  cases hrun : x.outcome s with
  | mk r s' =>
    rw [hrun] at hlook
    rw [hlook]
    cases r with
    | ok a => exact hf a s'
    | error e => exact ⟨fun _ _ => rfl, nofun⟩

theorem opens_openPath (rt : Runtime) (text : String) : Opens look (openPath sys rt text) := by
  refine Opens.behind (quiet_expandUser hsys _) fun p => ?_
  refine Opens.behind (quiet_resolve hsys p) fun p => ?_
  refine Opens.behind (quiet_enter _) fun _ => ?_
  refine Opens.behind (quiet_makeDirectories hsys p _) fun _ s => ?_
  rw [outcome_ofCall]
  cases hopen : ((sys.openFile p).run s).1 with
  | ok f => exact ⟨nofun, fun _ h => Except.ok.inj h ▸ hsys.opened p s f hopen⟩
  | error e => exact ⟨fun _ _ => hsys.unopened p s e hopen, nofun⟩

omit hsys in
theorem keeps_putAll {R : View φ → View φ → Prop} [IsPreorder (View φ) R]
    {put : String → Action (StateM σ) Unit} (hput : ∀ t, Keeps look R (put t).run)
    (texts : List (Except Failure String)) : Keeps look R (putAll put texts).run := by
  induction texts with
  | nil => exact Keeps.action_pure ()
  | cons text rest ih =>
    exact Keeps.action_bind (Keeps.ofExcept text) fun t => Keeps.action_bind (hput t) fun _ => ih

theorem keeps_closing (f : φ) {write : Action (StateM σ) Unit}
    (h : Keeps look (View.SameBut f) write.run) :
    Keeps look (View.SameBut f) (closing sys f write).run :=
  Keeps.action_bind (Keeps.action_lift h) fun result =>
    Keeps.action_bind (Keeps.ofCall (hsys.close f)) fun _ => Keeps.ofExcept result

end Calls

section Deliver

variable {σ φ : Type} {sys : System (StateM σ) φ} {look : σ → View φ} {rt : Runtime}

/-- The system refuses something that is put into an output, and the program fails at that. -/
inductive System.Refuses (sys : System (StateM σ) φ) : Failure → Prop
  | write {f : φ} {text : String} {s : σ} {e : SystemError}
    (h : ((sys.write f text).run s).1 = .error e) : Refuses sys (.system none e)
  | close {f : φ} {s : σ} {e : SystemError} (h : ((sys.close f).run s).1 = .error e) :
    Refuses sys (.system none e)
  | print {text : String} {s : σ} {e : PrintError} (h : ((sys.print text).run s).1 = .error e) :
    Refuses sys (.ofPrintError e)

/-- Nothing looks different but the output that was asked for: what was printed, or else the file
that was opened. -/
inductive Confined (sys : System (StateM σ) φ) (rt : Runtime) (look : σ → View φ)
    (output : Option Given) (s s' : σ) : Prop
  | printed (h : output = none ∨ output = some (.text "-"))
    (files : (look s).SameFiles (look s'))
  | file {text : String} {s₁ : σ} {f : φ} (h : output = some (.text text))
    (before : look s₁ = look s) (opened : ((openPath sys rt text).outcome s₁).1 = .ok f)
    (rest : (look s).SameBut f (look s'))

theorem fails_closing {P : Failure → Prop} {f : φ} {write : Action (StateM σ) Unit}
    (h : Fails P write) (hclose : ∀ s e, ((sys.close f).run s).1 = .error e → P (.system none e)) :
    Fails P (closing sys f write) := by
  intro s e he
  have hclosing : (closing sys f write).outcome s =
      ((do Action.ofCall (sys.close f) (.system none)
           Action.ofExcept (write.outcome s).1 : Action (StateM σ) Unit)).outcome
        (write.outcome s).2 := rfl
  rw [hclosing] at he
  exact ((Fails.ofCall hclose).bind fun _ => Fails.ofExcept (h s)) _ e he

/-- An action that fails leaves all as it looks, or it fails in the middle of its output, for a
reason that has a property. -/
def Breaks (sys : System (StateM σ) φ) (rt : Runtime) (look : σ → View φ) (output : Option Given)
    (P : Failure → Prop) (x : Action (StateM σ) Unit) : Prop :=
  ∀ s e, (x.outcome s).1 = .error e → look (x.outcome s).2 = look s ∨
    P e ∧ Confined sys rt look output s (x.outcome s).2

section

variable {P : Failure → Prop} {texts : List (Except Failure String)} (hsys : sys.Lawful look)
  (hrefuses : ∀ e, sys.Refuses e → P e) (htexts : ∀ e, .error e ∈ texts → P e)

include hsys hrefuses htexts

theorem breaks_printAll {output : Option Given} (h : output = none ∨ output = some (.text "-")) :
    Breaks sys rt look output P (printAll sys texts) := by
  intro s e he
  have hprint : ∀ t, Fails P (Action.ofCall (sys.print t) .ofPrintError) :=
    fun t => Fails.ofCall fun _ _ hrefused => hrefuses _ (.print hrefused)
  have hkeeps : Keeps look View.SameFiles (printAll sys texts).run :=
    keeps_putAll (fun t => Keeps.ofCall (hsys.print t)) texts
  exact .inr ⟨Fails.putAll hprint htexts s e he, .printed h (hkeeps s)⟩

theorem breaks_writeAll (text : String) :
    Breaks sys rt look (some (.text text)) P
      (do writeAll sys (← openPath sys rt text) texts) := by
  intro s e he
  obtain ⟨hunopened, hopened⟩ := opens_openPath hsys rt text s
  rw [outcome_bind] at he ⊢
  cases hopen : (openPath sys rt text).outcome s with
  | mk r s' =>
    rw [hopen] at he hunopened hopened
    cases r with
    | error e' => exact .inl (hunopened e' rfl)
    | ok f =>
      -- from here on the open file may differ, whether or not it can be closed
      have hwrite : ∀ t, Fails P (Action.ofCall (sys.write f t) (.system none)) :=
        fun t => Fails.ofCall fun _ _ hrefused => hrefuses _ (.write hrefused)
      have hclose : ∀ s e, ((sys.close f).run s).1 = .error e → P (.system none e) :=
        fun _ _ hrefused => hrefuses _ (.close hrefused)
      have hfails : Fails P (writeAll sys f texts) :=
        fails_closing (Fails.putAll hwrite htexts) hclose
      have hkeeps : Keeps look (View.SameBut f) (writeAll sys f texts).run :=
        keeps_closing hsys f (keeps_putAll (fun t => Keeps.ofCall (hsys.write f t)) texts)
      have hopen' : ((openPath sys rt text).outcome s).1 = .ok f := congrArg Prod.fst hopen
      have hrest := trans_of (View.SameBut f) (hopened f rfl) (hkeeps s')
      exact .inr ⟨hfails s' e he, .file rfl rfl hopen' hrest⟩

theorem breaks_deliver (output : Option Given) :
    Breaks sys rt look output P (deliver sys rt output texts) := by
  unfold deliver
  split
  · exact breaks_printAll hsys hrefuses htexts (.inl rfl)
  · exact breaks_printAll hsys hrefuses htexts (.inr rfl)
  · exact fun _ _ _ => .inl rfl
  · exact breaks_writeAll hsys hrefuses htexts _

end

end Deliver

end MethodFlow.CommandLine
