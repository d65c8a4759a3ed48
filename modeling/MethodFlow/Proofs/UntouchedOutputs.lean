import MethodFlow.CommandLine.Commands
import MethodFlow.Proofs.PlainDisk
import MethodFlow.Proofs.ShownResults

/-!
What a command that fails leaves behind. A command reads, plans, selects and analyses before it
opens its output, so whatever fails there leaves all files alone and prints nothing. Behind that, it
breaks off only where a text cannot be had, for an integer with too many digits or a type that nests
too deep, or where the system refuses what is written.
-/

namespace MethodFlow

/-- How many pairs of brackets stand behind a type. -/
def Ty.nesting : Ty → Nat
  | .array t => t.nesting + 1
  | _ => 0

namespace Expr

mutual

/-- The types that show in an expression. -/
def types : Expr → List Ty
  | new t => [t]
  | newArray t e | cast t e => t :: e.types
  | bin _ a b | element a b => a.types ++ b.types
  | neg e | field e _ => e.types
  | call _ _ args => typesOfAll args
  | var _ | int _ | str _ | null | static _ _ => []

def typesOfAll : List Expr → List Ty
  | [] => []
  | e :: r => e.types ++ typesOfAll r

end

end Expr

/-- The types that show in a statement. -/
def Instr.types {τ : Type} : Instr τ → List Ty
  | assign p e => p.toExpr.types ++ e.types
  | call p e => p.elim [] (fun p => p.toExpr.types) ++ e.types
  | branch c _ => c.types
  | ret e => e.elim [] Expr.types
  | goto _ | switch _ _ _ _ | nop => []

/-- The types that show when a method does. -/
def Method.types (m : Method) : List Ty :=
  m.ret :: m.params.map Var.ty ++ m.body.flatMap fun s => s.instr.types

namespace CommandLine

/-- What is relied on of a runtime: the stack is large enough to write types with up to `depth`
pairs of brackets, and all that can be wrong with an S-expression is an integer. -/
structure Runtime.Lawful (rt : Runtime) (depth : Nat) : Prop where
  showing : ∀ format id? m message, rt.overflow? (.showing format id? m) = some message →
    ∃ t ∈ m.types, depth < t.nesting
  dumps : ∀ e x, rt.dumps e = .error x →
    x = .number ∧ ∃ n ∈ e.numbers, Text.isWritable n = false

variable {σ φ : Type} {sys : System (StateM σ) φ} {look : σ → View φ} {rt : Runtime} {depth : Nat}

/-- Why a run breaks off in the middle of its output, when that is about some methods. -/
inductive Interruption (sys : System (StateM σ) φ) (depth : Nat) (ms : List Method) :
    Failure → Prop
  | digits {m : Method} (hm : m ∈ ms) (h : m.IsOverlong) :
    Interruption sys depth ms (.broken (.overlong .number))
  | stack {m : Method} {t : Ty} {message : String} (hm : m ∈ ms) (ht : t ∈ m.types)
    (h : depth < t.nesting) : Interruption sys depth ms (.broken (.overflow message))
  | refused {f : Failure} (h : sys.Refuses f) : Interruption sys depth ms f

section Texts

variable {ms : List Method} {m : Method} {f : Failure} {format : Format} (hrt : rt.Lawful depth)

include hrt

theorem Runtime.Lawful.gives_dumps {e : Sexp} (he : e.Fits m) :
    Method.Gives id m (fun _ => True) (rt.dumps e) := by
  refine ⟨fun _ _ => trivial, fun x hx => ?_⟩
  obtain ⟨rfl, n, hn, hlong⟩ := hrt.dumps e x hx
  exact ⟨rfl, (he n hn).isOverlong hlong⟩

theorem interruption_of_shown {id? : Option String} {text : Except Fault String} (hm : m ∈ ms)
    (htext : m.Answers (fun _ => True) text) (h : shown rt format id? m text = .error f) :
    Interruption sys depth ms f := by
  unfold shown at h
  split at h
  · rename_i message hoverflow
    cases h
    obtain ⟨t, ht, hdepth⟩ := hrt.showing format id? m message hoverflow
    exact .stack hm ht hdepth
  · cases text with
    | ok t => cases h
    | error e =>
      obtain ⟨rfl, hlong⟩ := htext.error e rfl
      cases h
      exact .digits hm hlong

theorem interruption_of_methodText (hm : m ∈ ms) (h : methodText rt format m = .error f) :
    Interruption sys depth ms f := by
  refine interruption_of_shown hrt hm ?_ h
  cases format with
  | text => exact m.gives_listing.lift
  | sexp =>
    exact (Report.gives_methodSexp m).lift.bind fun _ he => (hrt.gives_dumps he).lift

theorem interruption_of_resultText {order : Order} {s : Store Unit} {key : String} (hm : m ∈ ms)
    (hs : s.Holds m order key) (h : resultText rt format key m s = .error f) :
    Interruption sys depth ms f := by
  obtain ⟨a, r, _, hr, hmakes⟩ := hs
  refine interruption_of_shown hrt hm ?_ h
  have hresult : s.result key = .ok r := Store.result_eq_ok.mpr hr
  rw [hresult]
  cases format with
  | text => exact hmakes.gives_resultText _ key
  | sexp =>
    exact (hmakes.gives_resultSexp _ key).bind fun _ he => (hrt.gives_dumps he).lift

end Texts

section Analyses

variable {p : Plan Unit} {ms : List Method} {runs : List (Method × Store Unit)}

/-- What a plan is run for are the methods, and each run comes to its end. -/
theorem mem_runAll (h : (runAll rt p ms).result = .ok runs) {x : Method × Store Unit}
    (hx : x ∈ runs) :
    x.1 ∈ ms ∧ (p.run fuel x.1 ∅).fault? = none ∧ x.2 = (p.run fuel x.1 ∅).store := by
  induction ms generalizing runs with
  | nil =>
    cases h
    cases hx
  | cons m ms ih =>
    cases hstack : rt.overflow? (.running m) with
    | some message =>
      simp only [runAll, hstack] at h
      cases h
    | none =>
      cases hfault : (p.run fuel m ∅).fault? with
      | some e =>
        simp only [runAll, hstack, hfault] at h
        cases h
      | none =>
        cases hrest : (runAll rt p ms).result with
        | error e =>
          simp only [runAll, hstack, hfault, hrest] at h
          cases h
        | ok rest =>
          simp only [runAll, hstack, hfault, hrest] at h
          cases h
          rcases List.mem_cons.mp hx with rfl | hx
          · exact ⟨List.mem_cons_self, hfault, rfl⟩
          · obtain ⟨hm, hend⟩ := ih hrest hx
            exact ⟨List.mem_cons_of_mem m hm, hend⟩

theorem exists_build_of_planOf {specs : List Given} (h : planOf specs = .ok p) :
    ∃ configs, Plan.build .builtin configs = .ok p ∧ p.requested = configs.map Config.id := by
  obtain ⟨configs, _, h⟩ := Attempt.bind_eq_ok.mp h
  have hbuild := Attempt.mapError_eq_ok.mp h
  obtain ⟨_, _, hsteps⟩ := Attempt.bind_eq_ok.mp hbuild
  obtain ⟨_, _, hsteps⟩ := Attempt.bind_eq_ok.mp hsteps
  cases hsteps
  exact ⟨configs, hbuild, rfl⟩

/-- A result that was asked for is there, and can be shown but for an interruption. -/
theorem interruption_of_resultTexts (hrt : rt.Lawful depth) {specs : List Given}
    (hp : planOf specs = .ok p) (hruns : (runAll rt p ms).result = .ok runs) {format : Format}
    {f : Failure} (hf : .error f ∈ resultTexts rt format p.requested runs) :
    Interruption sys depth ms f := by
  obtain ⟨configs, hbuild, hrequested⟩ := exists_build_of_planOf hp
  have hplan := Plan.isPlanFor_of_build hbuild
  have hsame : ∀ x ∈ p.steps, ∀ y ∈ p.steps, x.config.id = y.config.id → x.config = y.config :=
    fun x hx y hy hid => List.inj_on_of_nodup_map hplan.nodup (List.mem_map_of_mem hx)
      (List.mem_map_of_mem hy) hid
  obtain ⟨order, horder⟩ := Plan.exists_order (Plan.arrange_of_build hbuild).2 hsame
  obtain ⟨x, hx, htexts⟩ := List.mem_flatMap.mp hf
  obtain ⟨key, hkey, htext⟩ := List.mem_map.mp htexts
  obtain ⟨hm, hfault, hstore⟩ := mem_runAll hruns hx
  have hplanned : key ∈ p.configs.map Config.id := by
    rw [hrequested] at hkey
    obtain ⟨c, hc, rfl⟩ := List.mem_map.mp hkey
    exact List.mem_map_of_mem (hplan.requested c hc)
  have hholds := Plan.holds_run hbuild horder hfault key hplanned
  rw [← hstore] at hholds
  exact interruption_of_resultText hrt hm hholds htext

end Analyses

/-- The method that a command is about, if it names one. -/
def Command.method? : Command → Option Given
  | check _ => none
  | dump method _ _ | analyze _ method _ _ => method

def Command.output? : Command → Option Given
  | check _ => none
  | dump _ _ output | analyze _ _ _ output => output

section Requests

variable {r : Request} {s : σ} {log : List LogLine}

/-- The methods that a request is about: those of its input file, or the one that it names. -/
def Request.IsAbout (sys : System (StateM σ) φ) (rt : Runtime) (r : Request) (s : σ)
    (ms : List Method) : Prop :=
  ∃ bytes all, ((sys.read (.ofString r.input)).run s).1 = .ok bytes ∧
    (readMethods rt r.verbosity (Path.ofString r.input).render bytes).result = .ok all ∧
    select r.command.method? all = .ok ms

/-- A run that broke off in the middle of its output. -/
structure BreaksOff (sys : System (StateM σ) φ) (rt : Runtime) (look : σ → View φ) (depth : Nat)
    (r : Request) (s : σ) (o : Ending × σ) : Prop where
  cause : ∃ ms f log, r.IsAbout sys rt s ms ∧ Interruption sys depth ms f ∧ o.1 = r.failed log f
  confined : Confined sys rt look r.command.output? s o.2

/-- How a run that starts in a state may end: well, with all as it looked before, or in the middle
of its output. -/
def Request.Ends (sys : System (StateM σ) φ) (rt : Runtime) (look : σ → View φ) (depth : Nat)
    (r : Request) (s : σ) (o : Ending × σ) : Prop :=
  o.1.code = 0 ∨ look o.2 = look s ∨ BreaksOff sys rt look depth r s o

theorem Confined.congr {output : Option Given} {s₀ s' : σ} (hlook : look s = look s₀)
    (h : Confined sys rt look output s s') : Confined sys rt look output s₀ s' := by
  cases h with
  | printed h files => exact .printed h (hlook ▸ files)
  | file h before opened rest => exact .file h (before.trans hlook) opened (hlook ▸ rest)

theorem run_bind {α β : Type} (x : StateM σ α) (f : α → StateM σ β) (s : σ) :
    (x >>= f).run s = (f (x.run s).1).run (x.run s).2 :=
  rfl

/-- What a request does with its methods decides how it ends. -/
theorem ends_withMethods (hsys : sys.Lawful look)
    {next : List LogLine → List Method → StateM σ Ending}
    (h : ∀ log bytes all s', ((sys.read (.ofString r.input)).run s).1 = .ok bytes →
      (readMethods rt r.verbosity (Path.ofString r.input).render bytes).result = .ok all →
      look s' = look s → r.Ends sys rt look depth s ((next log all).run s')) :
    r.Ends sys rt look depth s ((withMethods sys rt r log next).run s) := by
  have hread : look ((sys.read (.ofString r.input)).run s).2 = look s := (hsys.read _ s).symm
  unfold withMethods
  dsimp only
  split
  · exact .inr (.inl rfl)
  · rw [run_bind]
    split
    · exact .inr (.inl hread)
    · rename_i bytes hbytes
      split
      · exact .inr (.inl hread)
      · rename_i all hall
        exact h _ bytes all _ hbytes hall hread

theorem ends_endWith {action : Action (StateM σ) Unit} {ms : List Method} {s' : σ}
    (habout : r.IsAbout sys rt s ms) (hlook : look s' = look s)
    (h : Breaks sys rt look r.command.output? (Interruption sys depth ms) action) :
    r.Ends sys rt look depth s ((r.endWith log action).run s') := by
  unfold Request.endWith
  rw [run_bind]
  cases hresult : (action.outcome s').1 with
  | ok _ => exact .inl rfl
  | error f =>
    rcases h s' f hresult with hsame | ⟨hcause, hconfined⟩
    · exact .inr (.inl (hsame.trans hlook))
    · exact .inr (.inr ⟨⟨ms, f, log, habout, hcause, rfl⟩, hconfined.congr hlook⟩)

variable (hsys : sys.Lawful look) (hrt : rt.Lawful depth)

include hsys

theorem ends_check {quiet : Bool} :
    r.Ends sys rt look depth s ((check sys rt r quiet).run s) :=
  ends_withMethods hsys fun _ _ _ _ _ _ _ => .inl rfl

include hrt

theorem ends_dump {method output : Option Given} {format : Format}
    (hr : r.command = .dump method format output) :
    r.Ends sys rt look depth s ((dump sys rt r method format output).run s) := by
  refine ends_withMethods hsys fun log bytes all s' hread hall hlook => ?_
  split
  · exact .inr (.inl hlook)
  · rename_i chosen hchosen
    have habout : r.IsAbout sys rt s chosen :=
      ⟨bytes, all, hread, hall, by rw [hr]; exact hchosen⟩
    refine ends_endWith habout hlook ?_
    have houtput : r.command.output? = output := by
      rw [hr]
      rfl
    rw [houtput]
    refine breaks_deliver hsys (fun _ => .refused) (fun f hf => ?_) output
    obtain ⟨m, hm, htext⟩ := List.mem_map.mp hf
    exact interruption_of_methodText hrt hm htext

theorem ends_analyze {specs : List Given} {method output : Option Given} {format : Format}
    (hr : r.command = .analyze specs method format output) :
    r.Ends sys rt look depth s ((analyze sys rt r specs method format output).run s) := by
  unfold analyze
  split
  · exact .inr (.inl rfl)
  · rename_i p line hplanned
    obtain ⟨p', hp, hline⟩ := Attempt.bind_eq_ok.mp hplanned
    obtain ⟨line', _, hpair⟩ := Attempt.bind_eq_ok.mp hline
    cases hpair
    refine ends_withMethods hsys fun log bytes all s' hread hall hlook => ?_
    dsimp only
    split
    · exact .inr (.inl hlook)
    · rename_i chosen hchosen
      have habout : r.IsAbout sys rt s chosen :=
        ⟨bytes, all, hread, hall, by rw [hr]; exact hchosen⟩
      split
      · exact .inr (.inl hlook)
      · rename_i runs hruns
        refine ends_endWith habout hlook ?_
        have houtput : r.command.output? = output := by
          rw [hr]
          rfl
        rw [houtput]
        exact breaks_deliver hsys (fun _ => .refused)
          (fun f hf => interruption_of_resultTexts hrt hp hruns hf) output

theorem Request.ends (r : Request) (s : σ) :
    r.Ends sys rt look depth s ((r.perform sys rt).run s) := by
  unfold Request.perform
  split
  · exact ends_check hsys
  · rename_i method format output hr
    exact ends_dump hsys hrt hr
  · rename_i specs method format output hr
    exact ends_analyze hsys hrt hr

end Requests

mutual

theorem error_of_render {e : Sexp} {x : Text.Overlong} (h : e.render = .error x) :
    x = .number ∧ ∃ n ∈ e.numbers, Text.isWritable n = false := by
  cases e with
  | symbol _ | string _ => cases h
  | int n =>
    rw [Sexp.render, Text.writeInt_eq] at h
    exact Text.written_eq_error h
  | list xs =>
    rw [Sexp.render] at h
    rcases Attempt.bind_eq_error.mp h with h | ⟨_, _, h⟩
    · exact error_of_renderAll h
    · cases h

theorem error_of_renderAll {es : List Sexp} {x : Text.Overlong}
    (h : Sexp.renderAll es = .error x) :
    x = .number ∧ ∃ n ∈ Sexp.numbersOfAll es, Text.isWritable n = false := by
  cases es with
  | nil => cases h
  | cons e es =>
    rw [Sexp.renderAll] at h
    rcases Attempt.bind_eq_error.mp h with h | ⟨_, _, h⟩
    · obtain ⟨hx, n, hn, hlong⟩ := error_of_render h
      exact ⟨hx, n, List.mem_append_left _ hn, hlong⟩
    · rcases Attempt.bind_eq_error.mp h with h | ⟨_, _, h⟩
      · obtain ⟨hx, n, hn, hlong⟩ := error_of_renderAll h
        exact ⟨hx, n, List.mem_append_right _ hn, hlong⟩
      · cases h

end

theorem Runtime.lawful_roomy (depth : Nat) : Runtime.roomy.Lawful depth :=
  ⟨fun _ _ _ _ h => (nomatch h), fun _ _ h => error_of_render h⟩

/-- A disk with a program of one method, and with a file that is there already. -/
def diskWith (program : List Char) : Disk :=
  ⟨.ofList [("in", program.map Char.toNat), ("out", ['k', 'e', 'p', 't'].map Char.toNat)], ""⟩

/-- A method that returns a number of 3572 hexadecimal digits, which has 4302 decimal ones. -/
def longNumberText : List Char :=
  "method void f() \x7b return 0x".toList ++ List.replicate 3572 'F' ++ "; \x7d".toList

end CommandLine

end MethodFlow
