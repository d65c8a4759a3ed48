import MethodFlow.CommandLine.Output
import MethodFlow.Plan.Run
import MethodFlow.Report.Sexp
import MethodFlow.Report.Text
import MethodFlow.Source.Parse
import MethodFlow.Text.LineEnding

/-!
What the program does with a command line. What is asked for is worked out before an output is
opened, but a text that is to be put there may turn out to be one that cannot be had.
-/

namespace MethodFlow.CommandLine

def versionText : String :=
  "tir 0.1.0\n"

def usageText : String :=
  "usage: tir [-h] [--version] [-v] <command> ...\n\n" ++
  "commands:\n" ++
  "  check [-q] input\n" ++
  "  dump-ir [--method METHOD] [--format text|sexp] [-o OUTPUT] input\n" ++
  "  analyze -a ID[=k:v;...] [--method METHOD] [--format text|sexp] [-o OUTPUT] input\n"

/-- Solvers make at most this many steps. -/
def fuel : Nat := 1000000000

/-- What came of a part of a run, and what was logged on the way. -/
structure Logged (α : Type) where
  log : List LogLine
  result : Except Failure α

section Methods

variable (rt : Runtime)

/-- Reads the methods of a file from its bytes; `file` is what messages call it. -/
def readMethods (verbosity : Nat) (file : String) (bytes : List Nat) : Logged (List Method) :=
  match Text.Utf8.decode bytes, rt.overflow? (.reading verbosity bytes) with
  | .error e, _ => ⟨[], .error (.broken (.notText e))⟩
  | .ok _, some message => ⟨[], .error (.broken (.overflow message))⟩
  | .ok cs, none =>
    let text := Text.unifyLines cs
    let reading := Source.readText text
    let parsed := reading.methods.map fun m => ⟨.debug, .source, "parsed " ++ m.summary⟩
    match reading.error? with
    | some e => ⟨parsed, .error (.ofDiagnostic file (rt.parseTree text) e)⟩
    | none =>
      ⟨parsed ++ [⟨.info, .source,
        file ++ ": parsed " ++ toString reading.methods.length ++ " method(s)"⟩],
        .ok reading.methods⟩

def Given.render : Given → String
  | text s => Text.quoted s
  | nothing => "[]"

/-- The methods with a name, if one is given; then there has to be one. -/
def select (name : Option Given) (ms : List Method) : Except Failure (List Method) :=
  match name with
  | none => .ok ms
  | some x =>
    match ms.filter fun m => .text m.name = x with
    | [] => .error (.config (.noMethod x.render))
    | chosen => .ok chosen

/-- Runs a plan for each method, up to the first for which it fails. -/
def runAll (p : Plan Unit) : List Method → Logged (List (Method × Store Unit))
  | [] => ⟨[], .ok []⟩
  | m :: ms =>
    match rt.overflow? (.running m) with
    | some message => ⟨[], .error (.broken (.overflow message))⟩
    | none =>
      let progress := p.run fuel m ∅
      match progress.fault? with
      | some e => ⟨progress.log, .error (.ofFault m e)⟩
      | none =>
        let rest := runAll p ms
        ⟨progress.log ++ rest.log, rest.result.map ((m, progress.store) :: ·)⟩

end Methods

section Texts

variable (rt : Runtime) (format : Format)

/-- A text on lines of its own, unless the stack is too small for it or an integer in it too
long. -/
def shown (id? : Option String) (m : Method) (text : Except Fault String) : Except Failure String :=
  match rt.overflow? (.showing format id? m) with
  | some message => .error (.broken (.overflow message))
  | none => (text.map (· ++ "\n")).mapError (.ofFault m)

def methodText (m : Method) : Except Failure String :=
  shown rt format none m <|
    match format with
    | .text => do return ← m.listing
    | .sexp => do return ← rt.dumps (← Report.methodSexp m)

def resultText (id : String) (m : Method) (s : Store Unit) : Except Failure String :=
  shown rt format id m do
    let r ← s.result id
    match format with
    | .text => Report.resultText (fun _ => "") id m r
    | .sexp => return ← rt.dumps (← Report.resultSexp (fun _ => "") id m r)

def methodTexts (ms : List Method) : List (Except Failure String) :=
  ms.map (methodText rt format)

/-- The requested results of methods, each method after the other. -/
def resultTexts (requested : List String) (runs : List (Method × Store Unit)) :
    List (Except Failure String) :=
  runs.flatMap fun (m, s) => requested.map fun id => resultText rt format id m s

end Texts

def configOf : Given → Except Failure Config
  | .text s => (Config.parse s "").mapError .ofConfig
  | .nothing => .error (.broken .emptySpec)

def planOf (specs : List Given) : Except Failure (Plan Unit) := do
  (Plan.build .builtin (← specs.mapM configOf)).mapError .ofConfig

def planLine (p : Plan Unit) : Except Failure LogLine := do
  let configs ← (p.configs.mapM Config.render).mapError fun e => .broken (.overlong e)
  return ⟨.info, .commandLine, "plan: " ++ ", ".intercalate configs⟩

section Commands

variable {m : Type → Type} [Monad m] {φ : Type} (sys : System m φ) (rt : Runtime) (r : Request)

/-- The end of a run that is over once some action is. -/
def Request.endWith (log : List LogLine) (action : Action m Unit) : m Ending := do
  match ← action.run with
  | .ok () => return r.finished log
  | .error f => return r.failed log f

/-- Reads the methods of the input file and goes on with them. -/
def withMethods (log : List LogLine) (next : List LogLine → List Method → m Ending) : m Ending := do
  let path := Path.ofString r.input
  if path.hasNul then return r.failed log (.broken .nulInPath)
  match ← sys.read path with
  | .error e => return r.failed log (.ofReadError path e)
  | .ok bytes =>
    let methods := readMethods rt r.verbosity path.render bytes
    match methods.result with
    | .error e => return r.failed (log ++ methods.log) e
    | .ok ms => next (log ++ methods.log) ms

def check (quiet : Bool) : m Ending :=
  withMethods sys rt r [] fun log ms =>
    let line := "✓ " ++ r.input ++ ": " ++ toString ms.length ++ " method(s) OK\n"
    return ⟨0, showLog r.verbosity log ++ if quiet then "" else line⟩

def dump (method : Option Given) (format : Format) (output : Option Given) : m Ending :=
  withMethods sys rt r [] fun log ms =>
    match select method ms with
    | .error e => return r.failed log e
    | .ok chosen => r.endWith log (deliver sys rt output (methodTexts rt format chosen))

def analyze (specs : List Given) (method : Option Given) (format : Format)
    (output : Option Given) : m Ending :=
  match do let p ← planOf specs; return (p, ← planLine p) with
  | .error e => return r.failed [] e
  | .ok (p, line) =>
    withMethods sys rt r [line] fun log ms =>
      match select method ms with
      | .error e => return r.failed log e
      | .ok chosen =>
        let runs := runAll rt p chosen
        let log := log ++ runs.log
        match runs.result with
        | .error e => return r.failed log e
        | .ok stores =>
          r.endWith log (deliver sys rt output (resultTexts rt format p.requested stores))

def Request.perform : m Ending :=
  match r.command with
  | .check quiet => check sys rt r quiet
  | .dump method format output => dump sys rt r method format output
  | .analyze specs method format output => analyze sys rt r specs method format output

/-- The end of a run whose command line asks for no command to be run. -/
def Stop.perform (sys : System m φ) : Stop → m Ending
  | help => do
    let _ ← sys.print usageText
    return ⟨0, ""⟩
  | version => do
    let _ ← sys.print versionText
    return ⟨0, ""⟩
  | badUsage => return ⟨2, usageText⟩

/-- What the program does with a command line. -/
def respond (texts : List String) : m Ending :=
  match Request.read texts with
  | .error s => s.perform sys
  | .ok none => return ⟨1, usageText⟩
  | .ok (some r) => r.perform sys rt

end Commands

end MethodFlow.CommandLine
