import MethodFlow.CommandLine.System
import MethodFlow.CommandLine.Request
import MethodFlow.Fault
import MethodFlow.ConfigError
import MethodFlow.Log
import MethodFlow.Source.Diagnostic
import MethodFlow.Text.Utf8

/-!
Why a request fails, with which code the run ends then, and what it says.
-/

namespace MethodFlow.CommandLine

/-- What the program is not prepared for. -/
inductive Breakdown
  | notText (e : Text.Utf8.Malformed)
  | emptySpec
  | emptyOutput
  | nulInPath
  | unknownUser
  /-- Links lead around in a circle. -/
  | linkCircle (path : String)
  | overlong (e : Text.Overlong)
  /-- Reading a program broke off; behind it, the text is described. -/
  | unforeseen (message parseTree : String)
  | overflow (message : String)
  | unencodable (message : String)

def Breakdown.message : Breakdown → String
  | notText e => "UnicodeDecodeError: " ++ e.message
  | emptySpec => "AttributeError: 'list' object has no attribute 'strip'"
  | emptyOutput => "TypeError: expected str, bytes or os.PathLike object, not list"
  | nulInPath => "ValueError: embedded null byte"
  | unknownUser => "RuntimeError: Could not determine home directory."
  | linkCircle p => "RuntimeError: Symlink loop from " ++ Text.quoted p
  | overlong e => "ValueError: " ++ e.message
  | unforeseen m tree => "VisitationError: " ++ m ++ "\n\nParse tree:\n" ++ tree
  | overflow m => "RecursionError: " ++ m
  | unencodable m => "UnicodeEncodeError: " ++ m

inductive Failure
  | config (e : ConfigError)
  | source (file : String) (e : Source.Diagnostic)
  /-- The system fails, at a path or at what is open already. -/
  | system (path? : Option Path) (e : SystemError)
  | analysis (message : String)
  | broken (e : Breakdown)

namespace Failure

/-- A wrong configuration, or one that could not be put into words. -/
def ofConfig : ConfigError → Failure
  | .overlong e => broken (.overlong e)
  | e => config e

/-- A fault that came up in a method, or that could not be put into words. -/
def ofFault (m : Method) (e : Fault) : Failure :=
  match e.message m with
  | .ok message => analysis message
  | .error e => broken (.overlong e)

/-- What is wrong with a program in a file, or broke off the reading of its text. -/
def ofDiagnostic (file : String) (tree : String) (e : Source.Diagnostic) : Failure :=
  if e.cause.severity = .unforeseen then broken (.unforeseen e.cause.message tree)
  else source file e

def ofPrintError : PrintError → Failure
  | .system e => system none e
  | .unencodable m => broken (.unencodable m)

def ofReadError (p : Path) : ReadError → Failure
  | .unopened e => system (some p) e
  | .unread e => system none e

/-- Bad input ends with 1, and what should not happen with 2. A reader that went away is no
error. -/
def code : Failure → Nat
  | system _ .brokenPipe => 0
  | config _ | source _ _ | system _ _ => 1
  | analysis _ | broken _ => 2

/-- The error that is reported; a fault that is about no path is laid to the input. -/
def message (input : String) : Failure → String
  | config e => e.message
  | source file e => e.message file
  | system path? e => (path?.elim input Path.render) ++ ": " ++ e.render
  | analysis m => "internal error: " ++ m
  | broken e => "internal error: " ++ e.message

/-- What the log says about a failure before it is reported. -/
def log : Failure → List LogLine
  | broken _ => [⟨.debug, .commandLine, "unhandled exception"⟩]
  | _ => []

end Failure

/-- The end of a run: its exit code, and what it said beside its output. -/
structure Ending where
  code : Nat
  stderr : String
  deriving DecidableEq

/-- The lines of a log that a verbosity shows. -/
def showLog (verbosity : Nat) (log : List LogLine) : String :=
  String.join ((log.filter fun l => l.level.shownAt verbosity).map LogLine.render)

/-- The end of a run that did what was asked for. -/
def Request.finished (r : Request) (log : List LogLine) : Ending :=
  ⟨0, showLog r.verbosity log⟩

def Request.failed (r : Request) (log : List LogLine) (f : Failure) : Ending :=
  ⟨f.code, showLog r.verbosity (log ++ f.log) ++
    if f.code = 0 then "" else "error: " ++ f.message r.input ++ "\n"⟩

end MethodFlow.CommandLine
