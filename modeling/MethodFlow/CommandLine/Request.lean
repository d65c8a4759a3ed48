import MethodFlow.CommandLine.Options

/-!
Requests: what a command line asks for.
-/

namespace MethodFlow.CommandLine

inductive Format
  | text
  | sexp
  deriving DecidableEq

inductive Command
  | check (quiet : Bool)
  | dump (method : Option Given) (format : Format) (output : Option Given)
  | analyze (specs : List Given) (method : Option Given) (format : Format) (output : Option Given)

/-- A command on an input file; log lines are shown as `verbosity` says. -/
structure Request where
  verbosity : Nat
  input : String
  command : Command

def helpOption : Opt := ⟨["-h", "--help"], .help⟩

def methodOption : Opt := ⟨["--method"], .value none⟩

def formatOption : Opt := ⟨["--format"], .value (some ["text", "sexp"])⟩

def outputOption : Opt := ⟨["-o", "--output"], .value none⟩

def mainOptions : List Opt :=
  [helpOption, ⟨["--version"], .version⟩, ⟨["-v", "--verbose"], .flag⟩]

def checkOptions : List Opt :=
  [helpOption, ⟨["-q", "--quiet"], .flag⟩]

def dumpOptions : List Opt :=
  [helpOption, methodOption, formatOption, outputOption]

def analyzeOptions : List Opt :=
  [helpOption, ⟨["-a", "--analysis"], .value none⟩, methodOption, formatOption, outputOption]

section

variable (es : List Event)

def timesGiven (key : String) : Nat :=
  es.countP fun
    | .flag k => k = key
    | _ => false

/-- All that an option was given. -/
def valuesOf (key : String) : List Given :=
  es.filterMap fun
    | .value k v => if k = key then some v else none
    | _ => none

/-- The last that an option was given. -/
def valueOf? (key : String) : Option Given :=
  (valuesOf es key).getLast?

def formatOf : Format :=
  if valueOf? es "--format" = some (.text "sexp") then .sexp else .text

/-- The only argument; there is nothing else that was not expected. -/
def inputOf (es : List Event) : Except Stop String :=
  match es.filterMap (fun | .argument a => some a | _ => none) with
  | [a] => if es.any (fun | .extra => true | _ => false) then .error .badUsage else .ok a
  | _ => .error .badUsage

end

def checkCommand (texts : List String) : Except Stop (String × Command) := do
  let es ← read checkOptions .argument texts
  return (← inputOf es, .check (timesGiven es "--quiet" ≠ 0))

def dumpCommand (texts : List String) : Except Stop (String × Command) := do
  let es ← read dumpOptions .argument texts
  return (← inputOf es, .dump (valueOf? es "--method") (formatOf es) (valueOf? es "--output"))

/-- At least one analysis has to be asked for. -/
def analyzeCommand (texts : List String) : Except Stop (String × Command) := do
  let es ← read analyzeOptions .argument texts
  let input ← inputOf es
  match valuesOf es "--analysis" with
  | [] => throw .badUsage
  | specs =>
    return (input, .analyze specs (valueOf? es "--method") (formatOf es) (valueOf? es "--output"))

/-- The command that a word selects, read off the rest of the line. -/
def commandNamed (word : String) (rest : List String) : Except Stop (String × Command) :=
  match word with
  | "check" => checkCommand rest
  | "dump-ir" => dumpCommand rest
  | "analyze" => analyzeCommand rest
  | _ => .error .badUsage

/-- Reads a command line; one without a command asks for nothing. -/
def Request.read (texts : List String) : Except Stop (Option Request) := do
  let es ← CommandLine.read mainOptions .command texts
  let command ← (es.findSome? fun
    | .command word rest => some (word, rest)
    | _ => none).mapM fun (word, rest) => commandNamed word rest
  if es.any (fun | .extra => true | _ => false) then throw .badUsage
  return command.map fun (input, command) =>
    { verbosity := timesGiven es "--verbose", input, command }

end MethodFlow.CommandLine
