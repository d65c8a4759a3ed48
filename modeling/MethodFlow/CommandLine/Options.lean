import MethodFlow.Text.Blank
import MethodFlow.Text.DecimalDigit

/-!
Command lines: arguments are told apart from options, and options are read with their values. A
long option may be shortened as long as it stays unique, and short ones may share a hyphen.
-/

namespace MethodFlow.CommandLine

/-- What an option does: it is noted, it takes a value, or it ends the reading. -/
inductive Effect
  | flag
  | value (choices : Option (List String))
  | help
  | version

structure Opt where
  names : List String
  effect : Effect

/-- What the name of an option is known by: the last of its names. -/
def Opt.key (o : Opt) : String :=
  o.names.getLastD ""

def Opt.takesValue (o : Opt) : Bool :=
  match o.effect with
  | .value _ => true
  | _ => false

/-- Why the reading of a command line ends early. -/
inductive Stop
  | help
  | version
  | badUsage
  deriving DecidableEq

/-- A text of a command line before options take their values. -/
inductive Token
  | argument
  /-- An option under a name, with what is joined to it. -/
  | option (o : Opt) (name : String) (joined : Option String)
  | unknown
  /-- The first `--`; everything after it is an argument. -/
  | dashes

section Classify

variable (opts : List Opt)

def named? (name : String) : Option Opt :=
  opts.find? fun o => o.names.contains name

def allNames : List (Opt × String) :=
  opts.flatMap fun o => o.names.map fun n => (o, n)

/-- The options that a text can mean when it is the name of none. -/
def candidates (cs : List Char) : List Token :=
  if cs.take 2 = ['-', '-'] then
    let (front, joined) := Text.cutAt '=' cs
    (allNames opts).filterMap fun (o, n) =>
      if front.isPrefixOf n.toList then some (.option o n (joined.map String.ofList)) else none
  else
    (allNames opts).filterMap fun (o, n) =>
      if n.toList = cs.take 2 then some (.option o n (some (String.ofList (cs.drop 2))))
      else if cs.isPrefixOf n.toList then some (.option o n none)
      else none

def isDigits (cs : List Char) : Bool :=
  !cs.isEmpty && cs.all fun c => (Text.digitValue? c).isSome

/-- Negative numbers, with or without a fraction, are arguments; a line may end behind them. -/
def isNegativeNumber : List Char → Bool
  | '-' :: cs =>
    match Text.cutAt '.' (if cs.getLast? = some '\n' then cs.dropLast else cs) with
    | (whole, none) => isDigits whole
    | (whole, some fraction) => (whole.isEmpty || isDigits whole) && isDigits fraction
  | _ => false

/-- What a text that starts with a hyphen means when it is no option's name. -/
def guess (text : String) : Except Stop Token :=
  let cs := text.toList
  match candidates opts cs with
  | [t] => .ok t
  | [] =>
    .ok (if isNegativeNumber cs || cs.contains ' ' then .argument else .unknown)
  | _ => .error .badUsage

/-- What one text before any `--` is. -/
def classify (text : String) : Except Stop Token :=
  match text.toList with
  | '-' :: _ :: _ =>
    match named? opts text with
    | some o => .ok (.option o text none)
    | none =>
      match Text.cutAt '=' text.toList with
      | (front, some joined) =>
        match named? opts (String.ofList front) with
        | some o => .ok (.option o (String.ofList front) (some (String.ofList joined)))
        | none => guess opts text
      | _ => guess opts text
  | _ => .ok .argument

/-- Every text with what it is. -/
def tokens : List String → Except Stop (List (String × Token))
  | [] => .ok []
  | text :: rest =>
    if text = "--" then .ok ((text, .dashes) :: rest.map (·, .argument))
    else do return (text, ← classify opts text) :: (← tokens rest)

end Classify

/-- What an option is given: a text, or nothing, which `--` joined to the option stands for. -/
inductive Given
  | text (s : String)
  | nothing
  deriving DecidableEq

/-- What was read, in its order. -/
inductive Event
  | flag (key : String)
  | value (key : String) (given : Given)
  | argument (text : String)
  /-- A word that selects a command, with the rest of the line. -/
  | command (word : String) (rest : List String)
  /-- A text that nothing was there to take. -/
  | extra

/-- An option read off a text, with the value it has there. -/
structure Found where
  option : Opt
  value : Option String

/-- The options in a group of short ones that goes on with `-c`, to which the rest is joined. -/
def shortOptions (opts : List Opt) (c : Char) : List Char → Except Stop (List Found)
  | [] =>
    match named? opts (String.ofList ['-', c]) with
    | some o => .ok [⟨o, none⟩]
    | none => .error .badUsage
  | d :: rest =>
    match named? opts (String.ofList ['-', c]) with
    | some o =>
      if o.takesValue then .ok [⟨o, some (String.ofList (d :: rest))⟩]
      else do return ⟨o, none⟩ :: (← shortOptions opts d rest)
    | none => .error .badUsage

/-- The options that a text holds: one with or without a value, or a group of short ones. -/
def group (opts : List Opt) (o : Opt) (name : String) :
    (joined : Option String) → Except Stop (List Found)
  | none => .ok [⟨o, none⟩]
  | some joined =>
    if o.takesValue then .ok [⟨o, some joined⟩]
    else match name.toList, joined.toList with
      | ['-', _], c :: rest => do return ⟨o, none⟩ :: (← shortOptions opts c rest)
      | _, _ => .error .badUsage

/-- Whether the last option of a group still needs a value. -/
def needsValue (found : List Found) : Bool :=
  found.getLast?.any fun f => f.option.takesValue && f.value.isNone

def giveValue (found : List Found) (v : String) : List Found :=
  found.dropLast ++ (found.getLast?.map fun f => { f with value := some v }).toList

/-- Notes an option that is complete; nothing is a choice everywhere. -/
def Found.note (f : Found) : Except Stop Event :=
  match f.option.effect, f.value with
  | .flag, _ => .ok (.flag f.option.key)
  | .help, _ => .error .help
  | .version, _ => .error .version
  | .value _, none => .error .badUsage
  | .value _, some "--" => .ok (.value f.option.key .nothing)
  | .value choices, some v =>
    if choices.all (·.contains v) then .ok (.value f.option.key (.text v)) else .error .badUsage

/-- What the first argument of a command line is: just that, or a word that selects a command and
takes the rest of the line with it. -/
inductive Leader
  | argument
  | command

/-- Reads a command line in its order. Only the first argument is expected, unless it was `taken`
already; `--` in front of it or right behind it is left out, but it selects no command. -/
def events (opts : List Opt) (leader : Leader) :
    (taken : Bool) → List (String × Token) → Except Stop (List Event)
  | _, [] => .ok []
  | taken, (_, .option o name joined) :: tail => do
    let found ← group opts o name joined
    match needsValue found, tail with
    | true, (v, .argument) :: rest =>
      let noted ← (giveValue found v).mapM Found.note
      return noted ++ (← events opts leader taken rest)
    | true, _ => throw .badUsage
    | false, tail =>
      let noted ← found.mapM Found.note
      return noted ++ (← events opts leader taken tail)
  | taken, (_, .unknown) :: tail => do return .extra :: (← events opts leader taken tail)
  | true, _ :: tail => do return .extra :: (← events opts leader true tail)
  | false, (text, token) :: tail =>
    match leader, token, tail with
    | _, .dashes, [] => .ok [.extra]
    | .command, _, tail => .ok [.command text (tail.map Prod.fst)]
    | .argument, .dashes, (text, _) :: rest => do
      return .argument text :: (← events opts leader true rest)
    | .argument, _, (_, .dashes) :: rest => do
      return .argument text :: (← events opts leader true rest)
    | .argument, _, tail => do return .argument text :: (← events opts leader true tail)

def read (opts : List Opt) (leader : Leader) (texts : List String) : Except Stop (List Event) := do
  events opts leader false (← tokens opts texts)

end MethodFlow.CommandLine
