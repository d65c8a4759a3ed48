/-!
Lines of a log: how much they matter, which part of the program they come from, and their text.
-/

namespace MethodFlow

inductive Level
  | debug
  | info
  deriving DecidableEq

namespace Level

/-- The name of a level, five characters wide. -/
def label : Level → String
  | debug => "DEBUG"
  | info => "INFO "

/-- Whether lines of a level are shown when verbosity was asked for a number of times. -/
def shownAt (verbosity : Nat) : Level → Bool
  | debug => 2 ≤ verbosity
  | info => 1 ≤ verbosity

end Level

/-- The parts of the program that have something to say. -/
inductive Part
  | commandLine
  | source
  | graph
  | solver
  | deadCode
  | plan
  deriving DecidableEq

def Part.name : Part → String
  | commandLine => "tir"
  | source => "tir.parser"
  | graph => "irflow.ctrlflow_graph"
  | solver => "irflow.dataflow_engine"
  | deadCode => "irflow.deadcode"
  | plan => "irflow.analysis_manager"

structure LogLine where
  level : Level
  part : Part
  message : String
  deriving DecidableEq

def LogLine.render (l : LogLine) : String :=
  "[" ++ l.level.label ++ "] " ++ l.part.name ++ ": " ++ l.message ++ "\n"

end MethodFlow
