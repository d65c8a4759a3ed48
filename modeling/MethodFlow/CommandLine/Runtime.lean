import MethodFlow.CommandLine.Path
import MethodFlow.CommandLine.Request
import MethodFlow.Method
import MethodFlow.Sexp

/-!
What the program is run by: an interpreter whose stack is limited, and the libraries that print
S-expressions and describe the text that was being read.
-/

namespace MethodFlow.CommandLine

/-- The parts of a run whose calls may nest too deep for the stack. -/
inductive Stage
  | reading (verbosity : Nat) (bytes : List Nat)
  | running (m : Method)
  | opening (p : Path)
  /-- A method is written, or the result that an analysis has for it. -/
  | showing (format : Format) (id? : Option String) (m : Method)

structure Runtime where
  /-- Links that lead through as many links nest too deep. -/
  links : Nat
  /-- The message of the error in which a stage ends, if the stack is too small for it. -/
  overflow? : Stage → Option String
  dumps : Sexp → Except Text.Overlong String
  /-- The description of a text in which a number turned out to be too long. -/
  parseTree : List Char → String

/-- A runtime whose stack is large enough for all that is not endless. -/
def Runtime.roomy : Runtime where
  links := 1000
  overflow? _ := none
  dumps := Sexp.render
  parseTree := String.ofList

end MethodFlow.CommandLine
