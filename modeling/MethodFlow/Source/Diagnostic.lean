import MethodFlow.Source.Position
import MethodFlow.Text.Decimal
import MethodFlow.Text.Quoted

/-!
What can be wrong with a program: the causes, where they are, and their wording.
-/

namespace MethodFlow.Source

structure Loc where
  file : String
  line : Int
  column : Int

def Loc.render (l : Loc) : String :=
  l.file ++ ":" ++ toString l.line ++ ":" ++ toString l.column

/-- A message behind the place it is about, where one is known. -/
def Loc.annotate (loc : Option Loc) (message : String) : String :=
  loc.elim message fun l => l.render ++ ": " ++ message

/-- Text that is no program, a program that means nothing, or one whose check broke off. -/
inductive Severity
  | malformed
  | meaningless
  | unforeseen
  deriving DecidableEq

inductive Cause
  /-- A text that is no method starts with a snippet. -/
  | noMethodAt (snippet : String)
  | arrayOfVoid
  | alreadyDeclared (name : String)
  | undeclared (name : String)
  /-- The result of a call is assigned to something other than a variable. -/
  | callStored
  /-- An object of a type is made that is no class. -/
  | notAClass (type : String)
  | duplicateCase (value : String)
  | labelTwice (name : String)
  | danglingLabel (name : String)
  | undefinedLabel (name : String)
  | methodTwice (name : String)
  /-- A text that should hold one method holds another number of them. -/
  | methodCount (found : Nat)
  | missingMethod (name : String)
  /-- An integer is too long to be read, or to be written into a message. -/
  | overlong (e : Text.Overlong)
  deriving DecidableEq

namespace Cause

def severity : Cause → Severity
  | noMethodAt _ => .malformed
  | overlong _ => .unforeseen
  | _ => .meaningless

def message : Cause → String
  | noMethodAt snippet => "cannot parse method starting at " ++ Text.quoted snippet
  | arrayOfVoid => "array of void"
  | alreadyDeclared x => "variable '" ++ x ++ "' is already declared"
  | undeclared x => "undeclared variable '" ++ x ++ "'"
  | callStored => "call results can only be stored in a variable"
  | notAClass t => "'new' needs a class type, got '" ++ t ++ "'"
  | duplicateCase v => "duplicate case " ++ v
  | labelTwice x => "label '" ++ x ++ "' is defined twice"
  | danglingLabel x => "label '" ++ x ++ "' is not followed by a statement"
  | undefinedLabel x => "undefined label '" ++ x ++ "'"
  | methodTwice x => "method '" ++ x ++ "' is defined twice"
  | methodCount n => "expected exactly one method, found " ++ toString n
  | missingMethod x => "no method named '" ++ x ++ "'"
  | overlong e => "ValueError: " ++ e.message

end Cause

structure Diagnostic where
  cause : Cause
  pos : Option Pos
  deriving DecidableEq

namespace Diagnostic

def loc (d : Diagnostic) (file : String) : Option Loc :=
  d.pos.map fun p => ⟨file, p.line, p.column⟩

def message (d : Diagnostic) (file : String) : String :=
  Loc.annotate (d.loc file) d.cause.message

end Diagnostic

end MethodFlow.Source
