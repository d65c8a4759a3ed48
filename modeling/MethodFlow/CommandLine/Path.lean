import MethodFlow.Text.Blank

/-!
Paths as they are written, and what their names come to without a look at a disk.
-/

namespace MethodFlow.CommandLine

/-- Where a path starts: at the working directory, or at the root. Two slashes are kept apart from
one; more than two are as good as one. -/
inductive Start
  | working
  | root
  | doubleRoot
  deriving DecidableEq

namespace Start

def ofChars : List Char → Start
  | '/' :: '/' :: '/' :: _ => root
  | '/' :: '/' :: _ => doubleRoot
  | '/' :: _ => root
  | _ => working

def render : Start → String
  | working => ""
  | root => "/"
  | doubleRoot => "//"

end Start

structure Path where
  start : Start
  names : List String
  deriving DecidableEq

namespace Path

/-- Reads a path; empty names and names of a single dot are left out. -/
def ofString (s : String) : Path :=
  let cs := s.toList
  ⟨.ofChars cs, ((Text.pieces '/' cs).filter fun p => !p.isEmpty && p ≠ ['.']).map String.ofList⟩

def render (p : Path) : String :=
  if p.start = .working ∧ p.names = [] then "."
  else p.start.render ++ "/".intercalate p.names

/-- Whether a name has a NUL in it, which the system takes for no name. -/
def hasNul (p : Path) : Bool :=
  p.names.any fun n => n.toList.contains '\x00'

/-- The user in whose home directory a path starts; the empty name is that of the user at work. -/
def user? (p : Path) : Option String :=
  match p.start, p.names.head?.map String.toList with
  | .working, some ('~' :: u) => some (String.ofList u)
  | _, _ => none

def append (p : Path) (names : List String) : Path :=
  { p with names := p.names ++ names }

/-- The directory on the way to a path that its first names lead to. -/
def take (p : Path) (k : Nat) : Path :=
  { p with names := p.names.take k }

/-- What `..` leads to from a path without links: it takes back the name in front of it. -/
def up (p : Path) : Path :=
  match p.names.getLast?, p.start with
  | some "..", _ | none, .working => p.append [".."]
  | _, _ => p.take (p.names.length - 1)

/-- A path from the root, in which `..` takes back whatever name is in front of it. -/
def flatten (names : List String) : Path :=
  ⟨.root, names.foldl (fun ns n => if n = ".." then ns.dropLast else ns ++ [n]) []⟩

end Path

end MethodFlow.CommandLine
