import MethodFlow.Source.Reader
import MethodFlow.Text.Blank

/-!
What may stand between the words of a program: blanks and comments.
-/

namespace MethodFlow.Source

/-- A blank character, a comment up to the end of its line, or a comment between marks. -/
inductive Blank
  | space (c : Char)
  | line (body : List Char)
  | block (body : List Char)

def Blank.text : Blank → List Char
  | space c => [c]
  | line body => '/' :: '/' :: body
  | block body => '/' :: '*' :: body ++ ['*', '/']

abbrev Gap := List Blank

def Gap.text (g : Gap) : List Char :=
  g.flatMap Blank.text

namespace Reader

def lineComment : Reader Blank := do
  exactly "//"
  return .line (← span (· ≠ '\n'))

/-- The text before the first end of a block comment, and the text after that end. -/
def cutClose : List Char → Option (List Char × List Char)
  | [] => none
  | '*' :: '/' :: r => some ([], r)
  | c :: r => (cutClose r).map fun cut => (c :: cut.1, cut.2)

def blockComment : Reader Blank := do
  exactly "/*"
  return .block (← cutClose)

def comment : Reader Blank :=
  lineComment <|> blockComment

def blank : Reader Blank :=
  (.space <$> satisfying Text.isBlank) <|> comment

def gap : Reader Gap :=
  many blank

def gap1 : Reader Gap :=
  many1 blank

end Reader

end MethodFlow.Source
