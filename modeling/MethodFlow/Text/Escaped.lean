/-!
String literals: text in double quotes, with a backslash before what cannot stand for itself.
-/

namespace MethodFlow.Text.Escaped

/-- The characters written as a backslash and a letter or digit. -/
def letters : List (Char × Char) :=
  [('n', '\n'), ('t', '\t'), ('r', '\r'), ('b', '\x08'), ('f', '\x0c'), ('0', '\x00')]

/-- A character as it is written inside a literal. -/
def encodeChar (c : Char) : List Char :=
  if c = '\\' ∨ c = '"' then ['\\', c]
  else match letters.find? (·.2 = c) with
    | some e => ['\\', e.1]
    | none => [c]

/-- A text as a literal, quotes included. -/
def encode (cs : List Char) : List Char :=
  '"' :: cs.flatMap encodeChar ++ ['"']

/-- What a backslash followed by `c` stands for; most characters stand for themselves. -/
def decodeChar (c : Char) : Char :=
  match letters.find? (·.1 = c) with
  | some e => e.2
  | none => c

end MethodFlow.Text.Escaped
