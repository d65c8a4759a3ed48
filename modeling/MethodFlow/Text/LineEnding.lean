/-!
Ends of lines: a carriage return, with or without a line feed after it, ends a line like a line
feed.
-/

namespace MethodFlow.Text

/-- The text with every end of a line written as a line feed. -/
def unifyLines : List Char → List Char
  | [] => []
  | '\r' :: '\n' :: r => '\n' :: unifyLines r
  | c :: r => (if c = '\r' then '\n' else c) :: unifyLines r

end MethodFlow.Text
