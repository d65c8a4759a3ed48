/-!
Readers: functions that take something off the front of a text, or do not match. Alternatives are
tried in order, and the first that matches is final.
-/

namespace MethodFlow.Source

/-- Reads a value off the front of a text and leaves the rest. -/
abbrev Reader (α : Type) := StateT (List Char) Option α

namespace Reader

variable {α : Type}

def satisfying (p : Char → Bool) : Reader Char
  | [] => none
  | c :: r => if p c then some (c, r) else none

/-- As many characters with a property as there are. -/
def span (p : Char → Bool) : Reader (List Char) :=
  fun cs => some (cs.takeWhile p, cs.dropWhile p)

/-- At least one character with a property, and as many as there are. -/
def span1 (p : Char → Bool) : Reader (List Char) := do
  return (← satisfying p) :: (← span p)

/-- What follows `lead` in a text that starts with it. -/
def after? : (lead cs : List Char) → Option (List Char)
  | [], cs => some cs
  | _ :: _, [] => none
  | k :: ks, c :: cs => if k = c then after? ks cs else none

def exactly (s : String) : Reader Unit :=
  fun cs => (after? s.toList cs).map ((), ·)

/-- Matches without taking anything where a test on what follows holds. -/
def ahead (test : List Char → Bool) : Reader Unit :=
  fun cs => if test cs then some ((), cs) else none

def optional (p : Reader α) : Reader (Option α) :=
  (some <$> p) <|> pure none

/-- Values one after the other, up to the first that does not match or to the given number. -/
def atMost (p : Reader α) : Nat → Reader (List α)
  | 0 => pure []
  | n + 1 => (do
    let a ← p
    let as ← atMost p n
    return a :: as) <|> pure []

/-- As many values as there are; each of them takes at least one character. -/
def many (p : Reader α) : Reader (List α) :=
  fun cs => atMost p cs.length cs

/-- At least one value, and as many as there are. -/
def many1 (p : Reader α) : Reader (List α) := do
  return (← p) :: (← many p)

end Reader

end MethodFlow.Source
