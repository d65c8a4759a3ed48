import MethodFlow.Source.Builder

/-!
Reading programs: a text is read as methods, and one builder visits them one after the other. A text
that goes on after its last method is no program.
-/

namespace MethodFlow.Source

/-- What came of reading a text: the methods that were understood, and what is wrong with the text
if anything is. -/
structure Reading where
  methods : List Method
  error? : Option Diagnostic

/-- Visits methods that stand one after the other, up to the first that is not understood. -/
def visitMethods (p : Pos) (b : Builder) : List MethodDecl → Reading
  | [] => ⟨[], none⟩
  | d :: r =>
    match (d.visit p).run b with
    | .error e => ⟨[], some e⟩
    | .ok (m, b) =>
      let rest := visitMethods (p.after d.text) b r
      { rest with methods := m :: rest.methods }

/-- The first method with the name of an earlier one. -/
def repeatedMethod? (seen : List String) : List Method → Option String
  | [] => none
  | m :: r => if m.name ∈ seen then some m.name else repeatedMethod? (m.name :: seen) r

/-- At most this many characters of a text that is no method are shown. -/
def snippetLength : Nat := 20

/-- The beginning of a text, up to the end of its first line. -/
def snippet (cs : List Char) : String :=
  String.ofList ((cs.take snippetLength).takeWhile (· ≠ '\n'))

/-- The longest program at the front of a text, and the rest of the text. -/
def Program.ofText (cs : List Char) : Program × List Char :=
  (Reader.program cs).getD (⟨[], []⟩, cs)

/-- The reading of a program whose methods have been read: it is wrong when two have one name. -/
def Reading.close (r : Reading) : Reading :=
  match r.error?, repeatedMethod? [] r.methods with
  | none, some x => { r with error? := some ⟨.methodTwice x, none⟩ }
  | _, _ => r

def Program.visit (p : Program) : Reading :=
  (visitMethods (Pos.start.after p.lead.text) .blank p.methods).close

def readText (cs : List Char) : Reading :=
  match Program.ofText cs with
  | (p, []) => p.visit
  | (p, rest) => ⟨[], some ⟨.noMethodAt (snippet rest), some (Pos.start.after p.text)⟩⟩

def parse (text : String) : Checked (List Method) :=
  let reading := readText text.toList
  match reading.error? with
  | some e => .error e
  | none => .ok reading.methods

/-- The only method of a program, or the one with a given name. -/
def parseMethod (text : String) (name : Option String) : Checked Method := do
  let ms ← parse text
  match name, ms with
  | none, [m] => return m
  | none, ms => throw ⟨.methodCount ms.length, none⟩
  | some x, ms =>
    match ms.find? fun m => m.name = x with
    | some m => return m
    | none => throw ⟨.missingMethod x, none⟩

end MethodFlow.Source
