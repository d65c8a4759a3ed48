import MethodFlow.CommandLine.Commands

/-!
The program itself: its calls go to the system that it runs on.
-/

namespace MethodFlow.CommandLine

/-- The reason that the system gives for an error. -/
def reasonOf : IO.Error → SystemError
  | .noFileOrDirectory .. | .noSuchThing .. => .notFound
  | .alreadyExists .. => .alreadyThere
  | .resourceVanished .. => .brokenPipe
  | .inappropriateType _ _ text | .invalidArgument _ _ text => .other text
  | e => .other (toString e)

def attempt {α : Type} (call : IO α) : IO (Except SystemError α) := do
  try
    return .ok (← call)
  catch e => return .error (reasonOf e)

/-- The home directory in the line of an account. -/
def homeIn? (user line : String) : Option String :=
  match line.splitOn ":" with
  | [name, _, _, _, _, home, _] => if name = user then some home else none
  | _ => none

def homeOf? (user : String) : IO (Option String) := do
  if user = "" then return ← IO.getEnv "HOME"
  try
    return (← IO.FS.lines "/etc/passwd").findSome? (homeIn? user)
  catch _ => return none

/-- The calls to the real system, which follows links by itself. -/
def system : System IO IO.FS.Handle where
  workingDirectory := attempt do return .ofString (← IO.currentDir).toString
  home? := homeOf?
  read p := do
    match ← attempt (IO.FS.readBinFile p.render) with
    | .ok bytes => return .ok (bytes.data.toList.map UInt8.toNat)
    | .error e => return .error (.unopened e)
  link? _ := return none
  isDirectory p := attempt do return ← ((← IO.currentDir) / p.render).isDir
  makeDirectory p := attempt (IO.FS.createDir p.render)
  openFile p := attempt (IO.FS.Handle.mk p.render .write)
  write f text := attempt (f.putStr text)
  close f := attempt f.flush
  print text := do return (← attempt (IO.print text)).mapError .system

end MethodFlow.CommandLine

open MethodFlow.CommandLine in
def main (args : List String) : IO UInt32 := do
  let e ← respond system .roomy args
  IO.eprint e.stderr
  return e.code.toUInt32
