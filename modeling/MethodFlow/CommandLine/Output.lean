import MethodFlow.CommandLine.Failure
import MethodFlow.CommandLine.Runtime

/-!
Outputs of commands. The path of an output is freed of links, the directories that lead to it are
made, and it is opened before the first text is had; the texts are put there one after the other.
-/

namespace MethodFlow.CommandLine

/-- What talks to the system and may fail. -/
abbrev Action (m : Type → Type) (α : Type) :=
  ExceptT Failure m α

section

variable {m : Type → Type} [Monad m] {φ : Type}

/-- What came of something, as an action. -/
def Action.ofExcept {α : Type} : Except Failure α → Action m α
  | .ok a => return a
  | .error e => throw e

/-- A call to the system as an action; `why` makes a failure of the error of the call. -/
def Action.ofCall {ε α : Type} (call : m (Except ε α)) (why : ε → Failure) : Action m α := do
  Action.ofExcept ((← ExceptT.lift call).mapError why)

variable (sys : System m φ) (rt : Runtime)

/-- Breaks off at a stage for which the stack is too small. -/
def Runtime.enter (stage : Stage) : Action m Unit := do
  match rt.overflow? stage with
  | some message => throw (.broken (.overflow message))
  | none => return

section Resolve

/-- A path with the home directory of its user in place of a leading `~`. -/
def expandUser (p : Path) : Action m Path := do
  match p.user? with
  | none => return p
  | some u =>
    if u.toList.contains '\x00' then throw (.broken .nulInPath)
    else
      match ← ExceptT.lift (sys.home? u) with
      | none => throw (.broken .unknownUser)
      | some home => return (Path.ofString home).append (p.names.drop 1)

/-- Goes along names from a path without links; `enterLink` goes on from a link to where it leads.
A link that is being gone through already leads around in a circle: then what is left of the names
stays as it is, and the flag is false. -/
def followNames (enterLink : List Path → Path → Path → Action m (Path × Bool))
    (through : List Path) (p : Path) : List String → Action m (Path × Bool)
  | [] => return (p, true)
  | n :: ns =>
    if n = ".." then followNames enterLink through p.up ns
    else if n.toList.contains '\x00' then throw (.broken .nulInPath)
    else do
      let q := p.append [n]
      match ← ExceptT.lift (sys.link? q) with
      | none => followNames enterLink through q ns
      | some target =>
        if q ∈ through then return (q.append ns, false)
        else
          let target ← Action.ofCall (pure target) (.system (some q))
          match ← enterLink (q :: through) p (.ofString target) with
          | (r, true) => followNames enterLink through r ns
          | (r, false) => return (r.append ns, false)

/-- Goes along a path from another one without links. -/
def follow : (links : Nat) → (through : List Path) → (start target : Path) →
    Action m (Path × Bool)
  | 0, _, _, _ => throw (.broken (.overflow "maximum recursion depth exceeded"))
  | links + 1, through, start, target =>
    followNames sys (follow links) through
      (if target.start = .working then start else ⟨.root, []⟩) target.names

/-- The directory that the names of a path lead from. -/
def originOf (p : Path) : Action m Path :=
  if p.start = .working then Action.ofCall sys.workingDirectory (.system none)
  else pure ⟨.root, []⟩

/-- A path that the system does not go around in a circle on. -/
def checkCircle (p : Path) : Action m Path :=
  if p.hasNul then throw (.broken .nulInPath)
  else do
    match ← ExceptT.lift (sys.isDirectory p) with
    | .error .tooManyLinks => throw (.broken (.linkCircle p.render))
    | _ => return p

/-- The path from the root without links that a path leads to. -/
def resolve (p : Path) : Action m Path := do
  let q ← follow sys rt.links [] ⟨.working, []⟩ p
  let origin ← originOf sys q.1
  checkCircle sys (.flatten (origin.names ++ q.1.names))

end Resolve

section Open

/-- A directory that could not be made is all right if it is there. -/
def checkDirectory (p : Path) (e : SystemError) : Action m Unit := do
  match ← ExceptT.lift (sys.isDirectory p) with
  | .ok true => return
  | .ok false => throw (.system (some p) e)
  | .error e' => throw (.system (some p) (if e'.isAbsence then e else e'))

/-- Makes the directory that the first `k` names of a path lead to, and those on the way to it. -/
def makeDirectories (p : Path) (k : Nat) : Action m Unit := do
  match ← ExceptT.lift (sys.makeDirectory (p.take k)) with
  | .ok () => return
  | .error .notFound =>
    match k with
    | 0 => throw (.system (some (p.take 0)) .notFound)
    | k + 1 =>
      makeDirectories p k
      -- once more, now that there is a directory to make it in
      match ← ExceptT.lift (sys.makeDirectory (p.take (k + 1))) with
      | .ok () => return
      | .error .notFound => throw (.system (some (p.take (k + 1))) .notFound)
      | .error e => checkDirectory sys (p.take (k + 1)) e
  | .error e => checkDirectory sys (p.take k) e

/-- Opens the file at a path as an output. -/
def openPath (s : String) : Action m φ := do
  let p ← resolve sys rt (← expandUser sys (.ofString s))
  rt.enter (.opening p)
  makeDirectories sys p (p.names.length - 1)
  Action.ofCall (sys.openFile p) (.system (some p))

end Open

section Put

/-- Puts texts somewhere one after the other, up to the first that cannot be had or put. -/
def putAll (put : String → Action m Unit) : List (Except Failure String) → Action m Unit
  | [] => return ()
  | text :: rest => do
    put (← Action.ofExcept text)
    putAll put rest

/-- Closes a file, whatever came of writing it; an error in that counts for more. -/
def closing (f : φ) (write : Action m Unit) : Action m Unit := do
  let result ← ExceptT.lift write.run
  Action.ofCall (sys.close f) (.system none)
  Action.ofExcept result

def printAll (texts : List (Except Failure String)) : Action m Unit :=
  putAll (fun t => Action.ofCall (sys.print t) .ofPrintError) texts

def writeAll (f : φ) (texts : List (Except Failure String)) : Action m Unit :=
  closing sys f (putAll (fun t => Action.ofCall (sys.write f t) (.system none)) texts)

/-- Prints texts, or writes them to a file. -/
def deliver (output : Option Given) (texts : List (Except Failure String)) : Action m Unit :=
  match output with
  | none | some (.text "-") => printAll sys texts
  | some .nothing => throw (.broken .emptyOutput)
  | some (.text s) => do writeAll sys (← openPath sys rt s) texts

end Put

end

end MethodFlow.CommandLine
