import MethodFlow.OrderedMap
import MethodFlow.Proofs.SystemCalls

/-!
A system that is all there to see: files in one directory, and what was printed.
-/

namespace MethodFlow.CommandLine

/-- A disk that has all of its files in one directory, with what was printed. -/
structure Disk where
  files : OrderedMap String (List Nat)
  printed : String

namespace Disk

def look (d : Disk) : View String :=
  ⟨d.files.find?, d.printed⟩

def bytesOf (text : String) : List Nat :=
  text.toUTF8.data.toList.map UInt8.toNat

def read (d : Disk) (p : Path) : Except ReadError (List Nat) :=
  match p.names with
  | [n] =>
    match d.files.find? n with
    | some bytes => .ok bytes
    | none => .error (.unopened .notFound)
  | [] => .error (.unopened .isDirectory)
  | _ => .error (.unopened .notFound)

def openFile (d : Disk) (p : Path) : Except SystemError String × Disk :=
  match p.names with
  | [n] => (.ok n, { d with files := d.files.insert n [] })
  | [] => (.error .isDirectory, d)
  | _ => (.error .notFound, d)

def write (d : Disk) (n text : String) : Disk :=
  { d with files := d.files.insert n ((d.files.find? n).getD [] ++ bytesOf text) }

/-- The calls to a disk, whose directory is the working directory. -/
def system : System (StateM Disk) String where
  workingDirectory := return .ok ⟨.root, []⟩
  home? _ := return none
  read p := return (← get).read p
  link? _ := return none
  isDirectory p := do
    let d ← get
    match p.names with
    | [] => return .ok true
    | [n] => return if d.files.contains n then .ok false else .error .notFound
    | _ => return .error .notFound
  makeDirectory p := return .error (if p.names = [] then .alreadyThere else .noSpace)
  openFile p := modifyGet fun d => d.openFile p
  write n text := modifyGet fun d => (.ok (), d.write n text)
  close _ := return .ok ()
  print text := modifyGet fun d => (.ok (), { d with printed := d.printed ++ text })

theorem sameBut_insert (d : Disk) (n : String) (bytes : List Nat) :
    d.look.SameBut n { d with files := d.files.insert n bytes }.look :=
  ⟨rfl, fun _ hg => (OrderedMap.find?_insert ..).trans (if_neg (Ne.symm hg))⟩

theorem lawful_system : system.Lawful look where
  workingDirectory _ := rfl
  home? _ _ := rfl
  read _ _ := rfl
  link? _ _ := rfl
  isDirectory p d := by
    obtain ⟨start, _ | ⟨n, _ | ⟨k, ns⟩⟩⟩ := p <;> rfl
  makeDirectory _ _ := rfl
  unopened p d e h := by
    obtain ⟨start, _ | ⟨n, _ | ⟨k, ns⟩⟩⟩ := p
    · rfl
    · cases h
    · rfl
  opened p d f h := by
    obtain ⟨start, _ | ⟨n, _ | ⟨k, ns⟩⟩⟩ := p
    · cases h
    · cases h
      exact d.sameBut_insert _ []
    · cases h
  write n _ d := d.sameBut_insert n _
  close _ d := refl_of (View.SameBut _) d.look
  print _ _ := rfl

theorem not_refuses (f : Failure) : ¬ system.Refuses f := by
  rintro (h | h | h) <;> cases h

end Disk

end MethodFlow.CommandLine
