import MethodFlow.CommandLine.Path

/-!
The system that the program runs on, as the calls that the program makes to it: they look at paths,
make directories, and write files and the standard output.
-/

namespace MethodFlow.CommandLine

/-- Why a call fails. -/
inductive SystemError
  | notFound
  | isDirectory
  | notDirectory
  | alreadyThere
  | nameTooLong
  | tooManyLinks
  | noDevice
  | noSpace
  /-- Nobody reads any more what is written. -/
  | brokenPipe
  /-- Any other reason, in the words of the system. -/
  | other (text : String)
  deriving DecidableEq

namespace SystemError

def render : SystemError → String
  | notFound => "No such file or directory"
  | isDirectory => "Is a directory"
  | notDirectory => "Not a directory"
  | alreadyThere => "File exists"
  | nameTooLong => "File name too long"
  | tooManyLinks => "Too many levels of symbolic links"
  | noDevice => "No such device or address"
  | noSpace => "No space left on device"
  | brokenPipe => "Broken pipe"
  | other text => text

/-- Whether a path that cannot be looked at for this reason counts as none of a directory. -/
def isAbsence : SystemError → Bool
  | notFound | notDirectory | tooManyLinks => true
  | _ => false

end SystemError

/-- Why a file cannot be read: it cannot be opened, or its bytes cannot be had then. -/
inductive ReadError
  | unopened (e : SystemError)
  | unread (e : SystemError)

/-- Why a text cannot be printed: the call fails, or the encoding has no bytes for a character. -/
inductive PrintError
  | system (e : SystemError)
  | unencodable (message : String)

/-- The calls to a system, made in a monad `m`; `φ` are the files that may be written. -/
structure System (m : Type → Type) (φ : Type) where
  workingDirectory : m (Except SystemError Path)
  /-- Where a user is at home; the empty name is that of the user at work. -/
  home? (user : String) : m (Option String)
  /-- The bytes of a file. -/
  read (p : Path) : m (Except ReadError (List Nat))
  /-- Where a link leads to; nothing if a path is no link. -/
  link? (p : Path) : m (Option (Except SystemError String))
  /-- Whether what a path leads to is a directory. -/
  isDirectory (p : Path) : m (Except SystemError Bool)
  makeDirectory (p : Path) : m (Except SystemError Unit)
  /-- Opens a file that is to be written: it is emptied, or made if it is not there. -/
  openFile (p : Path) : m (Except SystemError φ)
  write (f : φ) (text : String) : m (Except SystemError Unit)
  close (f : φ) : m (Except SystemError Unit)
  print (text : String) : m (Except PrintError Unit)

end MethodFlow.CommandLine
