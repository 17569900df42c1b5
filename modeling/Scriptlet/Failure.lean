import Scriptlet.Image.Load
import Scriptlet.Machine.Fault
import Scriptlet.Tree.Complaint

/-!
# Failures

Whatever can end the work on a program: its text is refused, its image is refused, its run ends in a
fault, or a file cannot be used.
-/

namespace Scriptlet

/-- Why a file cannot be used. -/
inductive FileError where
  | notFound
  | isFolder
  | notFolder
  | notText
  /-- Any other reason, in the words of the system. -/
  | other (message : String)
deriving Repr, DecidableEq

/-- The text of the reason. -/
def FileError.message : FileError → String
  | notFound => "No such file or directory (os error 2)"
  | isFolder => "Is a directory (os error 21)"
  | notFolder => "Not a directory (os error 20)"
  | notText => "stream did not contain valid UTF-8"
  | other message => message

/-- What ended the work on a program. -/
inductive Failure where
  | compile (c : Complaint)
  | format (e : FormatError)
  | runtime (f : Fault)
  | file (e : FileError)
deriving Repr

/-- The text of a failure. -/
def Failure.message : Failure → String
  | compile c => s!"Compile error: {c.message}"
  | format e => s!"Format error: {e.message}"
  | runtime f => s!"Runtime error: {f.message}"
  | file e => s!"IO error: {e.message}"

end Scriptlet
