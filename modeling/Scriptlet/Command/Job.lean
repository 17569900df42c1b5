import Scriptlet.Command
import Scriptlet.Compile
import Scriptlet.Failure
import Scriptlet.Host.Console
import Scriptlet.Machine.Step

/-!
# What a command does

A command reads **one file**. What is in it decides about the rest: a file to write, or a machine to
run. What is to be seen of it in the end is a report.
-/

namespace Scriptlet

/-- The text in front of the last point of a file name. A point at its very start divides
nothing. -/
def fileStem (name : String) : String :=
  match (name.toList.reverse.dropWhile (· != '.')).drop 1 with
  | [] => name
  | stem => String.ofList stem.reverse

/-- The path at which the image of a source is stored: beside it, and named for it. -/
def imagePath (source : String) : String :=
  match (source.splitOn "/").reverse with
  | name :: folders => "/".intercalate (folders.reverse ++ [fileStem name ++ ".avo"])
  | [] => source

/-- What is left to do when the file has been read. -/
inductive Job where
  | write (path : String) (bytes : Array UInt8)
  | run (m : Machine)

namespace Invocation

/-- The image of a file that holds a source text. -/
def compileFile (bytes : Array UInt8) : Except Failure Image := do
  match Code.ofUtf8? bytes with
  | some source => (compile source).mapError .compile
  | none => .error (.file .notText)

/-- What is to be done with the file's content. -/
def job (i : Invocation) (bytes : Array UInt8) : Except Failure Job :=
  match i.command with
  | .compile source out => do
    let image ← compileFile bytes
    return .write (out.getD (imagePath source)) image.bytes
  | .run _ => do
    let image ← (Image.load bytes).mapError .format
    return .run (.ofImage image Console.table i.limits)
  | .exec _ => do
    let image ← compileFile bytes
    return .run (.ofImage image Console.table i.limits)

end Invocation

/-- What is to be seen of a command. -/
structure Report where
  code : UInt32 := 0
  out : String := ""
  err : String := ""
deriving Repr, DecidableEq

namespace Report

/-- The arguments are not well formed. -/
def usage : Report :=
  { code := 2, err := "usage" }

/-- The answer to a question. -/
def ofInquiry : Inquiry → Report
  | .help => { out := "usage" }
  | .version => { out := "minis 0.1.0\n" }

/-- The report on arguments that are no command. -/
def ofNoCommand (args : List String) : Report :=
  match Inquiry.ofArgs? args with
  | some q => ofInquiry q
  | none => usage

/-- The work failed, and so much had been printed by then. -/
def ofFailure (f : Failure) (out : String := "") : Report :=
  { code := 1, out, err := s!"Error: {f.message}\n" }

end Report

/-- What a machine has printed in a state. -/
def Machine.printed (m : Machine) (s : State) : String :=
  String.join (m.table.shown s.calls.toList)

/-- The report on a run that is over. -/
def Report.ofProgress? (m : Machine) : Machine.Progress → Option Report
  | .running _ => none
  | .ended _ s => some { out := m.printed s }
  | .failed f s => some (.ofFailure (.runtime f) (m.printed s))

end Scriptlet
