import Scriptlet.Command.Job

/-!
# The program

Reads the file that the command names, does the job, and prints as the run goes on.
-/

namespace Scriptlet.Main

/-- The reason for which the system refused a file. -/
def fileError : IO.Error → FileError
  | .noFileOrDirectory .. => .notFound
  | .inappropriateType _ code _ => if code = 21 then .isFolder else .notFolder
  | .permissionDenied _ code details | .resourceExhausted _ code details
  | .invalidArgument _ code details => .other s!"{details} (os error {code})"
  | .otherError code details => .other s!"{details} (os error {code})"
  | e => .other (toString e)

/-- Prints a report, and gives its exit code. -/
def finish (r : Report) : IO UInt32 := do
  (← IO.getStdout).putStr r.out
  (← IO.getStdout).flush
  (← IO.getStderr).putStr r.err
  return r.code

/-- Runs a machine to its end. What is printed leaves at once, and no builtin of the console depends
on earlier calls, so these are forgotten. -/
partial def run (m : Machine) (s : State) : IO UInt32 := do
  match m.runFor 1024 s with
  | .running s' =>
    (← IO.getStdout).putStr (m.printed s')
    run m { s' with calls := #[] }
  | .ended _ s' => finish { out := m.printed s' }
  | .failed f s' => finish (.ofFailure (.runtime f) (m.printed s'))

/-- Does a job. -/
def perform : Job → IO UInt32
  | .run m => run m m.start
  | .write path bytes => do
    match ← (IO.FS.writeBinFile path ⟨bytes⟩).toBaseIO with
    | .ok _ => finish {}
    | .error e => finish (.ofFailure (.file (fileError e)))

/-- Does what the arguments ask for. -/
def command (args : List String) : IO UInt32 := do
  match Invocation.ofArgs? args with
  | none => finish (.ofNoCommand args)
  | some i =>
    match ← (IO.FS.readBinFile i.command.path).toBaseIO with
    | .error e => finish (.ofFailure (.file (fileError e)))
    | .ok bytes =>
      match i.job bytes.data with
      | .error f => finish (.ofFailure f)
      | .ok job => perform job

end Scriptlet.Main

/-- The command line. -/
def main (args : List String) : IO UInt32 :=
  Scriptlet.Main.command args
