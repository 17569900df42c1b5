import Scriptlet.Command.Job

/-!
# Commands in a folder

The folder in which a command runs, as data: its files by their paths. A path is followed name by
name. What lies outside the folder is not known and counts as absent.
-/

namespace Scriptlet

/-- The files below a folder, each under the names that lead to it. -/
structure Folder where
  files : List (List String × Array UInt8)
deriving Repr

/-- What a path leads to. -/
inductive Location where
  | file (path : List String)
  | folder (path : List String)
  /-- A folder that holds this one. -/
  | outside
  /-- Nothing yet, in a folder that exists; a slash behind its name asks for a folder. -/
  | absent (path : List String) (asFolder : Bool)
deriving Repr, DecidableEq

namespace Folder

/-- The content of a file. -/
def find? (f : Folder) (path : List String) : Option (Array UInt8) :=
  (f.files.find? fun e ↦ e.1 == path).map Prod.snd

/-- There is a folder: it holds a file somewhere below it, or is the folder itself. -/
def hasFolder (f : Folder) (path : List String) : Bool :=
  path.isEmpty || f.files.any fun e ↦ path.isPrefixOf e.1 && e.1 != path

/-- Follows one name. -/
def enter (f : Folder) (l : Location) (name : String) : Except FileError Location :=
  match l with
  | .file _ => .error .notFolder
  | .absent path _ => if name.isEmpty then .ok (.absent path true) else .error .notFound
  | .outside => if name == "" || name == "." || name == ".." then .ok .outside else .error .notFound
  | .folder path =>
    if name == "" || name == "." then .ok l
    else if name == ".." then .ok (if path.isEmpty then .outside else .folder path.dropLast)
    else
      let path := path ++ [name]
      if (f.find? path).isSome then .ok (.file path)
      else if f.hasFolder path then .ok (.folder path)
      else .ok (.absent path false)

/-- Follows a path. -/
def locate (f : Folder) (path : String) : Except FileError Location :=
  if path.startsWith "/" then (path.splitOn "/").foldlM f.enter .outside
  else (path.splitOn "/").foldlM f.enter (.folder [])

/-- The content of the file at a path. -/
def read (f : Folder) (path : String) : Except FileError (Array UInt8) := do
  match ← f.locate path with
  | .file path =>
    match f.find? path with
    | some bytes => return bytes
    | none => .error .notFound
  | .absent .. => .error .notFound
  | _ => .error .isFolder

/-- Puts a file in place of another or behind all others. -/
def put (f : Folder) (path : List String) (bytes : Array UInt8) : Folder :=
  if (f.find? path).isSome then
    ⟨f.files.map fun e ↦ if e.1 == path then (path, bytes) else e⟩
  else ⟨f.files ++ [(path, bytes)]⟩

/-- Writes a file at a path. -/
def write (f : Folder) (path : String) (bytes : Array UInt8) : Except FileError Folder := do
  match ← f.locate path with
  | .file path => return f.put path bytes
  | .absent path false => return f.put path bytes
  | _ => .error .isFolder

/-- The files that are new or changed since a former state of the folder. -/
def changedSince (f before : Folder) : List (List String × Array UInt8) :=
  f.files.filter fun e ↦ before.find? e.1 != some e.2

/-- A command is over, or a machine is left to run. -/
inductive Start where
  | done (r : Report) (f : Folder)
  | running (m : Machine)

/-- What a command does up to the run of a machine. -/
def start (f : Folder) (args : List String) : Start :=
  match Invocation.ofArgs? args with
  | none => .done (.ofNoCommand args) f
  | some i =>
    match (f.read i.command.path).mapError Failure.file >>= i.job with
    | .error e => .done (.ofFailure e) f
    | .ok (.run m) => .running m
    | .ok (.write path bytes) =>
      match f.write path bytes with
      | .error e => .done (.ofFailure (.file e)) f
      | .ok f' => .done {} f'

end Folder

end Scriptlet
