import Scriptlet.Host
import Scriptlet.Image
import Scriptlet.Scope.Arena

/-!
# The machine

A machine is code with its functions, a host and limits; a state is what changes while it runs. The
frame of the call in progress stands apart from those of its callers, so there always is one, and a
caller is kept together with the offset at which it goes on. Two checks that a machine with one
stack of frames would have to make are therefore not made: that there is a frame when a block is
opened or closed, and that a frame below the first has an offset to go back to.

The names of variables are looked up in the scope of the frame and outward from it, and a call opens
its scope inside that of its caller: a function sees the variables of whoever called it.
-/

namespace Scriptlet

/-- How much a run may use. -/
structure Limits where
  /-- The number of frames, that of the program itself included. -/
  maxFrames : Nat := 4096
  /-- The number of values on the stack. -/
  maxStack : Nat := 65536
deriving Repr, DecidableEq

/-- What runs, and on what terms. -/
structure Machine where
  code : Array UInt8
  entry : Nat
  functions : List Function
  table : Table
  limits : Limits

/-- A call in progress. -/
structure Frame where
  /-- The scope of the call, which binds its parameters. -/
  base : ScopeId
  /-- The innermost open block of the call. -/
  scope : ScopeId
  returns : Returns
deriving Repr, DecidableEq

/-- A call that waits for another, and where it goes on. -/
structure Caller where
  frame : Frame
  resume : Nat
deriving Repr, DecidableEq

/-- What changes while a machine runs. There is no state without a frame, and none in which a caller
has nowhere to go on. -/
structure State where
  /-- The offset of the next instruction. -/
  ip : Nat
  stack : Array Value
  frame : Frame
  callers : Array Caller
  arena : Arena
  /-- The calls of builtins made so far. -/
  calls : Array Call
deriving Repr

/-- How a run ends without a fault. -/
inductive Termination where
  | halt | endOfCode | returned
deriving Repr, DecidableEq

namespace Machine

/-- The machine that runs an image. -/
def ofImage (image : Image) (table : Table) (limits : Limits) : Machine :=
  ⟨image.code, image.mainEntry, image.functions, table, limits⟩

/-- The function of a name that a program can call. -/
def find? (m : Machine) (name : String) : Option Function :=
  m.functions.find? fun f ↦ f.name == name && f.name != Function.mainName

/-- The state before the first instruction. -/
def start (m : Machine) : State where
  ip := m.entry
  stack := #[]
  frame := ⟨Arena.global, Arena.global, .void⟩
  callers := #[]
  arena := .new
  calls := #[]

end Machine

namespace State

/-- The number of calls in progress, the program itself included. -/
def frameDepth (s : State) : Nat :=
  s.callers.size + 1

/-- The number of scopes. -/
def liveScopes (s : State) : Nat :=
  s.arena.live

/-- The global variables in order of declaration. -/
def globals (s : State) : List (String × Value) :=
  s.arena.snapshot Arena.global

end State

end Scriptlet
