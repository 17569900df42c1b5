import Scriptlet.Machine
import Scriptlet.Machine.Fault

/-!
# Actions of the machine

An action changes the state or fails, and a failure keeps **the state it happened in**: values
already taken from the stack are gone, and no frame is unwound. The actions are written on the state
itself; an instruction is a sequence of them.
-/

namespace Scriptlet

/-- An action of the machine. -/
abbrev Exec := EStateM FaultCause State

namespace Exec

/-- Fails if an operation on values did. -/
def ofValue {α : Type} (result : Except ValueError α) : Exec α :=
  match result with
  | .ok a => pure a
  | .error e => throw (.ofValueError e)

/-- Pushes a value, within a limit. -/
def push (limit : Nat) (v : Value) : Exec Unit :=
  fun s ↦
    if s.stack.size < limit then .ok () { s with stack := s.stack.push v }
    else .error (.stackOverflow limit) s

/-- Takes the last value. -/
def pop : Exec Value :=
  fun s ↦ match s.stack.back? with
    | some v => .ok v { s with stack := s.stack.pop }
    | none => .error .stackUnderflow s

/-- Takes the last values, oldest first; takes none if there are too few. -/
def popMany (count : Nat) : Exec (List Value) :=
  fun s ↦
    if count ≤ s.stack.size then
      let rest := s.stack.size - count
      .ok (s.stack.extract rest).toList { s with stack := s.stack.extract 0 rest }
    else .error .stackUnderflow s

/-- The innermost open scope. -/
def scope : Exec ScopeId :=
  fun s ↦ .ok s.frame.scope s

/-- Operates on the arena, and fails if the operation did. -/
def onArena (f : Arena → Except ScopeError Unit × Arena) : Exec Unit :=
  fun s ↦ match f s.arena with
    | (.ok _, arena) => .ok () { s with arena }
    | (.error e, arena) => .error (.ofScopeError e) { s with arena }

/-- Reads a variable. -/
def read (name : String) : Exec Value :=
  fun s ↦ match s.arena.get s.frame.scope name with
    | .ok v => .ok v s
    | .error e => .error (.ofScopeError e) s

/-- Goes on at an offset, which must lie in the code or at its end. -/
def jumpTo (codeSize target : Nat) : Exec Unit :=
  fun s ↦
    if headerSize ≤ target ∧ target ≤ codeSize then .ok () { s with ip := target }
    else .error (.malformed (.jumpOutside target)) s

/-- Opens a block. -/
def enterScope : Exec Unit :=
  fun s ↦
    let (id, arena) := s.arena.push s.frame.scope
    .ok () { s with arena, frame := { s.frame with scope := id } }

/-- Closes the innermost block. The scope of a call is not a block. -/
def exitScope : Exec Unit :=
  fun s ↦
    if s.frame.scope = s.frame.base then .error (.malformed .unmatchedExit) s
    else match s.arena.release s.frame.scope with
      | (some parent, arena) => .ok () { s with arena, frame := { s.frame with scope := parent } }
      | (none, arena) => .error (.malformed .noParent) { s with arena }

/-- Declares parameters in a scope, in order. -/
def bindParams (id : ScopeId) : List String → List Value → Exec Unit
  | p :: ps, v :: vs => do
    onArena fun a ↦ a.declare id p .auto v
    bindParams id ps vs
  | _, _ => pure ()

/-- Goes on with a function. -/
def goTo (f : Function) : Exec Unit :=
  fun s ↦ .ok () { s with ip := f.entry.toNat }

/-- Opens a frame inside the present one. -/
def openFrame (limit : Nat) (f : Function) : Exec ScopeId :=
  fun s ↦
    if s.callers.size + 1 < limit then
      let (id, arena) := s.arena.push s.frame.scope
      .ok id { s with
        arena
        callers := s.callers.push ⟨s.frame, s.ip⟩
        frame := ⟨id, id, f.returns⟩ }
    else .error (.callDepth limit) s

/-- Puts a frame in place of the present one, inside the frame of its caller. Without a caller there
is nothing to replace. -/
def replaceFrame? (f : Function) : Exec (Option ScopeId) :=
  fun s ↦ match s.callers.back? with
    | none => .ok none s
    | some caller =>
      let arena := s.arena.releaseThrough s.frame.scope s.frame.base
      let (id, arena) := arena.push caller.frame.scope
      .ok (some id) { s with arena, frame := ⟨id, id, f.returns⟩ }

/-- Notes a call of a builtin, and gives the calls made before it. -/
def note (c : Call) : Exec (Array Call) :=
  fun s ↦ .ok s.calls { s with calls := s.calls.push c }

/-- Leaves the present frame for its caller, if there is one, and gives what it was. -/
def leaveFrame? : Exec (Option (Frame × Nat)) :=
  fun s ↦ match s.callers.back? with
    | none => .ok none s
    | some caller =>
      .ok (some (s.frame, caller.resume))
        { s with frame := caller.frame, callers := s.callers.pop }

/-- Releases the scopes of a frame that was left, and goes on at an offset. -/
def closeFrame (f : Frame) (resume : Nat) : Exec Unit :=
  fun s ↦ .ok () { s with arena := s.arena.releaseThrough f.scope f.base, ip := resume }

end Exec

end Scriptlet
