import Scriptlet.Code.Instr
import Scriptlet.Scope

/-!
# Faults

What can go wrong with an instruction, as causes. A fault is a cause with the offset of the
instruction that failed.
-/

namespace Scriptlet

/-- Code that no compiler writes. Four faults have no cause here, since nothing can bring them
about: a block closed without a frame, a return to a caller without an offset (a `State` has
neither), an entry of a function and a number of operands beyond the range of offsets (both are
64-bit words, as offsets are). -/
inductive Malformed where
  | decode (e : DecodeError)
  | jumpOutside (target : Nat)
  | unmatchedExit
  | noParent
deriving Repr, DecidableEq

/-- Why an instruction fails. -/
inductive FaultCause where
  | unknownVariable (name : String)
  | unknownFunction (name : String)
  | alreadyDeclared (name : String)
  | typeMismatch (e : ValueError)
  | index (i : Int64) (length : Nat)
  | arity (name : String) (expected got : Nat)
  | stackUnderflow
  | stackOverflow (limit : Nat)
  | callDepth (limit : Nat)
  | builtin (name message : String)
  | malformed (m : Malformed)
deriving Repr, DecidableEq

/-- A cause with the offset of the instruction that failed. -/
structure Fault where
  cause : FaultCause
  offset : Nat
deriving Repr, DecidableEq

namespace FaultCause

/-- The cause that a failed operation on values is. -/
def ofValueError : ValueError → FaultCause
  | .index i length => .index i length
  | e => .typeMismatch e

/-- The cause that a failed access to a variable is. -/
def ofScopeError : ScopeError → FaultCause
  | .unknown name => .unknownVariable name
  | .alreadyDeclared name => .alreadyDeclared name
  | .value e => ofValueError e

/-- The cause concerns a name: unknown, or declared twice. -/
def isNameError : FaultCause → Bool
  | unknownVariable _ | unknownFunction _ | alreadyDeclared _ => true
  | _ => false

end FaultCause

/-- The text of malformed code. -/
def Malformed.text : Malformed → String
  | decode (.unknownOpcode b) =>
    let ds := Nat.toDigits 16 b.toNat
    let digits := String.ofList (List.replicate (2 - ds.length) '0' ++ ds.map Char.toUpper)
    s!"unknown opcode 0x{digits}"
  | decode .truncated => "truncated operand"
  | decode .notText => "name is not UTF-8"
  | decode (.unknownTag b) => s!"unknown type tag {b.toNat}"
  | jumpOutside target => s!"jump target {target} outside the code region"
  | unmatchedExit => "scope exit without a matching enter"
  | noParent => "scope has no parent"

/-- The text of a cause. -/
def FaultCause.text : FaultCause → String
  | unknownVariable name => s!"Unknown variable '{name}'"
  | unknownFunction name => s!"Unknown function '{name}'"
  | alreadyDeclared name => s!"Variable '{name}' is already declared in this scope"
  | typeMismatch e => s!"Type mismatch: {e.message}"
  | index i length => s!"Index {i.toInt} out of range for length {length}"
  | arity name expected got => s!"Function '{name}' expects {expected} arguments, got {got}"
  | stackUnderflow => "Stack underflow"
  | stackOverflow limit => s!"Stack overflow (limit {limit})"
  | callDepth limit => s!"Call depth exceeded (limit {limit})"
  | builtin name message => s!"Builtin '{name}' failed: {message}"
  | malformed m => s!"Malformed code: {m.text}"

/-- The text of a fault. -/
def Fault.message (f : Fault) : String :=
  s!"{f.cause.text} at offset {f.offset}"

end Scriptlet
