/-!
# Opcodes

The one-byte operation codes. Which operands follow each of them is said by the instructions, not
here.
-/

namespace Scriptlet

/-- The operations of the machine. -/
inductive Opcode where
  | pushInt | pushFloat | pushBool | pushStr | pushNull | makeList
  | get | set | decl | unset | pop
  | add | subtract | multiply | divide | negate | not
  | equal | notEqual | less | lessEqual | greater | greaterEqual | and | or
  | index | slice | setIndex
  | jump | jumpIfFalse
  | call | tailCall | ret | retVoid
  | enterScope | exitScope
  | halt
deriving Repr, DecidableEq

namespace Opcode

/-- The byte of an operation. -/
def byte : Opcode → UInt8
  | pushInt => 0x01 | pushFloat => 0x02 | pushBool => 0x03 | pushStr => 0x04 | pushNull => 0x05
  | makeList => 0x06 | get => 0x07 | set => 0x08 | decl => 0x09 | unset => 0x0A | pop => 0x0B
  | add => 0x10 | subtract => 0x11 | multiply => 0x12 | divide => 0x13 | negate => 0x14
  | not => 0x15 | equal => 0x16 | notEqual => 0x17 | less => 0x18 | lessEqual => 0x19
  | greater => 0x1A | greaterEqual => 0x1B | and => 0x1C | or => 0x1D
  | index => 0x20 | slice => 0x21 | setIndex => 0x22
  | jump => 0x30 | jumpIfFalse => 0x31
  | call => 0x38 | tailCall => 0x39 | ret => 0x3A | retVoid => 0x3B
  | enterScope => 0x40 | exitScope => 0x41
  | halt => 0xFF

/-- The operation of a byte, if it is one. -/
def ofByte? : UInt8 → Option Opcode
  | 0x01 => some pushInt | 0x02 => some pushFloat | 0x03 => some pushBool | 0x04 => some pushStr
  | 0x05 => some pushNull | 0x06 => some makeList | 0x07 => some get | 0x08 => some set
  | 0x09 => some decl | 0x0A => some unset | 0x0B => some pop
  | 0x10 => some add | 0x11 => some subtract | 0x12 => some multiply | 0x13 => some divide
  | 0x14 => some negate | 0x15 => some not | 0x16 => some equal | 0x17 => some notEqual
  | 0x18 => some less | 0x19 => some lessEqual | 0x1A => some greater | 0x1B => some greaterEqual
  | 0x1C => some and | 0x1D => some or
  | 0x20 => some index | 0x21 => some slice | 0x22 => some setIndex
  | 0x30 => some jump | 0x31 => some jumpIfFalse
  | 0x38 => some call | 0x39 => some tailCall | 0x3A => some ret | 0x3B => some retVoid
  | 0x40 => some enterScope | 0x41 => some exitScope
  | 0xFF => some halt
  | _ => none

@[simp]
theorem ofByte?_byte (op : Opcode) : ofByte? op.byte = some op := by
  cases op <;> rfl

end Opcode

end Scriptlet
