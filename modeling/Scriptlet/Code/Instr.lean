import Scriptlet.Code.Opcode
import Scriptlet.Code.Word
import Scriptlet.Value.Operators

/-!
# Instructions

An instruction is an operation with its operands. In code it is the byte of its operation and then
the operands: words, texts behind their length, a single byte for a truth value or a type.

Decoding reads **all** operands before anything is done with them, and fails without a trace: code
that ends inside an operand, bytes that are no text, and unknown operations and types are told
apart. Lengths are compared as naturals, so no length however large wraps around.
-/

namespace Scriptlet

/-- The operators on two operands, all of which are evaluated. -/
inductive BinaryOp where
  | add | subtract | multiply | divide
  | equal | notEqual
  | compare (o : Value.Order)
  | and | or
deriving Repr, DecidableEq

namespace BinaryOp

/-- The operation that applies an operator. -/
def opcode : BinaryOp → Opcode
  | add => .add | subtract => .subtract | multiply => .multiply | divide => .divide
  | equal => .equal | notEqual => .notEqual
  | compare .less => .less | compare .lessEqual => .lessEqual
  | compare .greater => .greater | compare .greaterEqual => .greaterEqual
  | and => .and | or => .or

/-- The value of an operator at two operands. -/
def apply : BinaryOp → Value → Value → Except ValueError Value
  | add, a, b => a.add b
  | subtract, a, b => a.subtract b
  | multiply, a, b => a.multiply b
  | divide, a, b => a.divide b
  | equal, a, b => .ok (.bool (a.same b))
  | notEqual, a, b => .ok (.bool !(a.same b))
  | compare o, a, b => (Value.compare o a b).map .bool
  | and, a, b => .ok (.bool (a.isTrue && b.isTrue))
  | or, a, b => .ok (.bool (a.isTrue || b.isTrue))

end BinaryOp

/-- The operators on one operand. -/
inductive UnaryOp where
  | negate | not
deriving Repr, DecidableEq

namespace UnaryOp

/-- The operation that applies an operator. -/
def opcode : UnaryOp → Opcode
  | negate => .negate | not => .not

/-- The value of an operator at an operand. -/
def apply : UnaryOp → Value → Except ValueError Value
  | negate, v => v.negate
  | not, v => .ok v.not

end UnaryOp

/-- An operation with its operands. -/
inductive Instr where
  | pushInt (n : Int64)
  | pushFloat (x : Float)
  | pushBool (b : Bool)
  | pushStr (s : String)
  | pushNull
  | makeList (count : Nat)
  | get (name : String)
  | set (name : String)
  | decl (name : String) (type : Tag)
  | unset (name : String)
  | pop
  | binary (op : BinaryOp)
  | unary (op : UnaryOp)
  | index
  | slice
  | setIndex (name : String)
  | jump (target : Nat)
  | jumpIfFalse (target : Nat)
  | call (name : String) (count : Nat)
  | tailCall (name : String) (count : Nat)
  | ret
  | retVoid
  | enterScope
  | exitScope
  | halt
deriving Repr

/-- Why bytes are no instruction. -/
inductive DecodeError where
  | unknownOpcode (byte : UInt8)
  | truncated
  | notText
  | unknownTag (byte : UInt8)
deriving Repr, DecidableEq

namespace Instr

/-- The operation of an instruction. -/
def opcode : Instr → Opcode
  | pushInt _ => .pushInt | pushFloat _ => .pushFloat | pushBool _ => .pushBool
  | pushStr _ => .pushStr | pushNull => .pushNull | makeList _ => .makeList
  | get _ => .get | set _ => .set | decl _ _ => .decl | unset _ => .unset | pop => .pop
  | binary op => op.opcode | unary op => op.opcode
  | index => .index | slice => .slice | setIndex _ => .setIndex
  | jump _ => .jump | jumpIfFalse _ => .jumpIfFalse
  | call _ _ => .call | tailCall _ _ => .tailCall | ret => .ret | retVoid => .retVoid
  | enterScope => .enterScope | exitScope => .exitScope | halt => .halt

/-- The bytes of the operands of an instruction. -/
def operands : Instr → List UInt8
  | pushInt n => Code.word n.toUInt64.toNat
  | pushFloat x => Code.word x.toBits.toNat
  | pushBool b => [if b then 1 else 0]
  | pushStr s => Code.sized s
  | makeList count => Code.word count
  | get name | set name | unset name | setIndex name => Code.sized name
  | decl name type => Code.sized name ++ [type.byte]
  | jump target | jumpIfFalse target => Code.word target
  | call name count | tailCall name count => Code.sized name ++ Code.word count
  | pushNull | pop | binary _ | unary _ | index | slice | ret | retVoid | enterScope | exitScope
  | halt => []

/-- The bytes of an instruction. -/
def encode (i : Instr) : List UInt8 :=
  i.opcode.byte :: i.operands

end Instr

/-! ### Operands -/

namespace Code

/-- The number in `k` bytes from an offset on; a byte past the end counts as zero. -/
def leAt (code : Array UInt8) : (offset k : Nat) → Nat
  | _, 0 => 0
  | offset, k + 1 => (code.getD offset 0).toNat + 256 * leAt code (offset + 1) k

/-- A single byte, and the offset after it. -/
def byteAt (code : Array UInt8) (offset : Nat) : Except DecodeError (UInt8 × Nat) :=
  if offset + 1 ≤ code.size then .ok (code.getD offset 0, offset + 1) else .error .truncated

/-- A word, and the offset after it. -/
def wordAt (code : Array UInt8) (offset : Nat) : Except DecodeError (Nat × Nat) :=
  if offset + 8 ≤ code.size then .ok (leAt code offset 8, offset + 8) else .error .truncated

/-- A text behind the number of its bytes, and the offset after it. -/
def textAt (code : Array UInt8) (offset : Nat) : Except DecodeError (String × Nat) := do
  let (length, offset) ← wordAt code offset
  if offset + length ≤ code.size then
    match ofUtf8? (code.extract offset (offset + length)) with
    | some s => .ok (s, offset + length)
    | none => .error .notText
  else .error .truncated

end Code

/-! ### Decoding -/

namespace Instr

open Code

/-- The operands of an operation, read from an offset on, and the offset after them. -/
def decodeOperands (code : Array UInt8) (offset : Nat) :
    Opcode → Except DecodeError (Instr × Nat)
  | .pushInt => do
    let (n, next) ← wordAt code offset
    return (pushInt (UInt64.ofNat n).toInt64, next)
  | .pushFloat => do
    let (n, next) ← wordAt code offset
    return (pushFloat (.ofBits (.ofNat n)), next)
  | .pushBool => do
    let (b, next) ← byteAt code offset
    return (pushBool (b != 0), next)
  | .pushStr => do
    let (s, next) ← textAt code offset
    return (pushStr s, next)
  | .pushNull => .ok (pushNull, offset)
  | .makeList => do
    let (n, next) ← wordAt code offset
    return (makeList n, next)
  | .get => do
    let (name, next) ← textAt code offset
    return (get name, next)
  | .set => do
    let (name, next) ← textAt code offset
    return (set name, next)
  | .decl => do
    let (name, next) ← textAt code offset
    let (byte, next) ← byteAt code next
    match Tag.ofByte? byte with
    | some type => .ok (decl name type, next)
    | none => .error (.unknownTag byte)
  | .unset => do
    let (name, next) ← textAt code offset
    return (unset name, next)
  | .pop => .ok (pop, offset)
  | .add => .ok (binary .add, offset)
  | .subtract => .ok (binary .subtract, offset)
  | .multiply => .ok (binary .multiply, offset)
  | .divide => .ok (binary .divide, offset)
  | .negate => .ok (unary .negate, offset)
  | .not => .ok (unary .not, offset)
  | .equal => .ok (binary .equal, offset)
  | .notEqual => .ok (binary .notEqual, offset)
  | .less => .ok (binary (.compare .less), offset)
  | .lessEqual => .ok (binary (.compare .lessEqual), offset)
  | .greater => .ok (binary (.compare .greater), offset)
  | .greaterEqual => .ok (binary (.compare .greaterEqual), offset)
  | .and => .ok (binary .and, offset)
  | .or => .ok (binary .or, offset)
  | .index => .ok (index, offset)
  | .slice => .ok (slice, offset)
  | .setIndex => do
    let (name, next) ← textAt code offset
    return (setIndex name, next)
  | .jump => do
    let (target, next) ← wordAt code offset
    return (jump target, next)
  | .jumpIfFalse => do
    let (target, next) ← wordAt code offset
    return (jumpIfFalse target, next)
  | .call => do
    let (name, next) ← textAt code offset
    let (count, next) ← wordAt code next
    return (call name count, next)
  | .tailCall => do
    let (name, next) ← textAt code offset
    let (count, next) ← wordAt code next
    return (tailCall name count, next)
  | .ret => .ok (ret, offset)
  | .retVoid => .ok (retVoid, offset)
  | .enterScope => .ok (enterScope, offset)
  | .exitScope => .ok (exitScope, offset)
  | .halt => .ok (halt, offset)

/-- The instruction at an offset, and the offset after it. -/
def decode (code : Array UInt8) (offset : Nat) : Except DecodeError (Instr × Nat) := do
  let (byte, next) ← byteAt code offset
  match Opcode.ofByte? byte with
  | some op => decodeOperands code next op
  | none => .error (.unknownOpcode byte)

end Instr

end Scriptlet
