import Scriptlet.Code.Buffer

/-!
# Images

An image is a finished program in bytes: a header, the code, and a table of functions behind it.

| bytes | content |
|---|---|
| 0 to 8 | the magic |
| 8 to 16 | where the table starts |
| 16 to 24 | the number of functions |
| 24 to 32 | where the program starts |
| 32 on | the code, up to the table |

A function in the table is its name, its entry, three bytes (void, typed, result type), the number
of its parameters and their names. The first function of a compiled image is the program itself.
-/

namespace Scriptlet

/-- What a function gives back. -/
inductive Returns where
  /-- Null, whatever the body computes. -/
  | void
  /-- The value as it is. -/
  | any
  /-- The value coerced to a type. -/
  | typed (type : Tag)
deriving Repr, DecidableEq

/-- An entry of the function table. -/
structure Function where
  name : String
  entry : UInt64
  isVoid : Bool
  isTyped : Bool
  type : Tag
  params : List String
deriving Repr, DecidableEq

namespace Function

/-- The name of the program itself in the table. No call reaches it. -/
def mainName : String := "__main__"

/-- The entry for the program itself. -/
def main : Function :=
  ⟨mainName, headerSize.toUInt64, true, false, .int, []⟩

/-- What a call of the function gives back. A void function is void even if it is also typed. -/
def returns (f : Function) : Returns :=
  if f.isVoid then .void else if f.isTyped then .typed f.type else .any

/-- The table entry of a function. An untyped one has the tag of integers. -/
def ofReturns (name : String) (entry : UInt64) (r : Returns) (params : List String) : Function :=
  match r with
  | .void => ⟨name, entry, true, false, .int, params⟩
  | .any => ⟨name, entry, false, false, .int, params⟩
  | .typed type => ⟨name, entry, false, true, type, params⟩

/-- A flag as a byte. -/
def flag (b : Bool) : UInt8 :=
  if b then 1 else 0

/-- The bytes of a table entry. -/
def encode (f : Function) : List UInt8 :=
  Code.sized f.name ++ Code.word f.entry.toNat
    ++ [flag f.isVoid, flag f.isTyped, f.type.byte]
    ++ Code.word f.params.length ++ f.params.flatMap Code.sized

end Function

/-- A program in bytes, with the parts of its header and its function table. -/
structure Image where
  bytes : Array UInt8
  tableOffset : Nat
  mainEntry : Nat
  functions : List Function
deriving Repr, DecidableEq

namespace Image

/-- Everything before the function table. Instruction offsets are offsets into it. -/
def code (m : Image) : Array UInt8 :=
  m.bytes.extract 0 m.tableOffset

/-- Puts the function table behind a buffer, fills in the header and resolves all jumps. Fails at
the first jump whose label was never bound. -/
def assemble (b : Buffer) (functions : List Function) : Except Label Image :=
  let tableOffset := b.size
  let b := b.append (functions.flatMap Function.encode)
  let b := ((b.patch 8 tableOffset).patch 16 functions.length).patch 24 headerSize
  match b.resolve with
  | (.ok _, b) => .ok ⟨b.bytes, tableOffset, headerSize, functions⟩
  | (.error l, _) => .error l

end Image

end Scriptlet
