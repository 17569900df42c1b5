import Scriptlet.Decimal.Layout

/-!
# Values

The six kinds of value that a program computes with, and the tags that name them in declarations and
in code. A tag is one byte; `auto` is the tag of a slot that takes any value, and the tag of none.
-/

namespace Scriptlet

/-- The type of a value, or the declared type of a slot. -/
inductive Tag where
  | int | float | bool | str | list | null
  /-- The declared type of a slot that takes any value as it is. -/
  | auto
deriving Repr, DecidableEq

namespace Tag

/-- The byte of a tag in code and in function tables. -/
def byte : Tag → UInt8
  | int => 0 | float => 1 | bool => 2 | str => 3 | list => 4 | null => 5 | auto => 0xFF

/-- The tag of a byte, if it is one. -/
def ofByte? : UInt8 → Option Tag
  | 0 => some int | 1 => some float | 2 => some bool | 3 => some str | 4 => some list
  | 5 => some null | 0xFF => some auto
  | _ => none

/-- The name of a tag in source text and in messages. -/
def text : Tag → String
  | int => "int" | float => "float" | bool => "bool" | str => "str" | list => "list"
  | null => "null" | auto => "auto"

@[simp]
theorem ofByte?_byte (t : Tag) : ofByte? t.byte = some t := by
  cases t <;> rfl

end Tag

/-- A value. Integers are 64-bit and **wrap**; strings are sequences of Unicode characters. -/
inductive Value where
  | int (n : Int64)
  | float (x : Float)
  | bool (b : Bool)
  | str (s : String)
  | list (items : List Value)
  | null
deriving Repr

namespace Value

/-- The tag of a value, which is never `auto`. -/
def tag : Value → Tag
  | int _ => .int | float _ => .float | bool _ => .bool | str _ => .str | list _ => .list
  | null => .null

/-- The number a truth value counts as. -/
def ofBool (b : Bool) : Int64 :=
  if b then 1 else 0

mutual

/-- The text of a value: a string as it is, a list between brackets, a float always with a point. -/
def text : Value → String
  | int n => toString n.toInt
  | float x => Decimal.markedText x
  | bool b => if b then "true" else "false"
  | str s => s
  | list items => "[" ++ textItems items ++ "]"
  | null => "null"

/-- The texts of the items of a list, with a comma and a blank between two. -/
def textItems : List Value → String
  | [] => ""
  | [v] => text v
  | v :: w :: vs => text v ++ ", " ++ textItems (w :: vs)

end

/-- The texts of some values with one blank between two. -/
def joined (vs : List Value) : String :=
  " ".intercalate (vs.map text)

end Value

/-- The value of a slot declared without an initial one. -/
def Tag.default : Tag → Value
  | int => .int 0
  | float => .float 0
  | bool => .bool false
  | str => .str ""
  | list => .list []
  | null | auto => .null

end Scriptlet
