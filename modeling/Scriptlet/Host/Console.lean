import Scriptlet.Decimal.Read
import Scriptlet.Host
import Scriptlet.Text.Blank

/-!
# The console

The builtins of the command line: printing with and without a line end, the length of strings and
lists, and conversions. A string converts to a number as a whole, blanks around it aside. None of
them depends on earlier calls.
-/

namespace Scriptlet.Console

/-- The length of a string or a list. -/
def length : List Value → Except String Value
  | .str s :: _ => .ok (.int (.ofNat s.length))
  | .list items :: _ => .ok (.int (.ofNat items.length))
  | v :: _ => .error s!"len() expects a str or list, got {v.tag.text}"
  | [] => .error "len() expects a str or list"

/-- The text of a value. -/
def toStr : List Value → Except String Value
  | v :: _ => .ok (.str v.text)
  | [] => .ok (.str "")

/-- The integer of a value. -/
def toInt : List Value → Except String Value
  | .str s :: _ =>
    match Decimal.readInt64? (Text.trim s.toList) with
    | some n => .ok (.int n)
    | none => .error s!"int() cannot parse '{s}'"
  | v :: _ => (v.toInt64.map Value.int).mapError ValueError.message
  | [] => .ok (.int 0)

/-- The float of a value. -/
def toFloat : List Value → Except String Value
  | .str s :: _ =>
    match Decimal.readFloat? (Text.trim s.toList) with
    | some x => .ok (.float x)
    | none => .error s!"float() cannot parse '{s}'"
  | v :: _ => (v.toFloat.map Value.float).mapError ValueError.message
  | [] => .ok (.float 0)

/-- The table of the command line. -/
def table : Table :=
  .ofList [
    { name := "print", arity := none, answer := fun _ _ ↦ .ok .null,
      shows := fun _ args ↦ some (Value.joined args) },
    { name := "println", arity := none, answer := fun _ _ ↦ .ok .null,
      shows := fun _ args ↦ some (Value.joined args ++ "\n") },
    { name := "len", arity := some 1, answer := fun _ ↦ length },
    { name := "str", arity := some 1, answer := fun _ ↦ toStr },
    { name := "int", arity := some 1, answer := fun _ ↦ toInt },
    { name := "float", arity := some 1, answer := fun _ ↦ toFloat }]

end Scriptlet.Console
