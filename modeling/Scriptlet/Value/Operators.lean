import Scriptlet.Value.Convert

/-!
# Operators

Arithmetic is on floats as soon as one operand is a float, and on wrapping integers otherwise;
division is always on floats. `+` also joins text and lists: a string on either side makes text of
the other operand, a list on either side takes the other operand as an item.

Strings are compared by code point and measured in characters. An index or a bound that is out of
range is refused, never clamped.
-/

namespace Scriptlet.Value

mutual

/-- Equality of values: within a type by content, between numeric types by their floats, and false
between all others. Two floats that are not numbers are **unequal**. -/
def same : Value → Value → Bool
  | int a, int b => a == b
  | int a, float b => a.toFloat == b
  | int a, bool b => a.toFloat == if b then 1 else 0
  | float a, int b => a == b.toFloat
  | float a, float b => a == b
  | float a, bool b => a == if b then 1 else 0
  | bool a, int b => (if a then 1 else 0) == b.toFloat
  | bool a, float b => (if a then 1 else 0) == b
  | bool a, bool b => a == b
  | str a, str b => a == b
  | list a, list b => sameItems a b
  | null, null => true
  | _, _ => false

/-- Equality of lists, item by item. -/
def sameItems : List Value → List Value → Bool
  | [], [] => true
  | v :: vs, w :: ws => same v w && sameItems vs ws
  | _, _ => false

end

/-- An operand is a float. -/
def isFloat : Value → Bool
  | float _ => true
  | _ => false

/-- Arithmetic on two numeric values, in floats if either is one. -/
def arithmetic (op : String) (onInts : Int64 → Int64 → Int64) (onFloats : Float → Float → Float)
    (a b : Value) : Except ValueError Value :=
  if a.isNumeric && b.isNumeric then
    if a.isFloat || b.isFloat then do
      return float (onFloats (← a.toFloat) (← b.toFloat))
    else do
      return int (onInts (← a.toInt64) (← b.toInt64))
  else .error (.operands op a.tag b.tag)

/-- The sum of two numbers, or the join of text or of lists. -/
def add (a b : Value) : Except ValueError Value :=
  match a, b with
  | str s, b => .ok (str (s ++ b.text))
  | a, str t => .ok (str (a.text ++ t))
  | list xs, list ys => .ok (list (xs ++ ys))
  | list xs, b => .ok (list (xs ++ [b]))
  | a, list ys => .ok (list (a :: ys))
  | a, b => arithmetic "+" (· + ·) (· + ·) a b

/-- The difference of two numbers. -/
def subtract : Value → Value → Except ValueError Value :=
  arithmetic "-" (· - ·) (· - ·)

/-- The product of two numbers. -/
def multiply : Value → Value → Except ValueError Value :=
  arithmetic "*" (· * ·) (· * ·)

/-- The quotient of two numbers as a float; division by zero gives an infinity or no number. -/
def divide (a b : Value) : Except ValueError Value :=
  if a.isNumeric && b.isNumeric then do
    return float ((← a.toFloat) / (← b.toFloat))
  else .error (.operands "/" a.tag b.tag)

/-- The four orders on strings and numbers. -/
inductive Order where
  | less | lessEqual | greater | greaterEqual
deriving Repr, DecidableEq

namespace Order

/-- The order as it is written. -/
def symbol : Order → String
  | less => "<" | lessEqual => "<=" | greater => ">" | greaterEqual => ">="

/-- The order of two strings, by code point. -/
def onStrings : Order → String → String → Bool
  | less, s, t => s < t
  | lessEqual, s, t => !(t < s)
  | greater, s, t => t < s
  | greaterEqual, s, t => !(s < t)

/-- The order of two floats. What is not a number is in no order with anything. -/
def onFloats : Order → Float → Float → Bool
  | less, x, y => x < y
  | lessEqual, x, y => x ≤ y
  | greater, x, y => y < x
  | greaterEqual, x, y => y ≤ x

end Order

/-- Compares two strings, or two numbers by their floats. -/
def compare (o : Order) (a b : Value) : Except ValueError Bool :=
  match a, b with
  | str s, str t => .ok (o.onStrings s t)
  | a, b =>
    if a.isNumeric && b.isNumeric then do
      return o.onFloats (← a.toFloat) (← b.toFloat)
    else .error (.operands o.symbol a.tag b.tag)

/-- The negative of a number; that of a truth value is an integer. -/
def negate : Value → Except ValueError Value
  | int n => .ok (int (-n))
  | float x => .ok (float (-x))
  | bool b => .ok (int (-ofBool b))
  | v => .error (.operand "-" v.tag)

/-- The opposite truth value. -/
def not (v : Value) : Value :=
  bool !v.isTrue

/-! ### Items and stretches -/

/-- The place that an index names among `length` items. -/
def place (i : Value) (length : Nat) : Except ValueError Nat := do
  let n ← i.toInt64
  if n.toInt < 0 ∨ (length : Int) ≤ n.toInt then .error (.index n length)
  else .ok n.toInt.toNat

/-- The two places that the bounds of a stretch name among `length` items. Both bounds are converted
before either is checked, and the first is checked first. -/
def places (start stop : Value) (length : Nat) : Except ValueError (Nat × Nat) := do
  let i ← start.toInt64
  let j ← stop.toInt64
  if i.toInt < 0 ∨ (length : Int) < i.toInt then .error (.index i length)
  else if j.toInt < i.toInt ∨ (length : Int) < j.toInt then .error (.index j length)
  else .ok (i.toInt.toNat, j.toInt.toNat)

/-- An item of a list, or a character of a string as a string. -/
def index (container i : Value) : Except ValueError Value :=
  match container with
  | list items => do
    let k ← place i items.length
    return items.getD k null
  | str s => do
    let k ← place i s.toList.length
    return str (String.ofList ((s.toList.drop k).take 1))
  | v => .error (.operand "[]" v.tag)

/-- A stretch of a list or of a string, without its upper end. -/
def slice (container start stop : Value) : Except ValueError Value :=
  match container with
  | list items => do
    let (i, j) ← places start stop items.length
    return list ((items.drop i).take (j - i))
  | str s => do
    let (i, j) ← places start stop s.toList.length
    return str (String.ofList ((s.toList.drop i).take (j - i)))
  | v => .error (.operand "[:]" v.tag)

/-- A list with one item replaced. Only lists have items that can be. -/
def setIndex (container i item : Value) : Except ValueError Value :=
  match container with
  | list items => do
    let k ← place i items.length
    return list (items.set k item)
  | v => .error (.operand "[]=" v.tag)

end Scriptlet.Value
