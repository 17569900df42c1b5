import Scriptlet.Value

/-!
# Conversions

Integers, floats and truth values convert into one another; every value has a truth value. A slot
with a declared type stores what `coerce` makes of a value, so such a slot only ever holds values of
its type.
-/

namespace Scriptlet

/-- Why an operation on values has no result. -/
inductive ValueError where
  | conversion (source target : Tag)
  | operands (op : String) (left right : Tag)
  | operand (op : String) (tag : Tag)
  | index (i : Int64) (length : Nat)
deriving Repr, DecidableEq

/-- The text of a failed operation. -/
def ValueError.message : ValueError → String
  | conversion source target => s!"cannot convert {source.text} to {target.text}"
  | operands op left right =>
    s!"unsupported operand types for '{op}': {left.text} and {right.text}"
  | operand op tag => s!"unsupported operand type for '{op}': {tag.text}"
  | index i length => s!"index {i.toInt} out of range for length {length}"

namespace Value

/-- The value takes part in arithmetic. -/
def isNumeric : Value → Bool
  | int _ | float _ | bool _ => true
  | _ => false

/-- The integer of a numeric value: a float loses its fraction and saturates. -/
def toInt64 : Value → Except ValueError Int64
  | int n => .ok n
  | float x => .ok (Decimal.truncate x)
  | bool b => .ok (ofBool b)
  | v => .error (.conversion v.tag .int)

/-- The float of a numeric value. -/
def toFloat : Value → Except ValueError Float
  | int n => .ok n.toFloat
  | float x => .ok x
  | bool b => .ok (if b then 1 else 0)
  | v => .error (.conversion v.tag .float)

/-- The truth of a value. Zero, the empty string, the empty list and null are false; what is not a
number is **true**, since it differs from zero. -/
def isTrue : Value → Bool
  | int n => n != 0
  | float x => x != 0
  | bool b => b
  | str s => !s.isEmpty
  | list items => !items.isEmpty
  | null => false

/-- The string of a string value. -/
def toStr : Value → Except ValueError String
  | str s => .ok s
  | v => .error (.conversion v.tag .str)

/-- What a slot of a declared type stores for a value. -/
def coerce (v : Value) : Tag → Except ValueError Value
  | .auto => .ok v
  | .int => v.toInt64.map .int
  | .float => v.toFloat.map .float
  | .bool => .ok (.bool v.isTrue)
  | t => if v.tag = t then .ok v else .error (.conversion v.tag t)

/-- Coercion to a type other than `auto` gives a value of that type. -/
theorem tag_of_coerce {v w : Value} {t : Tag} (ht : t ≠ .auto) (h : v.coerce t = .ok w) :
    w.tag = t := by
  cases t with
  | auto => exact absurd rfl ht
  | int => cases v <;> simp_all [coerce, toInt64, Except.map] <;> subst h <;> rfl
  | float => cases v <;> simp_all [coerce, toFloat, Except.map] <;> subst h <;> rfl
  | bool => simp only [coerce, Except.ok.injEq] at h; subst h; rfl
  | str | list | null =>
    simp only [coerce] at h
    split at h
    · cases h; assumption
    · cases h

end Value

end Scriptlet
