/-!
# Numbers read from decimal text

Two grammars. An integer is an optional sign and at least one digit, and must fit sixty-four signed
bits. A float is an optional sign and either digits with an optional point and an optional exponent,
or one of the words `inf`, `infinity` and `nan` in any case; a float out of range is infinite or
zero, never refused.
-/

namespace Scriptlet.Decimal

/-- The number that a list of ASCII digits spells, read left to right. -/
def digitsValue (ds : List Char) : Nat :=
  ds.foldl (fun n d ↦ 10 * n + (d.toNat - '0'.toNat)) 0

/-- The float nearest to `m * 10 ^ exponent`. A magnitude beyond every float is decided by its
number of digits, so no power of ten is formed for it. -/
def toFloat (m : Nat) (exponent : Int) : Float :=
  if m == 0 then 0
  else
    let top := (Nat.toDigits 10 m).length + exponent
    if 310 < top then 1 / 0
    else if top < -330 then 0
    else Float.ofScientific m (exponent < 0) exponent.natAbs

/-- An optional sign, and the characters after it. -/
def splitSign : List Char → Bool × List Char
  | '-' :: cs => (true, cs)
  | '+' :: cs => (false, cs)
  | cs => (false, cs)

/-- A signed 64-bit integer in decimal. -/
def readInt64? (cs : List Char) : Option Int64 :=
  let (negative, ds) := splitSign cs
  if ds.isEmpty || !ds.all Char.isDigit then none
  else
    let n : Int := if negative then -(digitsValue ds : Int) else digitsValue ds
    if Int64.minValue.toInt ≤ n && n ≤ Int64.maxValue.toInt then some (.ofInt n) else none

/-- An unsigned number below a bound, in decimal, with an optional plus sign. -/
def readNat? (bound : Nat) (cs : List Char) : Option Nat :=
  let ds := match cs with
    | '+' :: ds => ds
    | ds => ds
  if ds.isEmpty || !ds.all Char.isDigit then none
  else
    let n := digitsValue ds
    if n < bound then some n else none

/-- The exponent at the end of a float: nothing, or the mark `e` and an integer. -/
def readExponent? : List Char → Option Int
  | [] => some 0
  | c :: cs =>
    if c == 'e' || c == 'E' then
      let (negative, ds) := splitSign cs
      if ds.isEmpty || !ds.all Char.isDigit then none
      else some (if negative then -(digitsValue ds : Int) else digitsValue ds)
    else none

/-- An unsigned float: digits around an optional point, **at least one** in all, and perhaps an
exponent. -/
def readMagnitude? (cs : List Char) : Option Float :=
  let whole := cs.takeWhile Char.isDigit
  let (places, rest) := match cs.dropWhile Char.isDigit with
    | '.' :: tail => (tail.takeWhile Char.isDigit, tail.dropWhile Char.isDigit)
    | tail => ([], tail)
  if whole.isEmpty && places.isEmpty then none
  else (readExponent? rest).map fun e ↦
    toFloat (digitsValue (whole ++ places)) (e - places.length)

/-- A float in decimal, or one of the words for an infinity and for what is not a number. -/
def readFloat? (cs : List Char) : Option Float :=
  let (negative, rest) := splitSign cs
  let word := rest.map Char.toLower
  let magnitude? :=
    if word == ['i', 'n', 'f'] || word == ['i', 'n', 'f', 'i', 'n', 'i', 't', 'y'] then
      some (1 / 0)
    else if word == ['n', 'a', 'n'] then some (0 / 0)
    else readMagnitude? rest
  magnitude?.map fun x ↦ if negative then -x else x

end Scriptlet.Decimal
