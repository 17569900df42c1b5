import Scriptlet.Decimal.Shortest

/-!
# The text of a float

Floats are always written positionally, never with an exponent. Two texts are in use: the bare one
has the fewest digits that read back and no point for an integral value; the marked one writes an
integral value with all its digits and `.0`, so that it is never mistaken for an integer.
-/

namespace Scriptlet.Decimal

/-- A decimal laid out positionally, with zeros up to the point on either side of it. -/
def Digits.plain (d : Digits) : String :=
  let ds := Nat.toDigits 10 d.digits
  if 0 ≤ d.exponent then
    String.ofList (ds ++ List.replicate d.exponent.toNat '0')
  else
    let places := (-d.exponent).toNat
    if places < ds.length then
      String.ofList (ds.take (ds.length - places) ++ '.' :: ds.drop (ds.length - places))
    else
      String.ofList ('0' :: '.' :: List.replicate (places - ds.length) '0' ++ ds)

/-- A minus sign before a negative text. A negative zero keeps its sign. -/
def signed (negative : Bool) (text : String) : String :=
  if negative then "-" ++ text else text

/-- The bare text: the fewest digits that read back, `1` for one. -/
def bareText (x : Float) : String :=
  match Parts.ofFloat x with
  | .nan => "NaN"
  | .infinite negative => signed negative "inf"
  | .finite negative magnitude => signed negative magnitude.shortest.plain

/-- The marked text: an integral value exactly and with `.0`, any other as in the bare text. -/
def markedText (x : Float) : String :=
  match Parts.ofFloat x with
  | .finite negative magnitude =>
    if magnitude.isIntegral then signed negative (toString magnitude.floor ++ ".0")
    else bareText x
  | _ => bareText x

end Scriptlet.Decimal
