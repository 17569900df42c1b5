/-!
# The exact value of a binary float

A float is read off its bits as a sign and an exact magnitude `significand * 2 ^ exponent`. Every
later question about its decimal text, its integer part or its integrality is then one about natural
numbers.
-/

namespace Scriptlet.Decimal

/-- The magnitude of a finite float, `significand * 2 ^ exponent`. -/
structure Binary where
  significand : Nat
  exponent : Int
  /-- The gap to the next value below is **half** the gap to the next value above. -/
  narrowBelow : Bool
deriving Repr, DecidableEq

/-- A float by its bits: not a number, an infinity, or a sign with an exact magnitude. -/
inductive Parts where
  | nan
  | infinite (negative : Bool)
  | finite (negative : Bool) (magnitude : Binary)
deriving Repr, DecidableEq

/-- Reads the sign bit, the eleven exponent bits and the fifty-two fraction bits. -/
def Parts.ofBits (bits : UInt64) : Parts :=
  let negative := bits >>> 63 == 1
  let exponent := ((bits >>> 52) &&& 0x7FF).toNat
  let fraction := (bits &&& 0xFFFFFFFFFFFFF).toNat
  if exponent == 0x7FF then
    if fraction == 0 then .infinite negative else .nan
  else if exponent == 0 then .finite negative ⟨fraction, -1074, false⟩
  else .finite negative
    ⟨0x10000000000000 + fraction, (exponent : Int) - 1075, fraction == 0 && exponent > 1⟩

/-- The parts of a float. -/
def Parts.ofFloat (x : Float) : Parts :=
  .ofBits x.toBits

namespace Binary

/-- The integer part of the magnitude. -/
def floor (b : Binary) : Nat :=
  if 0 ≤ b.exponent then b.significand <<< b.exponent.toNat
  else b.significand >>> (-b.exponent).toNat

/-- The magnitude is an integer. -/
def isIntegral (b : Binary) : Bool :=
  0 ≤ b.exponent ||
    (b.significand >>> (-b.exponent).toNat) <<< (-b.exponent).toNat == b.significand

end Binary

/-- The integer nearest to `n` among the signed 64-bit ones. -/
def clampInt64 (n : Int) : Int64 :=
  if n < Int64.minValue.toInt then .minValue
  else if Int64.maxValue.toInt < n then .maxValue
  else .ofInt n

/-- The integer part of a float, toward zero. A value out of range **saturates**, and what is not a
number counts as zero. -/
def truncate (x : Float) : Int64 :=
  match Parts.ofFloat x with
  | .nan => 0
  | .infinite negative => if negative then .minValue else .maxValue
  | .finite negative magnitude =>
    clampInt64 (if negative then -(magnitude.floor : Int) else magnitude.floor)

end Scriptlet.Decimal
