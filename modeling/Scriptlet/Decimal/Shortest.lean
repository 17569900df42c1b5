import Scriptlet.Decimal.Binary

/-!
# The fewest digits that read back

The decimal chosen for a magnitude is the one with the fewest digits among those that round to it;
among two of that length the nearer, and on an exact tie the upper. The choice is made on naturals:
the reals that round to a magnitude form an interval with its ends halfway to the two neighbours,
and membership in it is a comparison of cross-products.
-/

namespace Scriptlet.Decimal

/-- The decimal `digits * 10 ^ exponent`. -/
structure Digits where
  digits : Nat
  exponent : Int
deriving Repr, DecidableEq

/-- Compares `a * 10 ^ i` with `n * 2 ^ j`, exactly. -/
def compareScaled (a : Nat) (i : Int) (n : Nat) (j : Int) : Ordering :=
  compare ((a * Nat.pow 10 i.toNat) <<< (-j).toNat) ((n <<< j.toNat) * Nat.pow 10 (-i).toNat)

namespace Binary

/-- The decimal lies among the reals that round to the magnitude: the ends of the interval belong to
it exactly when the significand is **even**. -/
def readsBack (b : Binary) (d : Digits) : Bool :=
  let low := if b.narrowBelow then 4 * b.significand - 1 else 4 * b.significand - 2
  let high := 4 * b.significand + 2
  let ends := b.significand % 2 == 0
  let below := compareScaled d.digits d.exponent low (b.exponent - 2)
  let above := compareScaled d.digits d.exponent high (b.exponent - 2)
  (below == .gt || (ends && below == .eq)) && (above == .lt || (ends && above == .eq))

/-- The magnitude as a quotient of naturals. -/
def ratio (b : Binary) : Nat × Nat :=
  (b.significand <<< b.exponent.toNat, 1 <<< (-b.exponent).toNat)

/-- The least number of factors ten, up to a bound, that lifts the quotient to one or more. -/
def liftCount : (bound num den : Nat) → Nat
  | 0, _, _ => 0
  | bound + 1, num, den => if den ≤ num then 0 else liftCount bound (10 * num) den + 1

/-- The least `k` with `magnitude < 10 ^ k`, for a magnitude that is not zero. The bound on the
search exceeds the number of zeros that can follow the point. -/
def scale (b : Binary) : Int :=
  let (num, den) := b.ratio
  if den ≤ num then (Nat.toDigits 10 (num / den)).length
  else 1 - (liftCount 400 num den : Int)

/-- The decimal of the grid `10 ^ exponent` to take for the magnitude, if a point of the grid reads
back: the nearer neighbour that does, the upper one on a tie. -/
def onGrid? (b : Binary) (exponent : Int) : Option Digits :=
  let (num, den) := b.ratio
  let num := num * Nat.pow 10 (-exponent).toNat
  let den := den * Nat.pow 10 exponent.toNat
  let lower : Digits := ⟨num / den, exponent⟩
  let upper : Digits := ⟨num / den + 1, exponent⟩
  match b.readsBack lower, b.readsBack upper with
  | true, true => if 2 * (num % den) < den then some lower else some upper
  | true, false => some lower
  | false, true => some upper
  | false, false => none

/-- The magnitude itself as a decimal: every binary fraction is one. -/
def exactly (b : Binary) : Digits :=
  if 0 ≤ b.exponent then ⟨b.significand <<< b.exponent.toNat, 0⟩
  else ⟨b.significand * Nat.pow 5 (-b.exponent).toNat, b.exponent⟩

/-- The fewest digits that read back. Grids are tried from the coarsest on: first the power of ten
above the magnitude, then with one digit more each time. Seventeen digits are enough, and the exact
value stands for a search that found nothing. -/
def shortest (b : Binary) : Digits :=
  if b.significand == 0 then ⟨0, 0⟩
  else
    let k := b.scale
    ((List.range 18).findSome? fun n ↦ b.onGrid? (k - (n : Nat))).getD b.exactly

end Binary

end Scriptlet.Decimal
