/-!
# Scaling a significand by a power of ten

A decimal is read as an integer significand and a power of ten. The significand is converted
first and then multiplied or divided by the power, with one rounding for each step, so the result
may differ from the nearest number in its last digit.
-/

namespace SchemaGrammar

namespace Decimal

/-- The largest exponent whose power of ten is a finite number. -/
def maxPower : Nat := 308

/-- The finite number nearest to `10 ^ k`, for `k` up to `maxPower`. -/
def powerOfTen (k : Nat) : Float := Float.ofScientific 1 false k

/-- Divides by `10 ^ k`, in steps of the largest power at most; a zero stays zero. -/
def divideByPower (x : Float) (k : Nat) : Float :=
  if k ≤ maxPower then x / powerOfTen k
  else if x == 0.0 then x
  else divideByPower (x / powerOfTen maxPower) (k - maxPower)
termination_by k
decreasing_by simp [maxPower] at *; omega

/-- `significand · 10 ^ exponent`, or nothing when that is too large for a finite number. -/
def scale? (significand : Nat) (exponent : Int) : Option Float :=
  let x := significand.toUInt64.toFloat
  if exponent < 0 then some (divideByPower x exponent.natAbs)
  else if exponent.natAbs ≤ maxPower then
    let product := x * powerOfTen exponent.natAbs
    if product.isInf then none else some product
  else if x == 0.0 then some x
  else none

end Decimal

end SchemaGrammar
