import Columnar.Decimal.Rounding
import Columnar.Double.Basic

namespace Columnar.Double

/-!
The double nearest to an exact quotient.

`ofQuotient` rounds to the nearest double, a half to the even significand; magnitudes that round
past the largest finite double become infinite.
-/

/-- The largest power of two that does not exceed a positive quotient. -/
def binaryExponent (numerator denominator : Nat) : Int :=
  let guess : Int := (Nat.log2 numerator : Int) - Nat.log2 denominator
  let reached := denominator <<< guess.toNat ≤ numerator <<< (-guess).toNat
  if reached then guess else guess - 1

/-- The double nearest to `numerator / denominator`, with the given sign.

With `m` units of `2 ^ q`, where `q` is at least -1074, the lower 63 bits of the result are
`(q + 1074) * hiddenBit + m`, also when rounding has carried `m` up to `2 * hiddenBit`. -/
def ofQuotient (negative : Bool) (numerator denominator : Nat) : Double :=
  if numerator = 0 then ofParts negative 0
  else
    let unit : Int := max (binaryExponent numerator denominator - 52) (-1074)
    let count := Decimal.roundHalfEven (numerator <<< (-unit).toNat) (denominator <<< unit.toNat)
    let lower := (unit + 1074).toNat * hiddenBit + count
    if 2047 * hiddenBit ≤ lower then infinity negative else ofParts negative lower

/-- The double nearest to a count. -/
def ofNat (count : Nat) : Double := ofQuotient false count 1

/-- The double nearest to the quotient of the doubles nearest to two counts. -/
def ratio (numerator denominator : Nat) : Double :=
  let upper := (ofNat numerator).magnitude
  let lower := (ofNat denominator).magnitude
  ofQuotient false (upper.1 * lower.2) (upper.2 * lower.1)

/-- A finite double with the given number of decimal places, rounded from its exact value. -/
def fixed (places : Nat) (value : Double) : String :=
  let sign := if value.isNegative then "-" else ""
  sign ++ Decimal.fixed places value.magnitude.1 value.magnitude.2

end Columnar.Double
