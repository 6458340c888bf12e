import Columnar.Decimal.Rounding
import Columnar.Double.Basic

namespace Columnar.Double

/-!
The shortest decimal text of a double.

`shortest` finds the fewest digits that read back as the same double, and of those the nearest
to its value.  `text` writes them out without an exponent, however many zeros that takes.
-/

/-- The quotients that round to a double: those between two bounds over one denominator, the bounds
included or not. -/
structure Interval where
  lower : Nat
  value : Nat
  upper : Nat
  denominator : Nat
  closed : Bool

/-- The rounding interval of a positive finite double.  Below a power of two the neighbours are half
as far apart as above it. -/
def interval (value : Double) : Interval :=
  let scaleUp := 1 <<< value.exponent.toNat
  let atPower := value.fractionField = 0 ∧ 1 < value.exponentField
  { lower := (4 * value.significand - if atPower then 1 else 2) * scaleUp
    value := 4 * value.significand * scaleUp
    upper := (4 * value.significand + 2) * scaleUp
    denominator := 4 <<< (-value.exponent).toNat
    closed := value.significand % 2 = 0 }

/-- Whether `count / scale`, for a scale given as a quotient, lies in the interval. -/
def Interval.contains (range : Interval) (count scaleUp scaleDown : Nat) : Bool :=
  let point := count * scaleUp * range.denominator
  let lower := range.lower * scaleDown
  let upper := range.upper * scaleDown
  if range.closed then lower ≤ point ∧ point ≤ upper else lower < point ∧ point < upper

/-- Digits and the power of ten that the last of them counts. -/
structure Digits where
  digits : Nat
  exponent : Int

/-- The nearest point of the grid of multiples of `10 ^ exponent` that reads back, if one of the two
neighbours of the value does.  Of two equally near ones the upper is taken. -/
def onGrid? (range : Interval) (exponent : Int) : Option Digits :=
  let scaleUp := Decimal.powerOfTen exponent.toNat
  let scaleDown := Decimal.powerOfTen (-exponent).toNat
  let scaled := range.value * scaleDown
  let step := range.denominator * scaleUp
  let below := scaled / step
  let rest := scaled % step
  let lowerFits := 0 < below ∧ range.contains below scaleUp scaleDown
  let upperFits := range.contains (below + 1) scaleUp scaleDown
  if lowerFits ∧ (¬ upperFits ∨ 2 * rest < step) then some ⟨below, exponent⟩
  else if upperFits then some ⟨below + 1, exponent⟩
  else none

/-- The number of digits in front of the point, or minus the number of zeros behind it. -/
def decimalPlaces (range : Interval) : Int :=
  let whole := range.value / range.denominator
  if 0 < whole then (Nat.toDigits 10 whole).length
  else
    let zeros := (List.range 400).find? fun count =>
      range.denominator ≤ range.value * Decimal.powerOfTen (count + 1)
    Int.negOfNat (zeros.getD 0)

/-- Drops a last digit zero, which is left when the upper neighbour is a power of ten. -/
def Digits.reduce (value : Digits) : Digits :=
  if value.digits % 10 = 0 then ⟨value.digits / 10, value.exponent + 1⟩ else value

/-- The digits on the coarsest grid with a hit.  Seventeen digits always read back, so there is
one. -/
def shortest (value : Double) : Digits :=
  let range := value.interval
  let places := decimalPlaces range
  let found := (List.range 17).findSome? fun (count : Nat) => onGrid? range (places - (count + 1))
  (found.getD ⟨range.value / range.denominator, 0⟩).reduce

/-- Digits written out with a point where one is needed. -/
def Digits.text (value : Digits) : String :=
  let digits := Nat.toDigits 10 value.digits
  if 0 ≤ value.exponent then
    String.ofList (digits ++ List.replicate value.exponent.toNat '0')
  else
    let places := (-value.exponent).toNat
    let padded := List.replicate (places + 1 - digits.length) '0' ++ digits
    let whole := padded.take (padded.length - places)
    let fraction := padded.drop (padded.length - places)
    String.ofList (whole ++ '.' :: fraction)

/-- The text of a double: the shortest digits, never an exponent, no point for a whole number. -/
def text (value : Double) : String :=
  if value.isNaN then "NaN"
  else
    let sign := if value.isNegative then "-" else ""
    let body := if value.isInfinite then "inf"
      else if value.isZero then "0"
      else value.shortest.text
    sign ++ body

end Columnar.Double
