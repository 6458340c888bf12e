import Columnar.Decimal.Integer
import Columnar.Double.Rounding

namespace Columnar.Double

/-!
Reading a double from decimal text.

A number is an optional sign and then a word for infinity or NaN, in any case, or digits with an
optional point and an optional exponent.  At least one digit stands before or after the point.  The
value is the double nearest to the exact decimal.
-/

/-- The exact decimal `digits * 10 ^ exponent`, kept with the number of its digits. -/
structure Scientific where
  digits : Nat
  exponent : Int

/-- The nearest double.  Outside the exponents that any finite double can have, the answer is
zero or infinity whatever the digits. -/
def Scientific.toDouble (negative : Bool) (value : Scientific) : Double :=
  let places := (Nat.toDigits 10 value.digits).length + value.exponent
  if value.digits = 0 ∨ places < -400 then ofParts negative 0
  else if 400 < places then infinity negative
  else
    ofQuotient negative (value.digits * Decimal.powerOfTen value.exponent.toNat)
      (Decimal.powerOfTen (-value.exponent).toNat)

def isDigit (char : Char) : Bool := (Decimal.digit? char).isSome

/-- The number written by a digit sequence. -/
def valueOf (digits : List Char) : Nat :=
  digits.foldl (fun value char => 10 * value + (Decimal.digit? char).getD 0) 0

/-- The exponent that follows the mark: an optional sign and at least one digit, to the end. -/
def readExponent? (chars : List Char) : Option Int :=
  let (negative, digits) := match chars with
    | '-' :: digits => (true, digits)
    | '+' :: digits => (false, digits)
    | digits => (false, digits)
  if digits ≠ [] ∧ digits.all isDigit then
    some (if negative then -(valueOf digits : Int) else valueOf digits)
  else none

/-- Digits with an optional point and an optional exponent. -/
def readScientific? (chars : List Char) : Option Scientific :=
  let whole := chars.takeWhile isDigit
  let rest := chars.dropWhile isDigit
  let (fraction, rest) := match rest with
    | '.' :: rest => (rest.takeWhile isDigit, rest.dropWhile isDigit)
    | rest => ([], rest)
  if whole = [] ∧ fraction = [] then none
  else
    let digits := valueOf (whole ++ fraction)
    match rest with
    | [] => some ⟨digits, -(fraction.length : Int)⟩
    | mark :: rest =>
        if mark = 'e' ∨ mark = 'E' then
          (readExponent? rest).map fun exponent => ⟨digits, exponent - fraction.length⟩
        else none

/-- A number without its sign. -/
def readUnsigned? (negative : Bool) (chars : List Char) : Option Double :=
  let lowered := chars.map Char.toLower
  if lowered = "inf".toList ∨ lowered = "infinity".toList then some (infinity negative)
  else if lowered = "nan".toList then some (nan negative)
  else (readScientific? chars).map (Scientific.toDouble negative)

def read (text : String) : Except Decimal.Fault Double :=
  let value := match text.toList with
    | '-' :: rest => readUnsigned? true rest
    | '+' :: rest => readUnsigned? false rest
    | rest => readUnsigned? false rest
  match value with
  | some value => .ok value
  | none => .error .invalidFraction

end Columnar.Double
