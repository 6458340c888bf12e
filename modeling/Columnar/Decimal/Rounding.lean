namespace Columnar.Decimal

/-!
Rounding a quotient of whole numbers to a whole number.

`roundHalfEven` takes the nearest whole number, and of two equally near ones the even one.
-/

/-- The whole number nearest to `numerator / denominator`; a half goes to the even neighbour. -/
def roundHalfEven (numerator denominator : Nat) : Nat :=
  let quotient := numerator / denominator
  let remainder := numerator % denominator
  if 2 * remainder < denominator then quotient
  else if denominator < 2 * remainder then quotient + 1
  else if quotient % 2 = 0 then quotient
  else quotient + 1

def powerOfTen (exponent : Nat) : Nat := Nat.pow 10 exponent

/-- A quotient with the given number of decimal places, at least one; a half goes to the even last
digit. -/
def fixed (places numerator denominator : Nat) : String :=
  let unit := powerOfTen places
  let scaled := roundHalfEven (numerator * unit) denominator
  let fraction := Nat.toDigits 10 (scaled % unit)
  toString (scaled / unit) ++ "." ++
    String.ofList (List.replicate (places - fraction.length) '0' ++ fraction)

end Columnar.Decimal
