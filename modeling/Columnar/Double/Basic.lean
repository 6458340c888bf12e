namespace Columnar

/-!
Binary floating-point numbers of 64 bits, held as their bit pattern.

The pattern has a sign bit, eleven exponent bits and 52 fraction bits.  A finite number is
`significand * 2 ^ exponent` with its sign; two doubles are equal when their bits are, so NaNs with
different payloads differ, and so do the two zeros.
-/

structure Double where
  bits : UInt64
deriving DecidableEq, Repr

instance : Inhabited Double := ⟨⟨0⟩⟩

namespace Double

/-- The number of fractions, and the weight of the leading bit that normal numbers leave out. -/
def hiddenBit : Nat := 0x10000000000000

def signBit : Nat := 0x8000000000000000

def isNegative (value : Double) : Bool := signBit ≤ value.bits.toNat

def exponentField (value : Double) : Nat := value.bits.toNat / hiddenBit % 2048

def fractionField (value : Double) : Nat := value.bits.toNat % hiddenBit

/-- Either zero, whatever its sign. -/
def isZero (value : Double) : Bool := value.bits.toNat % signBit = 0

def isNaN (value : Double) : Bool := value.exponentField = 2047 ∧ value.fractionField ≠ 0

def isInfinite (value : Double) : Bool := value.exponentField = 2047 ∧ value.fractionField = 0

/-- The fraction with the leading bit. -/
def significand (value : Double) : Nat :=
  if value.exponentField = 0 then value.fractionField else hiddenBit + value.fractionField

/-- The power of two that the significand of a finite number counts. -/
def exponent (value : Double) : Int := max value.exponentField 1 - 1075

/-- The magnitude of a finite number as a quotient of two whole numbers. -/
def magnitude (value : Double) : Nat × Nat :=
  (value.significand <<< value.exponent.toNat, 1 <<< (-value.exponent).toNat)

/-- The pattern with the given sign and the given lower 63 bits. -/
def ofParts (negative : Bool) (lower : Nat) : Double :=
  ⟨UInt64.ofNat (if negative then signBit + lower else lower)⟩

def zero : Double := ⟨0⟩

def infinity (negative : Bool) : Double := ofParts negative 0x7FF0000000000000

/-- The quiet NaN without payload. -/
def nan (negative : Bool) : Double := ofParts negative 0x7FF8000000000000

/-- The exact number -2147483648. -/
def lowest32 : Double := ⟨0xC1E0000000000000⟩

end Double

end Columnar
