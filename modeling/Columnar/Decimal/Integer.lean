namespace Columnar.Decimal

/-!
Whole numbers in decimal.

A number is read from the left, one digit at a time, so the first thing that goes wrong is what is
reported: a character that is no digit, or a value that has left the range.  `readInt32` reads a
signed 32-bit number, `readNat?` a count with an upper limit.
-/

/-- Why a text is no number of the wanted kind. -/
inductive Fault where
  | invalidDigit
  | tooLarge
  | tooSmall
  | invalidFraction
deriving DecidableEq, Repr

def Fault.message : Fault → String
  | .invalidDigit => "invalid digit found in string"
  | .tooLarge => "number too large to fit in target type"
  | .tooSmall => "number too small to fit in target type"
  | .invalidFraction => "invalid float literal"

/-- The value of an ASCII digit. -/
def digit? (char : Char) : Option Nat :=
  if '0' ≤ char ∧ char ≤ '9' then some (char.toNat - '0'.toNat) else none

/-- Continues a number of the given value by further digits, as long as it stays within the
limit. -/
def extend (limit : Nat) (overflow : Fault) : Nat → List Char → Except Fault Nat
  | value, [] => .ok value
  | value, char :: rest =>
      match digit? char with
      | none => .error .invalidDigit
      | some digit =>
          let next := 10 * value + digit
          if next ≤ limit then extend limit overflow next rest else .error overflow

/-- A digit sequence, which has at least one digit. -/
def readDigits (limit : Nat) (overflow : Fault) : List Char → Except Fault Nat
  | [] => .error .invalidDigit
  | chars => extend limit overflow 0 chars

/-- An optional sign and digits, from -2147483648 to 2147483647. -/
def readInt32 (text : String) : Except Fault Int32 :=
  match text.toList with
  | '-' :: digits => do
      let magnitude ← readDigits 2147483648 .tooSmall digits
      return Int32.ofInt (-magnitude)
  | '+' :: digits => do
      let magnitude ← readDigits 2147483647 .tooLarge digits
      return Int32.ofInt magnitude
  | digits => do
      let magnitude ← readDigits 2147483647 .tooLarge digits
      return Int32.ofInt magnitude

/-- An optional plus sign and digits, from zero up to the limit. -/
def readNat? (limit : Nat) (text : String) : Option Nat :=
  let digits := match text.toList with
    | '+' :: digits => digits
    | digits => digits
  (readDigits limit .tooLarge digits).toOption

/-- The shortest decimal form of a 32-bit number. -/
def ofInt32 (value : Int32) : String := toString value.toInt

end Columnar.Decimal
