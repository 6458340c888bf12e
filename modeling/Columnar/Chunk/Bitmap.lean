import Columnar.Chunk.Corruption
import Columnar.Column.Validity

namespace Columnar

/-!
The validity of a chunk's rows as it is stored.

When all rows are null, or all are present, the bitmap says just that; otherwise it carries the
packed bits.  A chunk without rows counts as all null.
-/

inductive Bitmap where
  | allZeros
  | allOnes
  | bitset (bits : Array UInt8) (rows : UInt32)
deriving DecidableEq, Repr

namespace Bitmap

def ofValidity (validity : Validity) : Bitmap :=
  if validity.ones = 0 then .allZeros
  else if validity.ones = validity.length then .allOnes
  else .bitset validity.toBytes.toArray (UInt32.ofNat validity.length)

/-- Whether a row is null.  Rows past the stored bits are. -/
def isNull (bitmap : Bitmap) (row : Nat) : Bool :=
  match bitmap with
  | .allZeros => true
  | .allOnes => false
  | .bitset bits _ =>
      match bits[row / 8]? with
      | none => true
      | some byte => !byte.toNat.testBit (row % 8)

/-- Stored bits must name the chunk's number of rows and have enough bytes for them. -/
def checkRows (bitmap : Bitmap) (tuples : UInt32) : Except Corruption Unit :=
  match bitmap with
  | .bitset bits rows =>
      if rows ≠ tuples ∨ bits.size < (tuples.toNat + 7) / 8 then
        .error (.bitmapRows rows bits.size tuples)
      else .ok ()
  | _ => .ok ()

end Bitmap

end Columnar
