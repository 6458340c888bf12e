namespace Columnar

/-!
Overflows.

A sum, a count or a size can be more than the word that is to hold it.  The program stops there: an
overflow is no value, and no error that a caller gets back and goes on from.
-/

inductive Overflow where
  /-- The row behind a range of rows. -/
  | rangeEnd
  /-- The rows of a run. -/
  | runLength
  /-- The bytes of the texts in an array. -/
  | textOffset
  /-- The bytes of one block of memory. -/
  | blockSize
deriving DecidableEq, Repr

def Overflow.message : Overflow → String
  | .rangeEnd | .runLength => "attempt to add with overflow"
  | .textOffset => "byte array offset overflow"
  | .blockSize => "capacity overflow"

end Columnar
