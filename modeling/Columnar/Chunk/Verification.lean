import Columnar.Chunk.Codec
import Columnar.Chunk.Rows

namespace Columnar

/-!
Comparing stored bytes with the chunk that they should hold.

`Verification.check` reads the bytes back through the codec and compares type, number of rows,
and row by row what is null and what the value is.  Values behind null rows do not count.
-/

/-- The first difference between a chunk and stored bytes. -/
inductive Mismatch where
  | unreadable (error : ChunkError)
  | tupleCount (stored : UInt32) (input : Nat)
  | type (stored : UInt32) (input : ColumnType)
  | validity (row : Nat) (present : Bool)
  | value (row : Nat)
deriving DecidableEq, Repr

def Mismatch.message : Mismatch → String
  | .unreadable error => error.message
  | .tupleCount stored input => s!"tuple count {stored.toNat} does not match input {input}"
  | .type stored input =>
      s!"type {ColumnType.nameOfTag stored} does not match input {input.name}"
  | .validity row present => s!"row {row}: validity differs (expected present = {present})"
  | .value row => s!"row {row}: value differs after decompression"

namespace Verification

/-- Compares the rows from a row on with validity bits and values. -/
def checkRows (reader : RowReader) (bitmap : Bitmap) :
    Nat → List Bool → List Cell → Except Mismatch Unit
  | _, [], _ => .ok ()
  | row, present :: bits, values =>
      if bitmap.isNull row = present then .error (.validity row present)
      else if !present then checkRows reader bitmap (row + 1) bits values.tail
      else
        match reader.value row with
        | .error cause => .error (.unreadable (.corrupt cause))
        | .ok stored =>
            if values.head? = some stored then
              checkRows reader bitmap (row + 1) bits values.tail
            else .error (.value row)

def check (codec : Codec) (chunk : InputChunk) (bytes : Bytes) : Except Mismatch Unit := do
  let header ← (codec.inspect bytes).mapError .unreadable
  if header.tupleCount.toNat ≠ chunk.tupleCount then
    .error (.tupleCount header.tupleCount chunk.tupleCount)
  else if header.typeTag ≠ chunk.type.tag then
    .error (.type header.typeTag chunk.type)
  else
    let decoded ← (codec.decompress bytes).mapError .unreadable
    let reader ← (RowReader.ofDecoded chunk.type chunk.tupleCount decoded).mapError .unreadable
    checkRows reader header.bitmap 0 chunk.validity.toList chunk.values.cells

end Verification

end Columnar
