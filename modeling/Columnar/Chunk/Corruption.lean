import Columnar.Chunk.Scheme
import Columnar.Lz4.Block
import Columnar.Overflow
import Columnar.Text.Utf8

namespace Columnar

/-!
What can be wrong with a chunk.

`Corruption` has one constructor per defect of stored bytes, and one for lengths that stored bytes
could not count; `ChunkError` adds bytes that are no archive at all, column types that cannot be
read, and counters that overflow while a chunk is written.
-/

inductive Corruption where
  | bitmapRows (rows : UInt32) (bytes : Nat) (tuples : UInt32)
  | validityCount (values bits : Nat)
  | unknownScheme (tag : UInt8)
  | lz4 (fault : Lz4.Fault)
  | wrongScheme (scheme : Scheme) (type : ColumnType)
  | slotBytes (expected rows found : Nat)
  | oneValueBytes (expected found : Nat)
  | endsBefore (what : String)
  | oneStringBytes (declared found : Nat)
  | runBytes (runs expected found : Nat)
  | runsTooLong (rows : Nat)
  | runsTooShort (covered rows : Nat)
  | offsetsMissing (rows : Nat)
  | firstOffset
  | offsetsDecrease
  | lastOffset (last dataBytes : Nat)
  | codesMissing
  | codeOutOfRange (row code entries : Nat)
  | integerSlot (row : Nat)
  | doubleSlot (row : Nat)
  | stringTable (rows expected found : Nat)
  | pointerTable (rows expected found : Nat)
  | stringRow (row rows : Nat)
  | wordMissing (position : Nat)
  | stringOffsets (row : Nat)
  | stringSpan (row start stop : Nat)
  | stringUtf8 (row : Nat) (fault : Text.Utf8Fault)
  | tooLong (what : String) (length : Nat)
  | reported (text : String)
deriving DecidableEq, Repr

def Corruption.message : Corruption → String
  | .bitmapRows rows bytes tuples =>
      s!"bitmap covers {rows.toNat} rows ({bytes} bytes) but chunk has {tuples.toNat} tuples"
  | .validityCount values bits =>
      s!"input chunk has {values} values but {bits} validity bits"
  | .unknownScheme tag => s!"unknown scheme tag {tag.toNat}"
  | .lz4 fault => s!"lz4 stage: {fault.message}"
  | .wrongScheme scheme type => s!"scheme {scheme.name} cannot hold {type.name} values"
  | .slotBytes expected rows found => s!"expected {expected} bytes for {rows} slots, found {found}"
  | .oneValueBytes expected found =>
      s!"one-value payload should be {expected} bytes, found {found}"
  | .endsBefore what => s!"payload ends before {what}"
  | .oneStringBytes declared found =>
      s!"one-value string declares {declared} bytes, payload has {found}"
  | .runBytes runs expected found => s!"{runs} runs need {expected} bytes, found {found}"
  | .runsTooLong rows => s!"runs cover more than {rows} rows"
  | .runsTooShort covered rows => s!"runs cover {covered} of {rows} rows"
  | .offsetsMissing rows => s!"string array of {rows} rows is shorter than its offsets"
  | .firstOffset => "string array does not start at offset 0"
  | .offsetsDecrease => "string array offsets decrease"
  | .lastOffset last dataBytes =>
      s!"string array ends at {last} but carries {dataBytes} data bytes"
  | .codesMissing => "dictionary payload shorter than its codes"
  | .codeOutOfRange row code entries =>
      s!"row {row} refers to dictionary entry {code} of {entries}"
  | .integerSlot row => s!"integer slot {row} out of bounds"
  | .doubleSlot row => s!"double slot {row} out of bounds"
  | .stringTable rows expected found =>
      s!"string array of {rows} rows needs {expected} offset bytes, buffer has {found}"
  | .pointerTable rows expected found =>
      s!"string pointer array of {rows} rows needs {expected} slot bytes, buffer has {found}"
  | .stringRow row rows => s!"string row {row} out of {rows}"
  | .wordMissing position => s!"u32 read at byte {position} out of bounds"
  | .stringOffsets row => s!"string {row} has decreasing offsets"
  | .stringSpan row start stop => s!"string {row} spans {start}..{stop} past the data section"
  | .stringUtf8 row fault => s!"string {row} is not utf-8: {fault.message}"
  | .tooLong what length => s!"{what} of {length} exceeds the u32 range"
  | .reported text => text

inductive ChunkError where
  | notAnArchive
  | corrupt (cause : Corruption)
  | unsupportedType (name : String)
  | overflow (cause : Overflow)
deriving DecidableEq, Repr

def ChunkError.message : ChunkError → String
  | .notAnArchive => "<archive>"
  | .corrupt cause => s!"corrupt chunk: {cause.message}"
  | .unsupportedType name => s!"Type {name} not supported"
  | .overflow cause => cause.message

end Columnar
