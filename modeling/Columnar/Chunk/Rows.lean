import Columnar.Chunk.Bitmap
import Columnar.Chunk.Payload

namespace Columnar

/-!
Reading the rows of a decoded chunk.

A reader knows the layout of a buffer and gives the cell at a row.  It trusts nothing: each
access is checked against the buffer, and strings must be UTF-8.
-/

namespace Rows

def integerAt (buffer : Array UInt8) (row : Nat) : Except Corruption Int32 :=
  match Bytes.readNat? buffer 4 (row * 4) with
  | some word => .ok (UInt32.ofNat word).toInt32
  | none => .error (.integerSlot row)

def doubleAt (buffer : Array UInt8) (row : Nat) : Except Corruption Double :=
  match Bytes.readNat? buffer 8 (row * 8) with
  | some word => .ok ⟨UInt64.ofNat word⟩
  | none => .error (.doubleSlot row)

def wordAt (buffer : Array UInt8) (position : Nat) : Except Corruption Nat :=
  match Bytes.readNat? buffer 4 position with
  | some word => .ok word
  | none => .error (.wordMissing position)

/-- The text that spans the given offsets of the data behind the first `dataStart` bytes. -/
def textAt (buffer : Array UInt8) (dataStart row start stop : Nat) : Except Corruption String :=
  if start ≤ stop ∧ dataStart + stop ≤ buffer.size then
    match Text.decode (buffer.extract (dataStart + start) (dataStart + stop)).toList with
    | .ok text => .ok text
    | .error fault => .error (.stringUtf8 row fault)
  else .error (.stringSpan row start stop)

end Rows

namespace StringRows

/-- The bytes in front of the string data. -/
def tableBytes (rows : Nat) (indirect : Bool) : Nat := if indirect then rows * 8 else (rows + 1) * 4

/-- The text of all string data behind a table. -/
def allText (buffer : Array UInt8) (rows : Nat) (indirect : Bool) : Except Text.Utf8Fault String :=
  Text.decode (buffer.extract (tableBytes rows indirect) buffer.size).toList

end StringRows

/-- The strings of a buffer: a string array, or data behind a table of pointers.  Rows that have all
of the data, as in a column of one text, share it. -/
structure StringRows where
  buffer : Array UInt8
  rows : Nat
  indirect : Bool
  whole : Thunk (Except Text.Utf8Fault String)
  whole_eq : whole.get = StringRows.allText buffer rows indirect

namespace StringRows

def of (buffer : Array UInt8) (rows : Nat) (indirect : Bool) : StringRows :=
  ⟨buffer, rows, indirect, .mk fun _ => allText buffer rows indirect, rfl⟩

@[simp] theorem buffer_of (buffer : Array UInt8) (rows : Nat) (indirect : Bool) :
    (of buffer rows indirect).buffer = buffer := rfl

@[simp] theorem rows_of (buffer : Array UInt8) (rows : Nat) (indirect : Bool) :
    (of buffer rows indirect).rows = rows := rfl

@[simp] theorem indirect_of (buffer : Array UInt8) (rows : Nat) (indirect : Bool) :
    (of buffer rows indirect).indirect = indirect := rfl

def ofBuffer (buffer : Array UInt8) (rows : Nat) (indirect : Bool) :
    Except Corruption StringRows :=
  let needed := tableBytes rows indirect
  if needed ≤ buffer.size then .ok (.of buffer rows indirect)
  else if indirect then .error (.pointerTable rows needed buffer.size)
  else .error (.stringTable rows needed buffer.size)

/-- The text that spans the given offsets of the string data. -/
def text (strings : StringRows) (row start stop : Nat) : Except Corruption String :=
  let dataStart := tableBytes strings.rows strings.indirect
  if start = 0 ∧ dataStart + stop = strings.buffer.size then
    strings.whole.get.mapError (.stringUtf8 row)
  else Rows.textAt strings.buffer dataStart row start stop

/-- Sharing changes no text. -/
theorem text_eq (strings : StringRows) (row start stop : Nat) :
    strings.text row start stop =
      Rows.textAt strings.buffer (tableBytes strings.rows strings.indirect) row start stop := by
  unfold text
  dsimp only
  split
  · rename_i all
    obtain ⟨rfl, reach⟩ := all
    rw [strings.whole_eq, allText, Rows.textAt, if_pos ⟨Nat.zero_le _, Nat.le_of_eq reach⟩, reach,
      Nat.add_zero]
    cases Text.decode _ <;> rfl
  · rfl

def get (strings : StringRows) (row : Nat) : Except Corruption String :=
  if strings.rows ≤ row then .error (.stringRow row strings.rows)
  else if strings.indirect then do
    let offset ← Rows.wordAt strings.buffer (row * 8)
    let length ← Rows.wordAt strings.buffer (row * 8 + 4)
    strings.text row offset (offset + length)
  else do
    let start ← Rows.wordAt strings.buffer (row * 4)
    let stop ← Rows.wordAt strings.buffer ((row + 1) * 4)
    if stop < start then .error (.stringOffsets row) else strings.text row start stop

end StringRows

/-- Access to the rows of a chunk by its column type. -/
inductive RowReader where
  | integers (buffer : Array UInt8)
  | doubles (buffer : Array UInt8)
  | strings (rows : StringRows)

namespace RowReader

/-- The reader of a decoded chunk with so many rows. -/
def ofDecoded (type : ColumnType) (rows : Nat) (decoded : Decoded) : Except ChunkError RowReader :=
  match type with
  | .integer => .ok (.integers decoded.buffer.toArray)
  | .double => .ok (.doubles decoded.buffer.toArray)
  | .string =>
      match StringRows.ofBuffer decoded.buffer.toArray rows decoded.indirect with
      | .ok texts => .ok (.strings texts)
      | .error cause => .error (.corrupt cause)
  | .skip => .error (.unsupportedType ColumnType.skip.name)

/-- The value at a row, whether or not it is null. -/
def value (reader : RowReader) (row : Nat) : Except Corruption Cell :=
  match reader with
  | .integers buffer => (Rows.integerAt buffer row).map .integer
  | .doubles buffer => (Rows.doubleAt buffer row).map .double
  | .strings texts => (texts.get row).map .string

/-- The cell at a row: null if the bitmap says so, and then the slot is not looked at. -/
def cell (reader : RowReader) (bitmap : Bitmap) (row : Nat) : Except Corruption Cell :=
  if bitmap.isNull row then .ok .null else reader.value row

end RowReader

end Columnar
