import Columnar.Column.Basic
import Columnar.Overflow
import Columnar.Total

namespace Columnar

/-!
Relations and their row ranges.

A relation is a list of columns over the same rows.  `rowRanges` cuts the rows into consecutive
ranges of a fixed size, the same for all columns, and `Relation.inputChunk` takes one range of
one column.
-/

/-- Rows are numbered by 64-bit words, which hold sums and sizes below this. -/
def rowModulus : Nat := 0x10000000000000000

/-- The rows from `start` up to, and without, `stop`. -/
structure RowRange where
  start : Nat
  stop : Nat
deriving DecidableEq, Repr

namespace RowRange

def length (range : RowRange) : Nat := range.stop - range.start

def isEmpty (range : RowRange) : Bool := range.stop ≤ range.start

end RowRange

/-- Why rows cannot be cut into ranges: there are none, or none per chunk, or no word holds the end
of a range. -/
inductive RangeFault where
  | noRows (tupleCount chunkRows : Nat)
  | overflow (cause : Overflow)
deriving DecidableEq, Repr

def RangeFault.message : RangeFault → String
  | .noRows tupleCount chunkRows =>
      s!"relation produced no chunk ranges (tuple_count = {tupleCount}, chunk_rows = {chunkRows})"
  | .overflow cause => cause.message

/-- The range from a row on.  Its end is summed up before it is cut off behind the last row. -/
def rangeAt (tupleCount chunkRows start : Nat) : Except RangeFault RowRange :=
  let stop := start + chunkRows
  if rowModulus ≤ stop then .error (.overflow .rangeEnd) else .ok ⟨start, min stop tupleCount⟩

/-- Consecutive ranges of `chunkRows` rows over all rows, the last one cut off at the end. -/
def rowRanges (tupleCount chunkRows : Nat) : Except RangeFault (List RowRange) :=
  if tupleCount = 0 ∨ chunkRows = 0 then .error (.noRows tupleCount chunkRows)
  else
    let count := (tupleCount + chunkRows - 1) / chunkRows
    (List.range count).mapM fun index => rangeAt tupleCount chunkRows (index * chunkRows)

/-- A range that reaches past the rows of a column of the given length, or runs backwards. -/
structure RowsOutOfRange where
  range : RowRange
  length : Nat
deriving DecidableEq, Repr

def RowsOutOfRange.message (fault : RowsOutOfRange) : String :=
  s!"rows {fault.range.start}..{fault.range.stop} lie outside a column of {fault.length} rows"

/-- A column has another number of values, or of validity bits, than the relation has rows. -/
structure LengthMismatch where
  column : String
  expected : Nat
  actual : Nat
deriving DecidableEq, Repr

def LengthMismatch.message (fault : LengthMismatch) : String :=
  s!"column '{fault.column}' has {fault.actual} values but the relation has {fault.expected} tuples"

/-- A range of rows of a data column, as it is handed to a codec. -/
structure InputChunk where
  values : Values
  validity : Validity

namespace InputChunk

def type (chunk : InputChunk) : ColumnType := chunk.values.type

def tupleCount (chunk : InputChunk) : Nat := chunk.values.length

/-- The rows of the chunk. -/
def rows (chunk : InputChunk) : List Cell := Column.rowsOf chunk.values chunk.validity

end InputChunk

namespace Column

/-- A range must lie inside a column of the given length. -/
def checkRange (length : Nat) (range : RowRange) : Except RowsOutOfRange Unit :=
  if range.start ≤ range.stop ∧ range.stop ≤ length then .ok () else .error ⟨range, length⟩

/-- The values within a range. -/
def valuesIn (values : Values) (range : RowRange) : Except RowsOutOfRange Values := do
  checkRange values.length range
  return values.slice range.start range.stop

/-- The bytes of slots of a width, one for each row of a range, which need not lie inside the
column. -/
def slotBytes (width length : Nat) (range : RowRange) : Except RowsOutOfRange Nat :=
  if range.start ≤ range.stop ∧ range.length * width < rowModulus then .ok (range.length * width)
  else .error ⟨range, length⟩

/-- The bytes that the rows of a range take in memory: the width of each number, and of each string
its bytes and a word for its length. -/
def sizeBytes (column : Column) (range : RowRange) : Except RowsOutOfRange Nat :=
  match column.values with
  | none => slotBytes 0 0 range
  | some (.integers list) => slotBytes 4 list.length range
  | some (.doubles list) => slotBytes 8 list.length range
  | some (.strings list) => do
      checkRange list.length range
      let texts := (list.drop range.start).take range.length
      return total (texts.map fun text => text.utf8ByteSize + 4)

end Column

structure Relation where
  columns : List Column
  tupleCount : Nat

namespace Relation

def empty : Relation := ⟨[], 0⟩

/-- Whether some column is not skipped. -/
def hasData (relation : Relation) : Bool := relation.columns.any fun column => column.type ≠ .skip

/-- Appends a column, or refuses it for its length.  The first data column sets the number of rows,
even when it is then refused for having another number of validity bits. -/
def addColumn (relation : Relation) (column : Column) : Except LengthMismatch Unit × Relation :=
  match column.values with
  | none => (.ok (), { relation with columns := relation.columns ++ [column] })
  | some values =>
      let length := values.length
      if relation.hasData ∧ length ≠ relation.tupleCount then
        (.error ⟨column.name, relation.tupleCount, length⟩, relation)
      else
        let sized := { relation with tupleCount := length }
        if column.validity.length ≠ length then
          (.error ⟨column.name ++ " (validity)", length, column.validity.length⟩, sized)
        else (.ok (), { sized with columns := sized.columns ++ [column] })

/-- Takes the rows of a range from a data column; a skipped or missing column has none. -/
def inputChunk? (relation : Relation) (range : RowRange) (column : Nat) :
    Except RowsOutOfRange (Option InputChunk) :=
  match relation.columns[column]? with
  | none => .ok none
  | some column =>
      match column.values with
      | none => .ok none
      | some values => do
          let inside ← Column.valuesIn values range
          return some ⟨inside, column.validity.slice range.start range.stop⟩

end Relation

end Columnar
