import Columnar.Error
import Columnar.Tabular.Field
import Columnar.Tabular.Record

namespace Columnar.Tabular

/-!
From delimited text to a relation.

`rows` lists the rows of a text: its records, and for each empty line a row with one empty
field.  The list ends early with the first record that is not UTF-8, which hides the empty lines
in front of it.  `ingest` adds the rows to the columns of a schema one after another and stops at
the first defect.
-/

/-- How much of a text has been read, and whether it ended with a carriage return. -/
structure Position where
  records : Nat
  lines : Nat
  bytes : Nat
  afterReturn : Bool

namespace Position

def start : Position := ⟨0, 1, 0, false⟩

/-- The position behind a record. -/
def advance (position : Position) (read : RecordRead) : Position :=
  { records := position.records + 1
    lines := position.lines + read.consumed.count lineFeed
    bytes := position.bytes + read.consumed.length
    afterReturn := read.consumed.getLast? = some carriageReturn }

end Position

/-- The fields of a record as texts, counted from the given index. -/
def decodeFields (position : Position) : Nat → List Bytes → Except RecordFault (List String)
  | _, [] => .ok []
  | index, bytes :: rest =>
      match Text.decode bytes with
      | .error fault =>
          .error ⟨position.records, position.lines, position.bytes, index, fault.validPrefix⟩
      | .ok text =>
          match decodeFields position (index + 1) rest with
          | .error fault => .error fault
          | .ok texts => .ok (text :: texts)

/-- The row of an empty line. -/
def blankRow : List String := [""]

/-- The rows of consecutive reads. -/
def rowsFrom (position : Position) : List RecordRead → List (Except RecordFault (List String))
  | [] => []
  | read :: rest =>
      let blanks := List.replicate (countBlankLines position.afterReturn read.consumed) blankRow
      match read.fields with
      | none => blanks.map .ok
      | some fields =>
          match decodeFields position 0 fields with
          | .error fault => [.error fault]
          | .ok texts => blanks.map .ok ++ .ok texts :: rowsFrom (position.advance read) rest

/-- The rows of a text behind its header, if it has one. -/
def rows (format : TextFormat) (text : Bytes) : List (Except RecordFault (List String)) :=
  let reads := readRecords format.delimiter true text
  if format.header then
    match reads with
    | [] => []
    | header :: rest => rowsFrom (Position.start.advance header) rest
  else rowsFrom .start reads

/-- Adds the fields of a row to the columns from an index on. -/
def pushFields (row : Nat) :
    Nat → List ColumnSpec → List ColumnBuilder → List String → Except Error (List ColumnBuilder)
  | column, spec :: specs, builder :: builders, field :: fields =>
      match builder.push field with
      | .error reason => .error (.malformedField ⟨row, column, spec, field, reason⟩)
      | .ok builder =>
          match pushFields row (column + 1) specs builders fields with
          | .error error => .error error
          | .ok builders => .ok (builder :: builders)
  | _, _, builders, _ => .ok builders

def pushRow (specs : List ColumnSpec) (row : Nat) (builders : List ColumnBuilder)
    (fields : List String) : Except Error (List ColumnBuilder) :=
  if fields.length ≠ specs.length then .error (.fieldCount row specs.length fields.length)
  else pushFields row 0 specs builders fields

/-- Adds rows, numbered from the given one, and counts them. -/
def pushRows (specs : List ColumnSpec) :
    Nat → List ColumnBuilder → List (Except RecordFault (List String)) →
      Except Error (Nat × List ColumnBuilder)
  | row, builders, [] => .ok (row, builders)
  | _, _, .error fault :: _ => .error (.record fault)
  | row, builders, .ok fields :: rest =>
      match pushRow specs row builders fields with
      | .error error => .error error
      | .ok builders => pushRows specs (row + 1) builders rest

/-- A relation of the given columns. -/
def addColumns : Relation → List Column → Except Error Relation
  | relation, [] => .ok relation
  | relation, column :: rest =>
      match relation.addColumn column with
      | (.ok (), extended) => addColumns extended rest
      | (.error fault, _) => .error (.columnLength fault)

/-- Reads a text into a relation with the given columns.  Rows are counted even if all columns are
skipped. -/
def ingest (format : TextFormat) (specs : List ColumnSpec) (text : Bytes) : Except Error Relation :=
  let builders := specs.map fun spec => ColumnBuilder.ofType spec.type
  match pushRows specs 0 builders (rows format text) with
  | .error error => .error error
  | .ok (count, builders) =>
      let columns := (specs.zip builders).map fun entry => entry.2.toColumn entry.1.name
      match addColumns .empty columns with
      | .error error => .error error
      | .ok relation =>
          if specs.all fun spec => spec.type = .skip then .ok { relation with tupleCount := count }
          else .ok relation

end Columnar.Tabular
