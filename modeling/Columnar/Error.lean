import Columnar.Catalog
import Columnar.Chunk.Verification
import Columnar.Decimal.Integer
import Columnar.Options
import Columnar.Part.Reader

namespace Columnar

/-!
Errors.

`Error` has one constructor per way in which reading, packing or unpacking can fail, each with
the cause found by the part of the library where it arose.  An overflow ends the program and never
reaches a caller, but is kept here with the rest.  `RunError` is what a whole run ends
with: one error, or the errors of several columns.  `message` gives the wording.
-/

/-- A field that is no value of its column's type. -/
structure FieldFault where
  row : Nat
  column : Nat
  spec : ColumnSpec
  field : String
  reason : Decimal.Fault
deriving DecidableEq, Repr

/-- A record whose field is not UTF-8, with the number of records, lines and bytes in front of
it. -/
structure RecordFault where
  record : Nat
  line : Nat
  byte : Nat
  field : Nat
  validPrefix : Nat
deriving DecidableEq, Repr

inductive Error where
  | malformedField (fault : FieldFault)
  | fieldCount (row expected actual : Nat)
  | ranges (fault : RangeFault)
  | columnLength (fault : LengthMismatch)
  | rowsOutOfRange (fault : RowsOutOfRange)
  | noColumn (column columns : Nat)
  | malformedCatalog (path : String) (fault : CatalogFault)
  | unreadablePart (column : Nat) (path : String) (fault : PartFault)
  | cursorPastEnd (column chunk parts : Nat)
  | typeMismatch (requested stored : ColumnType)
  | chunk (error : ChunkError)
  | verification (column chunk : Nat) (mismatch : Mismatch)
  | configuration (fault : ConfigFault)
  | path (fault : PathFault)
  | access (fault : AccessFault)
  | record (fault : RecordFault)
  | overflow (cause : Overflow)
deriving DecidableEq, Repr

namespace Error

def unsupportedType (name : String) : Error := .chunk (.unsupportedType name)

def message : Error → String
  | .malformedField fault =>
      s!"failed to parse row {fault.row}, column {fault.column} (name = '{fault.spec.name}', " ++
        s!"type = {fault.spec.type.name}) with field '{fault.field}': {fault.reason.message}"
  | .fieldCount row expected actual =>
      s!"row {row} has {actual} fields but {expected} columns were declared"
  | .ranges fault => fault.message
  | .columnLength fault => fault.message
  | .rowsOutOfRange fault => fault.message
  | .noColumn column columns =>
      s!"column index: {column} does not exist (catalog has {columns} columns)"
  | .malformedCatalog place fault => s!"metadata at '{place}' is malformed: {fault.message}"
  | .unreadablePart column place fault =>
      s!"part file '{place}' for column {column} is unreadable: {fault.message}"
  | .cursorPastEnd column index parts =>
      s!"column {column}: chunk {index} lies past the last part (parts = {parts})"
  | .typeMismatch requested stored =>
      s!"Requested column type '{requested.name}' does not match stored type '{stored.name}'"
  | .chunk error => error.message
  | .verification column index mismatch =>
      s!"chunk verification failed for column {column}, chunk {index}: {mismatch.message}"
  | .configuration fault => s!"invalid configuration: {fault.message}"
  | .path fault => fault.message
  | .access fault => fault.message
  | .record fault =>
      s!"CSV parse error: record {fault.record} (line {fault.line}, field: {fault.field}, " ++
        s!"byte: {fault.byte}): invalid utf-8: invalid UTF-8 in field {fault.field} " ++
        s!"near byte index {fault.validPrefix}"
  | .overflow cause => cause.message

end Error

/-- The error of one column among several. -/
structure ColumnFailure where
  column : Nat
  error : Error
deriving DecidableEq, Repr

def ColumnFailure.message (failure : ColumnFailure) : String :=
  s!"[column {failure.column}] {failure.error.message}"

/-- How a run can fail: at once, or in some of its columns. -/
inductive RunError where
  | single (error : Error)
  | columns (failures : List ColumnFailure)
deriving DecidableEq, Repr

namespace RunError

def message : RunError → String
  | .single error => error.message
  | .columns failures =>
      let texts := failures.map ColumnFailure.message
      s!"{failures.length} column task(s) failed: " ++ "; ".intercalate texts

end RunError

end Columnar
