import Columnar.Column.Basic
import Columnar.Double.Reader

namespace Columnar.Tabular

/-!
Fields as values.

A numeric field is trimmed, and is unset when nothing or the word `null` is left.  A string field
is taken as it stands, and is unset only when it is exactly `null`.  An unset field gives the
type's placeholder and a cleared validity bit.
-/

def nullLiteral : String := "null"

/-- The text of a numeric field that is set. -/
def numericText? (field : String) : Option String :=
  let trimmed := Text.trim field
  if trimmed = "" ∨ trimmed = nullLiteral then none else some trimmed

/-- A column that is being filled, the latest row first. -/
inductive ColumnBuilder where
  | integers (values : List Int32) (validity : List Bool)
  | doubles (values : List Double) (validity : List Bool)
  | strings (values : List String) (validity : List Bool)
  | skipped

namespace ColumnBuilder

def ofType : ColumnType → ColumnBuilder
  | .integer => .integers [] []
  | .double => .doubles [] []
  | .string => .strings [] []
  | .skip => .skipped

/-- Adds a field, which must be a number where one is wanted. -/
def push (builder : ColumnBuilder) (field : String) : Except Decimal.Fault ColumnBuilder :=
  match builder with
  | .integers values validity =>
      match numericText? field with
      | none => .ok (.integers (integerPlaceholder :: values) (false :: validity))
      | some text => do
          let value ← Decimal.readInt32 text
          return .integers (value :: values) (true :: validity)
  | .doubles values validity =>
      match numericText? field with
      | none => .ok (.doubles (doublePlaceholder :: values) (false :: validity))
      | some text => do
          let value ← Double.read text
          return .doubles (value :: values) (true :: validity)
  | .strings values validity =>
      if field = nullLiteral then .ok (.strings ("" :: values) (false :: validity))
      else .ok (.strings (field :: values) (true :: validity))
  | .skipped => .ok .skipped

/-- The column with the rows in the order in which they came. -/
def toColumn (name : String) : ColumnBuilder → Column
  | .integers values validity =>
      .ofParts name (some (.integers values.reverse)) (.ofList validity.reverse)
  | .doubles values validity =>
      .ofParts name (some (.doubles values.reverse)) (.ofList validity.reverse)
  | .strings values validity =>
      .ofParts name (some (.strings values.reverse)) (.ofList validity.reverse)
  | .skipped => .skipped name

end ColumnBuilder

end Columnar.Tabular
