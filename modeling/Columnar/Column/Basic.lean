import Columnar.Column.Kind
import Columnar.Column.Validity
import Columnar.Double.Basic
import Columnar.Text.Utf8

namespace Columnar

/-!
Columns in memory.

A data column is a list of values of one type together with one validity bit per row.  A row without
a value keeps a placeholder in the list, which nothing may read: only the validity bit counts.
-/

/-- The slots of a data column. -/
inductive Values where
  | integers (list : List Int32)
  | doubles (list : List Double)
  | strings (list : List String)
deriving DecidableEq

namespace Values

def length : Values → Nat
  | .integers list => list.length
  | .doubles list => list.length
  | .strings list => list.length

def type : Values → ColumnType
  | .integers _ => .integer
  | .doubles _ => .double
  | .strings _ => .string

/-- The slots from `start` up to `stop`. -/
def slice (start stop : Nat) : Values → Values
  | .integers list => .integers ((list.drop start).take (stop - start))
  | .doubles list => .doubles ((list.drop start).take (stop - start))
  | .strings list => .strings ((list.drop start).take (stop - start))

end Values

/-- What a row of a column reads as. -/
inductive Cell where
  | null
  | integer (value : Int32)
  | double (value : Double)
  | string (value : String)
deriving DecidableEq

namespace Cell

/-- Zero of either sign, or the empty text. -/
def isEmpty : Cell → Bool
  | .null => false
  | .integer value => value = 0
  | .double value => value.isZero
  | .string value => value = ""

end Cell

namespace Values

/-- The slots as cells, none of them null. -/
def cells : Values → List Cell
  | .integers list => list.map .integer
  | .doubles list => list.map .double
  | .strings list => list.map .string

@[simp] theorem length_cells (values : Values) : values.cells.length = values.length := by
  cases values <;> simp [cells, length]

end Values

/-- The stand-in for a missing integer. -/
def integerPlaceholder : Int32 := Int32.ofInt (-2147483648)

/-- The stand-in for a missing double. -/
def doublePlaceholder : Double := Double.lowest32

/-- How many rows are null, and how many present ones are zero or empty. -/
structure ColumnCounts where
  nulls : Nat
  empties : Nat
deriving DecidableEq, Repr

/-- A named column; a skipped one has no values. -/
structure Column where
  name : String
  values : Option Values
  validity : Validity
  counts : ColumnCounts

namespace Column

/-- The rows of values under validity bits, a row without a value as null. -/
def rowsOf (values : Values) (validity : Validity) : List Cell :=
  (values.cells.zip validity.toList).map fun row => if row.2 then row.1 else .null

/-- A column from its parts, with the counts that follow from them. -/
def ofParts (name : String) (values : Option Values) (validity : Validity) : Column :=
  let empties := match values with
    | some values => (rowsOf values validity).countP Cell.isEmpty
    | none => 0
  { name, values, validity, counts := ⟨validity.zeros, empties⟩ }

/-- A column whose rows are all present. -/
def present (name : String) (values : Values) : Column :=
  ofParts name (some values) (.allPresent values.length)

/-- A column of texts, of which some may be missing. -/
def ofOptionalStrings (name : String) (texts : List (Option String)) : Column :=
  ofParts name (some (.strings (texts.map (·.getD "")))) (.ofList (texts.map (·.isSome)))

/-- A skipped column. -/
def skipped (name : String) : Column := ofParts name none .empty

def type (column : Column) : ColumnType :=
  match column.values with
  | some values => values.type
  | none => .skip

end Column

end Columnar
