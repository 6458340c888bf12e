import Columnar.Double.Shortest
import Columnar.Error

namespace Columnar

/-!
Sinks take the rows of a column one after another.

A sink is a set of steps over a state: it is told the type of a column and how many rows are to
come, then each row, then the end.  The sinks here write text, one row a line; collect values of
one type, a null as a stand-in; or build an array that keeps its nulls.

A sink that keeps rows reserves one block of memory for those announced.  In an array the texts
stand one behind the other, and their offsets are signed 32-bit words.
-/

structure Sink (σ : Type) where
  start : ColumnType → Nat → σ → Except Error σ
  push : Cell → σ → Except Error σ
  finish : σ → Except Error σ

/-- The type of a row that is not null. -/
def Cell.type? : Cell → Option ColumnType
  | .null => none
  | .integer _ => some .integer
  | .double _ => some .double
  | .string _ => some .string

/-- The text of a row. -/
def Cell.text : Cell → String
  | .null => "null"
  | .integer value => Decimal.ofInt32 value
  | .double value => value.text
  | .string value => value

/-- The bytes of text that a row puts into an array. -/
def Cell.textBytes : Cell → Nat
  | .string value => value.utf8ByteSize
  | _ => 0

/-- An array of one type, of which any slot may be null. -/
inductive NullableArray where
  | integers (slots : Array (Option Int32))
  | doubles (slots : Array (Option Double))
  | strings (slots : Array (Option String))
deriving DecidableEq

namespace NullableArray

def type : NullableArray → ColumnType
  | .integers _ => .integer
  | .doubles _ => .double
  | .strings _ => .string

/-- The rows of an array. -/
def cells : NullableArray → List Cell
  | .integers slots => slots.toList.map fun slot => slot.elim .null .integer
  | .doubles slots => slots.toList.map fun slot => slot.elim .null .double
  | .strings slots => slots.toList.map fun slot => slot.elim .null .string

/-- The empty array for the rows of a column. -/
def empty? : ColumnType → Option NullableArray
  | .integer => some (.integers #[])
  | .double => some (.doubles #[])
  | .string => some (.strings #[])
  | .skip => none

/-- Appends a row of the array's type, or a null. -/
def push : NullableArray → Cell → Except Error NullableArray
  | .integers slots, .null => .ok (.integers (slots.push none))
  | .integers slots, .integer value => .ok (.integers (slots.push (some value)))
  | .doubles slots, .null => .ok (.doubles (slots.push none))
  | .doubles slots, .double value => .ok (.doubles (slots.push (some value)))
  | .strings slots, .null => .ok (.strings (slots.push none))
  | .strings slots, .string value => .ok (.strings (slots.push (some value)))
  | array, cell => .error (.typeMismatch (cell.type?.getD .skip) array.type)

end NullableArray

/-- An array under construction, and the bytes of the texts in it. -/
structure ArrayBuilder where
  array : NullableArray
  textBytes : Nat
deriving DecidableEq

namespace ArrayBuilder

/-- The largest offset that a text of an array can end at. -/
def maxOffset : Nat := 0x7FFFFFFF

def empty? (type : ColumnType) : Option ArrayBuilder := (NullableArray.empty? type).map (⟨·, 0⟩)

/-- Appends a row of the array's type, or a null, unless the texts become too long for their
offsets. -/
def push (builder : ArrayBuilder) (cell : Cell) : Except Error ArrayBuilder := do
  let array ← builder.array.push cell
  let textBytes := builder.textBytes + cell.textBytes
  if maxOffset < textBytes then .error (.overflow .textOffset) else .ok ⟨array, textBytes⟩

end ArrayBuilder

namespace Sink

/-- The largest number of bytes that one block of memory can have. -/
def maxBlock : Nat := 0x7FFFFFFFFFFFFFFF

/-- Reserves a block of memory. -/
def reserve {σ : Type} (bytes : Nat) (state : σ) : Except Error σ :=
  if maxBlock < bytes then .error (.overflow .blockSize) else .ok state

/-- Writes each row and a line feed. -/
def text : Sink String where
  start _ _ written := .ok written
  push cell written := .ok (written ++ cell.text ++ "\n")
  finish written := .ok written

/-- Refuses a column of another type than the one wanted. -/
def checkType {σ : Type} (wanted type : ColumnType) (state : σ) : Except Error σ :=
  if type = wanted then .ok state else .error (.typeMismatch wanted type)

/-- Refuses a row of another type than the one wanted. -/
def refuse {σ : Type} (wanted : ColumnType) (cell : Cell) : Except Error σ :=
  .error (.typeMismatch wanted (cell.type?.getD .skip))

/-- Collects integers, a null as zero. -/
def integers : Sink (Array Int32) where
  start type rows values := do
    let values ← checkType .integer type values
    reserve (4 * (values.size + rows)) values
  push cell values :=
    match cell with
    | .null => .ok (values.push 0)
    | .integer value => .ok (values.push value)
    | other => refuse .integer other
  finish values := .ok values

/-- Collects doubles, a null as zero. -/
def doubles : Sink (Array Double) where
  start type rows values := do
    let values ← checkType .double type values
    reserve (8 * (values.size + rows)) values
  push cell values :=
    match cell with
    | .null => .ok (values.push .zero)
    | .double value => .ok (values.push value)
    | other => refuse .double other
  finish values := .ok values

/-- Collects strings, a null as the word for it. -/
def strings : Sink (Array String) where
  start type rows values := do
    let values ← checkType .string type values
    reserve (24 * (values.size + rows)) values
  push cell values :=
    match cell with
    | .null => .ok (values.push "null")
    | .string value => .ok (values.push value)
    | other => refuse .string other
  finish values := .ok values

/-- The bytes that an array reserves for each row of a type. -/
def slotBytes : ColumnType → Nat
  | .integer => 4
  | .double | .string => 8
  | .skip => 0

/-- Builds a nullable array of the column's type; starting anew drops what was built before. -/
def array : Sink (Option ArrayBuilder) where
  start type rows _ :=
    match ArrayBuilder.empty? type with
    | some empty => reserve (slotBytes type * rows) (some empty)
    | none => .error (.unsupportedType type.name)
  push cell built :=
    match built with
    | none => .error (.configuration .arrayNotBegun)
    | some builder => (builder.push cell).map some
  finish built := .ok built

/-- The array that was built. -/
def toArray (built : Option ArrayBuilder) : Except Error NullableArray :=
  match built with
  | some builder => .ok builder.array
  | none => .error (.configuration .arrayNeverBegun)

end Sink

end Columnar
