import Columnar.Chunk.Cascade
import Columnar.Read.Column
import Columnar.Text.Padding

namespace Columnar

/-!
Describing a packed directory: its catalog, and for each data column the chunks held by every part.
-/

structure ColumnDescription where
  column : Nat
  typeName : String
  partCount : Nat
  chunkCounts : List Nat
  tupleCount : Nat
deriving DecidableEq, Repr

structure StoreDescription where
  catalog : Catalog
  columns : List ColumnDescription

namespace ColumnDescription

/-- Describes a column; one without data is described by its entry alone. -/
def ofEntry (stores : Stores) (directory : Place) (catalog : Catalog) (index : Nat)
    (entry : CatalogEntry) : Except Error ColumnDescription := do
  let plain : ColumnDescription :=
    ⟨index, ColumnType.nameOfTag entry.typeTag, entry.partCount.toNat, [], 0⟩
  if entry.hasData then
    let reader ← ColumnReader.ofCatalog .standard stores directory catalog index
    return { plain with
      chunkCounts := reader.partCounts.toList
      tupleCount := reader.tupleCount }
  else return plain

def line (column : ColumnDescription) : String :=
  let index := Text.padLeft 3 (toString column.column)
  let type := Text.padRight 8 column.typeName
  let parts := Text.padRight 4 (toString column.partCount)
  let tuples := Text.padRight 10 (toString column.tupleCount)
  let counts := ", ".intercalate (column.chunkCounts.map toString)
  s!"  column {index}  {type} parts={parts} tuples={tuples} chunks/part=[{counts}]\n"

end ColumnDescription

namespace StoreDescription

/-- Describes the columns of catalog entries from an index on. -/
def ofEntries (stores : Stores) (directory : Place) (catalog : Catalog) :
    Nat → List CatalogEntry → Except Error (List ColumnDescription)
  | _, [] => .ok []
  | index, entry :: rest => do
      let first ← ColumnDescription.ofEntry stores directory catalog index entry
      let others ← ofEntries stores directory catalog (index + 1) rest
      return first :: others

def ofPath (stores : Stores) (path : String) : Except Error StoreDescription := do
  let directory ← (stores.resolve path).mapError .path
  let catalog ← loadCatalog stores directory
  let columns ← ofEntries stores directory catalog 0 catalog.entries
  return ⟨catalog, columns⟩

def text (description : StoreDescription) : String :=
  let catalog := description.catalog
  let head := s!"{catalog.columnCount} columns, {catalog.chunkCount.toNat} chunks per column\n"
  head ++ "".intercalate (description.columns.map ColumnDescription.line)

end StoreDescription

end Columnar
