import Columnar.Chunk.Rows
import Columnar.Part.Reader
import Columnar.Read.Cursor
import Columnar.Read.Sink

namespace Columnar

/-!
Reading a column of a packed relation.

`ColumnReader.ofCatalog` opens all parts of a column and checks them against the catalog.
`materialize` walks over their chunks and hands every row to a sink, null or value by the
chunk's own bitmap.
-/

structure ColumnReader where
  column : Nat
  type : ColumnType
  chunkCount : Nat
  parts : Array PartReader

/-- Reads the catalog of a directory. -/
def loadCatalog (stores : Stores) (directory : Place) : Except Error Catalog := do
  let place := directory.child StoredFile.catalog.name
  let bytes ← (stores.read place).mapError .access
  (Catalog.decode bytes).mapError (.malformedCatalog place.location.text)

namespace PartReader

/-- Opens the part at a place for a column. -/
def ofPlace (codec : Codec) (stores : Stores) (column : Nat) (place : Place) :
    Except Error PartReader :=
  let path := place.location.text
  match stores.read place with
  | .error fault => .error (.unreadablePart column path (.access fault))
  | .ok bytes => (ofBytes codec column path bytes).mapError (.unreadablePart column path)

end PartReader

namespace ColumnReader

/-- The number of chunks of each part. -/
def partCounts (reader : ColumnReader) : Array Nat := reader.parts.map PartReader.chunkCount

def tupleCount (reader : ColumnReader) : Nat :=
  total (reader.parts.toList.map PartReader.totalTuples)

/-- Opens so many parts of a column from an index on. -/
def openParts (codec : Codec) (stores : Stores) (directory : Place) (column : Nat) :
    Nat → Nat → Except Error (List PartReader)
  | 0, _ => .ok []
  | count + 1, index =>
      match PartReader.ofPlace codec stores column
          (directory.child (StoredFile.part column index).name) with
      | .error error => .error error
      | .ok part =>
          match openParts codec stores directory column count (index + 1) with
          | .error error => .error error
          | .ok parts => .ok (part :: parts)

/-- The data type that a catalog gives a column. -/
def dataType (catalog : Catalog) (column : Nat) : Except Error (ColumnType × CatalogEntry) :=
  match catalog.entries[column]? with
  | none => .error (.noColumn column catalog.columnCount)
  | some entry =>
      match entry.type? with
      | none | some .skip => .error (.unsupportedType (ColumnType.nameOfTag entry.typeTag))
      | some type => .ok (type, entry)

/-- Opens a column whose directory has the given catalog. -/
def ofCatalog (codec : Codec) (stores : Stores) (directory : Place) (catalog : Catalog)
    (column : Nat) : Except Error ColumnReader := do
  let (type, entry) ← dataType catalog column
  let parts ← openParts codec stores directory column entry.partCount.toNat 0
  match parts.find? fun part => part.type ≠ type with
  | some part => .error (.unreadablePart column part.path (.partType part.type type))
  | none =>
      let stored := total (parts.map PartReader.chunkCount)
      if stored ≠ catalog.chunkCount.toNat then
        .error (.unreadablePart column directory.location.text
          (.chunkTotal parts.length stored catalog.chunkCount.toNat))
      else return ⟨column, type, stored, parts.toArray⟩

/-- Opens a column of the directory that a path names. -/
def ofPath (codec : Codec) (stores : Stores) (path : String) (column : Nat) :
    Except Error ColumnReader := do
  let directory ← (stores.resolve path).mapError .path
  let catalog ← loadCatalog stores directory
  ofCatalog codec stores directory catalog column

/-- Hands so many rows of a chunk, from a row on, to a sink. -/
def pushRows {σ : Type} (sink : Sink σ) (rows : RowReader) (bitmap : Bitmap) :
    Nat → Nat → σ → Except Error σ
  | 0, _, state => .ok state
  | count + 1, row, state =>
      match rows.cell bitmap row with
      | .error cause => .error (.chunk (.corrupt cause))
      | .ok cell =>
          match sink.push cell state with
          | .error error => .error error
          | .ok next => pushRows sink rows bitmap count (row + 1) next

/-- Hands the rows of a chunk to a sink. -/
def pushChunk {σ : Type} (codec : Codec) (type : ColumnType) (sink : Sink σ) (chunk : PartChunk)
    (state : σ) : Except Error σ :=
  let count := chunk.header.tupleCount.toNat
  match codec.decompress chunk.bytes with
  | .error error => .error (.chunk error)
  | .ok decoded =>
      match RowReader.ofDecoded type count decoded with
      | .error error => .error (.chunk error)
      | .ok rows => pushRows sink rows chunk.header.bitmap count 0 state

/-- The chunk at a position that a cursor has reached. -/
def chunkAt (reader : ColumnReader) (part chunk : Nat) : Except Error PartChunk :=
  match reader.parts[part]? with
  | none => .error (.cursorPastEnd reader.column chunk reader.parts.size)
  | some part => (part.chunk chunk).mapError (.unreadablePart reader.column part.path)

/-- Hands the rows of so many chunks to a sink, and counts them. -/
def pushChunks {σ : Type} (codec : Codec) (reader : ColumnReader) (sink : Sink σ) :
    Nat → Nat → ChunkCursor → Nat → σ → Except Error (Nat × σ)
  | 0, _, _, rows, state => .ok (rows, state)
  | count + 1, index, cursor, rows, state =>
      match cursor.advance reader.partCounts with
      | (none, _) => .error (.cursorPastEnd reader.column index reader.parts.size)
      | (some (part, inPart), next) =>
          match reader.chunkAt part inPart with
          | .error error => .error error
          | .ok chunk =>
              match pushChunk codec reader.type sink chunk state with
              | .error error => .error error
              | .ok state =>
                  pushChunks codec reader sink count (index + 1) next
                    (rows + chunk.header.tupleCount.toNat) state

/-- Hands all rows of a column to a sink; the answer is their number and the state at the end. -/
def materialize {σ : Type} (codec : Codec) (reader : ColumnReader) (sink : Sink σ) (state : σ) :
    Except Error (Nat × σ) := do
  let started ← sink.start reader.type reader.tupleCount state
  let (rows, filled) ← pushChunks codec reader sink reader.chunkCount 0 .start 0 started
  let finished ← sink.finish filled
  return (rows, finished)

end ColumnReader

end Columnar
