import Columnar.Chunk.Cascade
import Columnar.Double.Rounding
import Columnar.Part.Builder
import Columnar.Tabular.Ingest

namespace Columnar

/-!
Packing a relation into a directory.

Each data column is packed by itself: its chunks go into parts in the order of their rows, and a
part is written as soon as the next chunk does not fit.  `Pack.column` gives the writes that this
makes, also when a later chunk fails, so writes of different columns can be put in any order.
A column whose store refuses a write ends there.  The catalog is written last, and only if every
column succeeded.
-/

/-- What packing a column has written. -/
structure ColumnStats where
  column : Nat
  name : String
  type : ColumnType
  parts : Nat
  chunks : Nat
  uncompressedBytes : Nat
  compressedBytes : Nat
  writtenBytes : Nat
deriving DecidableEq, Repr

/-- The first size in units of the second, or zero if the second is zero. -/
def compressionRatio (uncompressed compressed : Nat) : Double :=
  if compressed = 0 then .zero else .ratio uncompressed compressed

namespace ColumnStats

def start (column : Nat) (name : String) (type : ColumnType) : ColumnStats :=
  ⟨column, name, type, 0, 0, 0, 0, 0⟩

def ratio (stats : ColumnStats) : Double :=
  compressionRatio stats.uncompressedBytes stats.compressedBytes

end ColumnStats

structure PackReport where
  catalog : Catalog
  columns : List ColumnStats

namespace PackReport

def uncompressedBytes (report : PackReport) : Nat :=
  total (report.columns.map (·.uncompressedBytes))

def compressedBytes (report : PackReport) : Nat := total (report.columns.map (·.compressedBytes))

def ratio (report : PackReport) : Double :=
  compressionRatio report.uncompressedBytes report.compressedBytes

end PackReport

namespace Pack

/-- A column on its way into parts; the latest write comes first. -/
structure Progress where
  stats : ColumnStats
  part : PartBuilder
  writes : List (Location × Bytes)

/-- The writes of a column in order, and how it ended. -/
structure ColumnRun where
  writes : List (Location × Bytes)
  result : Except Error ColumnStats

/-- Writes the chunks gathered so far as the next part. -/
def Progress.flush (directory : Location) (progress : Progress) : Progress :=
  let stats := progress.stats
  let bytes := progress.part.toStored.encode
  let location := directory.child (StoredFile.part stats.column stats.parts).name
  { stats := { stats with
      parts := stats.parts + 1
      writtenBytes := stats.writtenBytes + bytes.length }
    part := progress.part.clear
    writes := (location, bytes) :: progress.writes }

/-- Adds a compressed chunk, behind a new part if it does not fit. -/
def Progress.add (directory : Location) (progress : Progress) (size : Nat) (chunk : Bytes) :
    Progress :=
  let length := chunk.length
  let counted := { progress with stats := { progress.stats with
    chunks := progress.stats.chunks + 1
    uncompressedBytes := progress.stats.uncompressedBytes + size
    compressedBytes := progress.stats.compressedBytes + length } }
  let ready := if counted.part.canAdd length then counted else counted.flush directory
  { ready with part := ready.part.add chunk }

/-- The bytes of a chunk, compared with the chunk if that is wanted. -/
def compressChunk (codec : Codec) (verify : Bool) (column index : Nat) (chunk : InputChunk) :
    Except Error Bytes :=
  match codec.compress chunk with
  | .error error => .error (.chunk error)
  | .ok bytes =>
      if verify then
        match Verification.check codec chunk bytes with
        | .error mismatch => .error (.verification column index mismatch)
        | .ok () => .ok bytes
      else .ok bytes

/-- The size in memory and the bytes of the rows of a range. -/
def packRange (codec : Codec) (verify : Bool) (relation : Relation) (column : Column)
    (columnIndex chunkIndex : Nat) (range : RowRange) : Except Error (Nat × Bytes) := do
  let chunk? ← (relation.inputChunk? range columnIndex).mapError .rowsOutOfRange
  match chunk? with
  | none => .error (.unsupportedType column.type.name)
  | some chunk =>
      let bytes ← compressChunk codec verify columnIndex chunkIndex chunk
      let size ← (column.sizeBytes range).mapError .rowsOutOfRange
      return (size, bytes)

/-- Packs the ranges from a chunk index on. -/
def packRanges (codec : Codec) (verify : Bool) (relation : Relation) (column : Column)
    (directory : Location) : Nat → List RowRange → Progress → ColumnRun
  | _, [], progress =>
      let last := if progress.part.isEmpty then progress else progress.flush directory
      ⟨last.writes.reverse, .ok last.stats⟩
  | chunkIndex, range :: rest, progress =>
      match packRange codec verify relation column progress.stats.column chunkIndex range with
      | .error error => ⟨progress.writes.reverse, .error error⟩
      | .ok (size, bytes) =>
          packRanges codec verify relation column directory (chunkIndex + 1) rest
            (progress.add directory size bytes)

/-- Packs one column.  A skipped one writes nothing. -/
def column (codec : Codec) (options : PackOptions) (relation : Relation) (directory : Location)
    (ranges : List RowRange) (index : Nat) (column : Column) : ColumnRun :=
  let stats := ColumnStats.start index column.name column.type
  if column.type = .skip then ⟨[], .ok stats⟩
  else
    packRanges codec options.verify relation column directory 0 ranges
      ⟨stats, .empty column.type options.partMaxBytes, []⟩

/-- A run in a store that may refuse writes: it ends at the first one refused.  What is refused is
known before the run, because no part lies above another. -/
def ColumnRun.within (refusal? : Location → Option AccessFault) (run : ColumnRun) : ColumnRun :=
  match run.writes.findSome? fun write => refusal? write.1 with
  | none => run
  | some fault =>
      ⟨run.writes.takeWhile fun write => (refusal? write.1).isNone, .error (.access fault)⟩

/-- The errors of the columns that failed, from an index on. -/
def failures : Nat → List ColumnRun → List ColumnFailure
  | _, [] => []
  | index, run :: rest =>
      match run.result with
      | .ok _ => failures (index + 1) rest
      | .error error => ⟨index, error⟩ :: failures (index + 1) rest

/-- The statistics of the columns that succeeded. -/
def statistics (runs : List ColumnRun) : List ColumnStats :=
  runs.filterMap fun run => run.result.toOption

/-- The catalog of packed columns. -/
def catalogOf (chunkCount : Nat) (columns : List ColumnStats) : Catalog :=
  ⟨UInt32.ofNat chunkCount,
    columns.map fun stats => .ofType stats.type (UInt32.ofNat stats.parts)⟩

/-- The row ranges of a relation under settings that can be packed with. -/
def plan (options : PackOptions) (relation : Relation) : Except Error (List RowRange) := do
  (options.validate).mapError .configuration
  let ranges ← (rowRanges relation.tupleCount options.chunkRows).mapError .ranges
  if maxWord < ranges.length then .error (.configuration (.tooManyChunks ranges.length))
  else return ranges

/-- The runs of all columns. -/
def columns (codec : Codec) (options : PackOptions) (relation : Relation) (directory : Location)
    (ranges : List RowRange) : List ColumnRun :=
  relation.columns.zipIdx.map fun entry =>
    column codec options relation directory ranges entry.2 entry.1

/-- Packs a relation into a directory. -/
def relation (codec : Codec) (options : PackOptions) (stores : Stores) (path : String)
    (relation : Relation) : Except RunError PackReport × Stores :=
  let prepared : Except Error (List RowRange × Place) := do
    let ranges ← plan options relation
    let place ← (stores.resolve path).mapError .path
    return (ranges, place)
  match prepared with
  | .error error => (.error (.single error), stores)
  | .ok (ranges, place) =>
      let runs := (columns codec options relation place.location ranges).map
        (ColumnRun.within (stores.refusal? place.store))
      let packed := stores.putAll place.store (runs.flatMap (·.writes))
      match failures 0 runs with
      | [] =>
          let stats := statistics runs
          let catalog := catalogOf ranges.length stats
          match packed.write (place.child StoredFile.catalog.name) catalog.encode with
          | .ok written => (.ok ⟨catalog, stats⟩, written)
          | .error fault => (.error (.single (.access fault)), packed)
      | failed => (.error (.columns failed), packed)

/-- The object that a path names. -/
def readPath (stores : Stores) (path : String) : Except Error Bytes := do
  let place ← (stores.resolve path).mapError .path
  (stores.read place).mapError .access

/-- Reads delimited text from a path into a relation. -/
def ingestPath (stores : Stores) (path : String) (format : TextFormat) (specs : List ColumnSpec) :
    Except Error Relation := do
  let text ← readPath stores path
  Tabular.ingest format specs text

/-- Packs delimited text. -/
def delimitedText (stores : Stores) (source path : String) (specs : List ColumnSpec)
    (options : PackOptions) : Except RunError PackReport × Stores :=
  let ingested : Except Error Relation := do
    (options.validate).mapError .configuration
    ingestPath stores source options.format specs
  match ingested with
  | .error error => (.error (.single error), stores)
  | .ok table => relation (.cascade options.cascadeDepth) options stores path table

end Pack

end Columnar
