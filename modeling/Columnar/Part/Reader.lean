import Columnar.Chunk.Codec
import Columnar.Part.Archive
import Columnar.Store.Place

namespace Columnar

/-!
Reading parts.

A part is checked when it is opened: its version, its type, and the header of every chunk, which
must have the type of the part.  After that each chunk is reached by its index.
-/

/-- Why a part, or the parts of a column together, cannot be read. -/
inductive PartFault where
  | notAnArchive
  | version (version : UInt32)
  | unknownType (tag : UInt32)
  | chunk (index : Nat) (error : ChunkError)
  | chunkType (index : Nat) (tag : UInt32) (type : ColumnType)
  | noChunk (index held : Nat)
  | access (fault : AccessFault)
  | partType (held catalog : ColumnType)
  | chunkTotal (parts stored catalog : Nat)
deriving DecidableEq, Repr

def PartFault.message : PartFault → String
  | .notAnArchive => "<archive>"
  | .version stored => s!"unsupported part version {stored.toNat}"
  | .unknownType tag => s!"unknown column type {ColumnType.nameOfTag tag}"
  | .chunk index error => s!"chunk {index}: {error.message}"
  | .chunkType index tag type =>
      s!"chunk {index} holds {ColumnType.nameOfTag tag} values in a {type.name} part"
  | .noChunk index held => s!"chunk {index} requested, part holds {held}"
  | .access fault => fault.message
  | .partType held catalog =>
      s!"part holds {held.name} values, catalog says {catalog.name}"
  | .chunkTotal parts stored catalog =>
      s!"{parts} parts hold {stored} chunks, catalog says {catalog}"

/-- The bytes of a chunk with the header read from them. -/
structure PartChunk where
  header : ChunkHeader
  bytes : Bytes
deriving DecidableEq

structure PartReader where
  column : Nat
  path : String
  type : ColumnType
  chunks : Array PartChunk

namespace PartReader

/-- Reads the headers of chunks from an index on, all of the given type. -/
def inspectAll (codec : Codec) (type : ColumnType) :
    Nat → List Bytes → Except PartFault (List PartChunk)
  | _, [] => .ok []
  | index, bytes :: rest =>
      match codec.inspect bytes with
      | .error error => .error (.chunk index error)
      | .ok header =>
          if header.typeTag ≠ type.tag then .error (.chunkType index header.typeTag type)
          else
            match inspectAll codec type (index + 1) rest with
            | .error fault => .error fault
            | .ok chunks => .ok (⟨header, bytes⟩ :: chunks)

/-- Opens the bytes of a part, read for a column from a path. -/
def ofBytes (codec : Codec) (column : Nat) (path : String) (bytes : Bytes) :
    Except PartFault PartReader :=
  match StoredPart.decode? bytes with
  | none => .error .notAnArchive
  | some part =>
      if part.version ≠ StoredPart.currentVersion then .error (.version part.version)
      else
        match ColumnType.ofTag? part.typeTag with
        | none => .error (.unknownType part.typeTag)
        | some type =>
            match inspectAll codec type 0 part.chunks with
            | .error fault => .error fault
            | .ok chunks => .ok ⟨column, path, type, chunks.toArray⟩

def chunkCount (reader : PartReader) : Nat := reader.chunks.size

/-- The number of rows of all chunks together. -/
def totalTuples (reader : PartReader) : Nat :=
  total (reader.chunks.toList.map fun chunk => chunk.header.tupleCount.toNat)

/-- The chunk at an index. -/
def chunk (reader : PartReader) (index : Nat) : Except PartFault PartChunk :=
  match reader.chunks[index]? with
  | some chunk => .ok chunk
  | none => .error (.noChunk index reader.chunkCount)

end PartReader

end Columnar
