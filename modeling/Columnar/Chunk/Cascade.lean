import Columnar.Chunk.Archive
import Columnar.Chunk.Codec
import Columnar.Lz4.Search

namespace Columnar

/-!
The cascade of compressions.

`Codec.cascade` writes the shortest payload among the schemes that its depth allows, and sends
it through LZ4 where that makes it shorter still.  How a chunk was written is stored with it, so
one reader serves all depths.
-/

namespace Cascade

/-- The schemes that are tried at a depth. -/
def schemesAt (depth : Nat) (type : ColumnType) : List Scheme :=
  if depth = 0 then [.uncompressed] else Scheme.candidates type

/-- The shorter of two payloads, the earlier one if they are equally long. -/
def shorter (best : Option (Scheme × Bytes)) (next : Scheme × Bytes) : Option (Scheme × Bytes) :=
  match best with
  | none => some next
  | some found => if next.2.length < found.2.length then some next else some found

/-- The payloads of the values in those of the schemes that can hold them. -/
def payloads (values : Values) : List Scheme → Except ChunkError (List (Scheme × Bytes))
  | [] => .ok []
  | scheme :: rest =>
      match Payload.write scheme values with
      | .error error => .error error
      | .ok written =>
          match payloads values rest with
          | .error error => .error error
          | .ok others => .ok (written.toList.map (scheme, ·) ++ others)

/-- The shortest payload of the values, and its scheme. -/
def choose (schemes : List Scheme) (values : Values) : Except ChunkError (Option (Scheme × Bytes)) :=
  (payloads values schemes).map fun written => written.foldl shorter none

/-- The payload as it is stored, and whether it went through LZ4. -/
def lz4Stage (depth : Nat) (payload : Bytes) : Bool × Bytes :=
  if 2 ≤ depth then
    let packed := Lz4.compress payload
    if packed.length < payload.length then (true, packed) else (false, payload)
  else (false, payload)

/-- The stored form of a chunk.  Its rows are counted by a word. -/
def toStored (depth : Nat) (chunk : InputChunk) : Except ChunkError StoredChunk :=
  let count := chunk.tupleCount
  if chunk.validity.length ≠ count then
    .error (.corrupt (.validityCount count chunk.validity.length))
  else
    match choose (schemesAt depth chunk.type) chunk.values with
    | .error error => .error error
    | .ok none => .error (.unsupportedType chunk.type.name)
    | .ok (some (scheme, payload)) =>
        if maxWord < count then .error (.corrupt (.tooLong "chunk tuple count" count))
        else
          let (lz4, stored) := lz4Stage depth payload
          .ok {
            typeTag := chunk.type.tag
            tupleCount := UInt32.ofNat count
            bitmap := .ofValidity chunk.validity
            schemeTag := scheme.tag
            lz4
            payload := stored }

def compress (depth : Nat) (chunk : InputChunk) : Except ChunkError Bytes :=
  (toStored depth chunk).map StoredChunk.encode

def inspect (bytes : Bytes) : Except ChunkError ChunkHeader :=
  match StoredChunk.decode? bytes with
  | none => .error .notAnArchive
  | some chunk =>
      match chunk.bitmap.checkRows chunk.tupleCount with
      | .error cause => .error (.corrupt cause)
      | .ok () => .ok ⟨chunk.typeTag, chunk.tupleCount, chunk.bitmap⟩

/-- The data type of a tag, which a skipped column does not have. -/
def dataType (tag : UInt32) : Except ChunkError ColumnType :=
  match ColumnType.ofTag? tag with
  | none | some .skip => .error (.unsupportedType (ColumnType.nameOfTag tag))
  | some type => .ok type

/-- The payload of a stored chunk before its LZ4 stage. -/
def payloadOf (chunk : StoredChunk) : Except ChunkError Bytes :=
  if chunk.lz4 then
    match Lz4.decompress chunk.payload with
    | .ok payload => .ok payload
    | .error fault => .error (.corrupt (.lz4 fault))
  else .ok chunk.payload

def decompress (bytes : Bytes) : Except ChunkError Decoded :=
  match StoredChunk.decode? bytes with
  | none => .error .notAnArchive
  | some chunk => do
      let type ← dataType chunk.typeTag
      match Scheme.ofTag? chunk.schemeTag with
      | none => .error (.corrupt (.unknownScheme chunk.schemeTag))
      | some scheme =>
          let payload ← payloadOf chunk
          match Payload.decode scheme type chunk.tupleCount.toNat payload with
          | .ok decoded => .ok decoded
          | .error cause => .error (.corrupt cause)

end Cascade

/-- The codec that tries schemes and LZ4 as far as the depth allows: none at depth zero, schemes
alone at one, both from two on. -/
def Codec.cascade (depth : Nat) : Codec :=
  ⟨Cascade.compress depth, Cascade.inspect, Cascade.decompress⟩

/-- The codec that reads stored chunks. -/
def Codec.standard : Codec := .cascade 3

end Columnar
