import Columnar.Chunk.Bitmap
import Columnar.Chunk.Payload
import Columnar.Relation

namespace Columnar

/-!
Codecs turn chunks into bytes and back.

A codec is three functions, so that what is said of packing and reading can be said of any of them:
one writes a chunk, one reads what stored bytes say about themselves, one expands them into rows.
-/

/-- What a stored chunk says about itself. -/
structure ChunkHeader where
  typeTag : UInt32
  tupleCount : UInt32
  bitmap : Bitmap
deriving DecidableEq, Repr

structure Codec where
  compress : InputChunk → Except ChunkError Bytes
  inspect : Bytes → Except ChunkError ChunkHeader
  decompress : Bytes → Except ChunkError Decoded

end Columnar
