import Columnar.Archive
import Columnar.Chunk.Bitmap

namespace Columnar

/-!
Stored chunks.

A stored chunk is a record of 36 bytes behind the packed validity bits, if any, and the payload:

  type tag, number of rows, bitmap kind (one byte, three unused), reference to the bits, number of
  rows in the bits, scheme tag (one byte), LZ4 flag (one byte, two unused), reference to the
  payload.

`StoredChunk.decode?` reads back what `StoredChunk.encode` writes and refuses bytes whose
references leave the file.
-/

structure StoredChunk where
  typeTag : UInt32
  tupleCount : UInt32
  bitmap : Bitmap
  schemeTag : UInt8
  lz4 : Bool
  payload : Bytes
deriving DecidableEq

namespace StoredChunk

def rootSize : Nat := 36

/-- The packed bits that stand in front of the payload. -/
def bitmapData : Bitmap → Bytes
  | .bitset bits _ => bits.toList
  | _ => []

/-- The bitmap's part of the record, whose first byte is at the given address. -/
def encodeBitmap (address : Nat) : Bitmap → Bytes
  | .allZeros => 0 :: List.replicate 15 0
  | .allOnes => 1 :: List.replicate 15 0
  | .bitset bits rows =>
      [2, 0, 0, 0] ++ (Archive.Reference.mk (address + 4) 0 bits.size).encode ++
        Bytes.ofUInt32 rows

def encode (chunk : StoredChunk) : Bytes :=
  let bits := bitmapData chunk.bitmap
  let front := Archive.align (bits ++ chunk.payload)
  let root := front.length
  front ++ Bytes.ofUInt32 chunk.typeTag ++ Bytes.ofUInt32 chunk.tupleCount ++
    encodeBitmap (root + 8) chunk.bitmap ++ [chunk.schemeTag, if chunk.lz4 then 1 else 0, 0, 0] ++
    (Archive.Reference.mk (root + 28) bits.length chunk.payload.length).encode

/-- The bitmap whose record begins at an address, and where its packed bits end. -/
def decodeBitmap? (file : Array UInt8) (root address : Nat) : Option (Bitmap × Nat) :=
  match file[address]? with
  | some 0 => some (.allZeros, 0)
  | some 1 => some (.allOnes, 0)
  | some 2 =>
      match Archive.Reference.resolve? file ⟨0, root⟩ 1 (address + 4),
        Bytes.readNat? file 4 (address + 12) with
      | some reference, some rows =>
          some (.bitset (reference.bytes file).toArray (UInt32.ofNat rows),
            reference.target + reference.length)
      | _, _ => none
  | _ => none

/-- The flag at an address. -/
def decodeFlag? (file : Array UInt8) (address : Nat) : Option Bool :=
  match file[address]? with
  | some 0 => some false
  | some 1 => some true
  | _ => none

def decode? (bytes : Bytes) : Option StoredChunk := do
  let file := bytes.toArray
  let root ← Archive.rootAddress? file rootSize
  let typeTag ← Bytes.readNat? file 4 root
  let tupleCount ← Bytes.readNat? file 4 (root + 4)
  let (bitmap, bitsEnd) ← decodeBitmap? file root (root + 8)
  let schemeTag ← file[root + 24]?
  let lz4 ← decodeFlag? file (root + 25)
  let payload ← Archive.Reference.resolve? file ⟨bitsEnd, root⟩ 1 (root + 28)
  return {
    typeTag := UInt32.ofNat typeTag
    tupleCount := UInt32.ofNat tupleCount
    bitmap
    schemeTag
    lz4
    payload := payload.bytes file }

end StoredChunk

end Columnar
