import Columnar.Archive

namespace Columnar

/-!
Stored parts.

A part file holds the bytes of its chunks back to back, then one reference per chunk, then a
record of 16 bytes: the format version, the column's type tag and a reference to the references.
-/

structure StoredPart where
  version : UInt32
  typeTag : UInt32
  chunks : List Bytes
deriving DecidableEq

namespace StoredPart

def rootSize : Nat := 16

/-- The version that this library writes, and the only one that it reads. -/
def currentVersion : UInt32 := 1

/-- References from consecutive addresses to consecutive chunks. -/
def references : Nat → Nat → List Bytes → List Archive.Reference
  | _, _, [] => []
  | address, start, chunk :: rest =>
      let length := chunk.length
      ⟨address, start, length⟩ :: references (address + 8) (start + length) rest

def encode (part : StoredPart) : Bytes :=
  let front := Archive.align part.chunks.flatten
  let table := front.length
  let count := part.chunks.length
  let root := table + 8 * count
  front ++ (references table 0 part.chunks).flatMap Archive.Reference.encode ++
    Bytes.ofUInt32 part.version ++ Bytes.ofUInt32 part.typeTag ++
    (Archive.Reference.mk (root + 8) table count).encode

/-- Follows `count` references from an address on.  Each chunk lies behind the one before it and in
front of the references. -/
def decodeChunks? (file : Array UInt8) (table : Nat) : Nat → Nat → Nat → Option (List Bytes)
  | 0, _, _ => some []
  | count + 1, address, start => do
      let reference ← Archive.Reference.resolve? file ⟨start, table⟩ 1 address
      let rest ← decodeChunks? file table count (address + 8) (reference.target + reference.length)
      return reference.bytes file :: rest

def decode? (bytes : Bytes) : Option StoredPart := do
  let file := bytes.toArray
  let root ← Archive.rootAddress? file rootSize
  let version ← Bytes.readNat? file 4 root
  let typeTag ← Bytes.readNat? file 4 (root + 4)
  let table ← Archive.Reference.resolve? file ⟨0, root⟩ 8 (root + 8)
  if table.target % 4 ≠ 0 then none
  let chunks ← decodeChunks? file table.target table.length table.target 0
  return { version := UInt32.ofNat version, typeTag := UInt32.ofNat typeTag, chunks }

end StoredPart

end Columnar
