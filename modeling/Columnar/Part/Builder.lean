import Columnar.Column.Kind
import Columnar.Part.Archive

namespace Columnar

/-!
Filling parts.

A part takes chunks as long as their bytes stay within its budget; the first one always fits,
however large it is.
-/

structure PartBuilder where
  type : ColumnType
  maxBytes : Nat
  chunks : Array Bytes
  totalBytes : Nat

namespace PartBuilder

def empty (type : ColumnType) (maxBytes : Nat) : PartBuilder := ⟨type, maxBytes, #[], 0⟩

def isEmpty (part : PartBuilder) : Bool := part.chunks.isEmpty

/-- Whether a chunk of the given size fits. -/
def canAdd (part : PartBuilder) (size : Nat) : Bool :=
  part.isEmpty || part.totalBytes + size ≤ part.maxBytes

def add (part : PartBuilder) (chunk : Bytes) : PartBuilder :=
  { part with chunks := part.chunks.push chunk, totalBytes := part.totalBytes + chunk.length }

/-- The part file of the chunks so far. -/
def toStored (part : PartBuilder) : StoredPart :=
  ⟨StoredPart.currentVersion, part.type.tag, part.chunks.toList⟩

/-- The same part without its chunks. -/
def clear (part : PartBuilder) : PartBuilder := empty part.type part.maxBytes

end PartBuilder

end Columnar
