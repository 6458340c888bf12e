import Columnar.Chunk.Archive
import Columnar.Proofs.Archive.References

namespace Columnar.StoredChunk

/-!
Stored chunks are read back.

The fields of a record stand at fixed distances behind its root, so each of them is found where it
was written.  The file must be short enough for its references.
-/

open Bytes (Placed)

theorem length_encodeBitmap (address : Nat) (bitmap : Bitmap) :
    (encodeBitmap address bitmap).length = 16 := by
  cases bitmap with
  | allZeros => rfl
  | allOnes => rfl
  | bitset bits rows => simp [encodeBitmap, Bytes.ofUInt32]

def root (chunk : StoredChunk) : Nat :=
  (Archive.align (bitmapData chunk.bitmap ++ chunk.payload)).length

theorem length_encode (chunk : StoredChunk) : (encode chunk).length = chunk.root + rootSize := by
  simp only [encode, root, rootSize, List.length_append, List.length_cons, List.length_nil,
    length_encodeBitmap, Archive.Reference.length_encode, Bytes.ofUInt32, Bytes.length_ofNat]

/-- The parts of a file at their positions. -/
structure Fields (chunk : StoredChunk) (file : Bytes) : Prop where
  data : Placed (bitmapData chunk.bitmap ++ chunk.payload) 0 file
  typeTag : Placed (Bytes.ofUInt32 chunk.typeTag) chunk.root file
  tupleCount : Placed (Bytes.ofUInt32 chunk.tupleCount) (chunk.root + 4) file
  bitmap : Placed (encodeBitmap (chunk.root + 8) chunk.bitmap) (chunk.root + 8) file
  schemeTag : Placed [chunk.schemeTag, if chunk.lz4 then 1 else 0, 0, 0] (chunk.root + 24) file
  payload : Placed (Archive.Reference.mk (chunk.root + 28) (bitmapData chunk.bitmap).length
    chunk.payload.length).encode (chunk.root + 28) file

theorem fields_of_placed {chunk : StoredChunk} {file : Bytes}
    (whole : Placed (encode chunk) 0 file) : Fields chunk file := by
  unfold encode at whole
  have bitmap := length_encodeBitmap (chunk.root + 8) chunk.bitmap
  have payload := whole.right
  have schemeTag := whole.left.right
  have middle := whole.left.left.right
  have tupleCount := whole.left.left.left.right
  have typeTag := whole.left.left.left.left.right
  have front := whole.left.left.left.left.left
  have place : (Archive.align (bitmapData chunk.bitmap ++ chunk.payload)).length = chunk.root := rfl
  simp only [place, List.length_append, List.length_cons, List.length_nil, bitmap, Nat.zero_add,
    Bytes.ofUInt32, Bytes.length_ofNat] at payload schemeTag middle tupleCount typeTag
  exact ⟨front.left, typeTag, tupleCount, middle, schemeTag, payload⟩

theorem decodeFlag?_placed {flag : Bool} {position : Nat} {file rest : Bytes}
    (placed : Placed ((if flag then 1 else 0) :: rest) position file) :
    decodeFlag? file.toArray position = some flag := by
  rw [decodeFlag?, placed.getElem?]
  cases flag <;> rfl

/-- A bitmap is read back, and its bits end where the payload begins. -/
theorem decodeBitmap?_placed {bitmap : Bitmap} {root : Nat} {file : Bytes}
    (data : Placed (bitmapData bitmap) 0 file) (inside : (bitmapData bitmap).length ≤ root)
    (near : root + 12 ≤ Archive.reach)
    (placed : Placed (encodeBitmap (root + 8) bitmap) (root + 8) file) :
    decodeBitmap? file.toArray root (root + 8) = some (bitmap, (bitmapData bitmap).length) := by
  cases bitmap with
  | allZeros => rw [decodeBitmap?, Placed.getElem? placed]; rfl
  | allOnes => rw [decodeBitmap?, Placed.getElem? placed]; rfl
  | bitset bits rows =>
      rw [encodeBitmap, List.append_assoc] at placed
      have kind : file.toArray[root + 8]? = some 2 := Placed.getElem? placed
      have reference := placed.right.left
      have count := placed.right.right
      simp only [List.length_cons, List.length_nil, Archive.Reference.length_encode]
        at reference count
      have length : bits.size ≤ root := by simpa [bitmapData] using inside
      have small : bits.size < Bytes.capacity 4 := by
        rw [Bytes.capacity_four]
        unfold Archive.reach at near
        omega
      have resolved := Archive.Reference.resolve?_placed ⟨0, root⟩ 1 reference (Nat.zero_le _)
        (by simp only [Nat.zero_add]; omega) small (Nat.le_refl _) (by simp only []; omega)
      have bytes := Archive.Reference.bytes_placed ⟨root + 8 + 4, 0, bits.size⟩ data
        (by simp [bitmapData])
      rw [decodeBitmap?, kind]
      simp only [resolved, count.readUInt32, bytes]
      simp [bitmapData]

theorem decode?_encode {chunk : StoredChunk} (near : (encode chunk).length ≤ Archive.reach) :
    decode? (encode chunk) = some chunk := by
  obtain ⟨data, typeTag, tupleCount, bitmap, schemeTag, payload⟩ :=
    fields_of_placed (Placed.whole (encode chunk))
  have size := length_encode chunk
  have front : (bitmapData chunk.bitmap ++ chunk.payload).length ≤ chunk.root := by
    rw [root, Archive.length_align]
    omega
  rw [List.length_append] at front
  have found := Archive.rootAddress?_eq size (Archive.align_aligned _)
  unfold rootSize at size
  have reach : Archive.reach = 2147483648 := rfl
  have bits := decodeBitmap?_placed data.left (by omega) (by omega) bitmap
  have scheme := schemeTag.getElem?
  have flag := decodeFlag?_placed schemeTag.tail
  have reference := Archive.Reference.resolve?_placed
    ⟨(bitmapData chunk.bitmap).length, chunk.root⟩ 1 payload
    (by simp only []; omega) (by simp only []; omega)
    (by simp only [Bytes.capacity_four]; omega) (Nat.le_refl _) (by simp only []; omega)
  have bytes := Archive.Reference.bytes_placed
    ⟨chunk.root + 28, (bitmapData chunk.bitmap).length, chunk.payload.length⟩
    (by simpa using data.right) rfl
  simp only [decode?, found, typeTag.readUInt32, tupleCount.readUInt32, bits, scheme, flag,
    reference, bytes, Option.bind_eq_bind, Option.bind_some]
  cases chunk
  simp

end Columnar.StoredChunk
