import Columnar.Part.Archive
import Columnar.Proofs.Archive.References

namespace Columnar.StoredPart

/-!
Stored parts are read back.

The references of a part follow each other as the chunks do, so reading them one by one gives the
chunks in order.
-/

open Bytes (Placed)

@[simp] theorem length_references (address start : Nat) (chunks : List Bytes) :
    (references address start chunks).length = chunks.length := by
  induction chunks generalizing address start with
  | nil => rfl
  | cons chunk rest ih => simp [references, ih]

theorem length_encodedReferences (references : List Archive.Reference) :
    (references.flatMap Archive.Reference.encode).length = 8 * references.length := by
  induction references with
  | nil => rfl
  | cons reference rest ih =>
      simp only [List.flatMap_cons, List.length_append, Archive.Reference.length_encode, ih,
        List.length_cons]
      omega

def table (part : StoredPart) : Nat := (Archive.align part.chunks.flatten).length

def root (part : StoredPart) : Nat := part.table + 8 * part.chunks.length

theorem length_encode (part : StoredPart) : (encode part).length = part.root + rootSize := by
  simp only [encode, root, table, rootSize, List.length_append, length_encodedReferences,
    length_references, Archive.Reference.length_encode, Bytes.ofUInt32, Bytes.length_ofNat]

/-- The parts of a file at their positions. -/
structure Fields (part : StoredPart) (file : Bytes) : Prop where
  data : Placed part.chunks.flatten 0 file
  references : Placed ((references part.table 0 part.chunks).flatMap Archive.Reference.encode)
    part.table file
  version : Placed (Bytes.ofUInt32 part.version) part.root file
  typeTag : Placed (Bytes.ofUInt32 part.typeTag) (part.root + 4) file
  chunks : Placed (Archive.Reference.mk (part.root + 8) part.table part.chunks.length).encode
    (part.root + 8) file

theorem fields_of_placed {part : StoredPart} {file : Bytes} (whole : Placed (encode part) 0 file) :
    Fields part file := by
  unfold encode at whole
  have chunks := whole.right
  have typeTag := whole.left.right
  have version := whole.left.left.right
  have references := whole.left.left.left.right
  have data := whole.left.left.left.left
  have place : (Archive.align part.chunks.flatten).length = part.table := rfl
  simp only [place, List.length_append, length_encodedReferences, length_references, Nat.zero_add,
    Bytes.ofUInt32, Bytes.length_ofNat] at chunks typeTag version references
  exact ⟨data.left, references, version, typeTag, chunks⟩

/-- Chunks back to back in front of a table of references to them are read in order. -/
theorem decodeChunks?_placed {file : Bytes} {table address start : Nat} {chunks : List Bytes}
    (written : Placed ((references address start chunks).flatMap Archive.Reference.encode) address
      file)
    (data : Placed chunks.flatten start file) (inside : start + chunks.flatten.length ≤ table)
    (behind : table ≤ address) (near : address + 8 * chunks.length ≤ Archive.reach) :
    decodeChunks? file.toArray table chunks.length address start = some chunks := by
  induction chunks generalizing address start with
  | nil => rfl
  | cons chunk rest ih =>
      have reach : Archive.reach = 2147483648 := rfl
      simp only [List.flatten_cons, List.length_append, List.length_cons] at data inside near
      simp only [references, List.flatMap_cons] at written
      have others := written.right
      rw [Archive.Reference.length_encode] at others
      have later := ih others data.right (by omega) (by omega) (by omega)
      have resolved := Archive.Reference.resolve?_placed ⟨start, table⟩ 1 written.left
        (by simp only []; omega) (by simp only []; omega)
        (by simp only [Bytes.capacity_four]; omega) (Nat.le_refl _) (by simp only []; omega)
      have bytes := Archive.Reference.bytes_placed ⟨address, start, chunk.length⟩
        data.left rfl
      simp only [List.length_cons, decodeChunks?, resolved, later, bytes, Option.bind_eq_bind,
        Option.bind_some]
      rfl

theorem decode?_encode {part : StoredPart} (near : (encode part).length ≤ Archive.reach) :
    decode? (encode part) = some part := by
  obtain ⟨data, references, version, typeTag, chunks⟩ :=
    fields_of_placed (Placed.whole (encode part))
  have size := length_encode part
  have aligned : part.table % 4 = 0 := Archive.align_aligned _
  have front : part.chunks.flatten.length ≤ part.table := by
    rw [table, Archive.length_align]
    omega
  have place : part.root = part.table + 8 * part.chunks.length := rfl
  have found := Archive.rootAddress?_eq size (by omega)
  have reach : Archive.reach = 2147483648 := rfl
  unfold rootSize at size
  have resolved := Archive.Reference.resolve?_placed ⟨0, part.root⟩ 8 chunks
    (by simp only []; omega) (by simp only []; omega) (by simp only [Bytes.capacity_four]; omega)
    (Nat.zero_le _) (by simp only []; omega)
  have read := decodeChunks?_placed references data (by omega) (Nat.le_refl _) (by omega)
  simp only [decode?, found, version.readUInt32, typeTag.readUInt32, resolved, aligned, ne_eq,
    not_true_eq_false, if_false, read, Option.bind_eq_bind, Option.bind_some]
  cases part
  simp

end Columnar.StoredPart
