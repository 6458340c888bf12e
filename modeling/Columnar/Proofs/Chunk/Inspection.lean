import Columnar.Chunk.Cascade

namespace Columnar.Cascade

/-!
Inspected chunks.

What inspection accepts is an archive whose bitmap covers the rows.  Expanding it can then fail only
because the chunk is corrupt, as long as its type is one that has data.
-/

theorem inspect_ok {bytes : Bytes} {header : ChunkHeader} (read : inspect bytes = .ok header) :
    ∃ stored, StoredChunk.decode? bytes = some stored ∧
      header = ⟨stored.typeTag, stored.tupleCount, stored.bitmap⟩ := by
  unfold inspect at read
  split at read
  · contradiction
  rename_i stored archive
  split at read
  · contradiction
  · cases read
    exact ⟨stored, archive, rfl⟩

theorem dataType_tag {type : ColumnType} (data : type ≠ .skip) : dataType type.tag = .ok type := by
  unfold dataType
  rw [ColumnType.ofTag?_tag]
  cases type with
  | skip => contradiction
  | integer => rfl
  | double => rfl
  | string => rfl

theorem payloadOf_error {stored : StoredChunk} {error : ChunkError}
    (failed : payloadOf stored = .error error) : ∃ cause, error = .corrupt cause := by
  unfold payloadOf at failed
  split at failed
  · split at failed
    · contradiction
    · rename_i fault _
      cases failed
      exact ⟨.lz4 fault, rfl⟩
  · contradiction

theorem decompress_error {bytes : Bytes} {stored : StoredChunk} {type : ColumnType}
    {error : ChunkError} (archive : StoredChunk.decode? bytes = some stored)
    (tag : stored.typeTag = type.tag) (data : type ≠ .skip)
    (failed : decompress bytes = .error error) : ∃ cause, error = .corrupt cause := by
  simp only [decompress, archive, tag, dataType_tag data, bind, Except.bind] at failed
  split at failed
  · cases failed
    exact ⟨_, rfl⟩
  split at failed
  · rename_i cause refused
    cases failed
    exact payloadOf_error refused
  split at failed
  · contradiction
  · cases failed
    exact ⟨_, rfl⟩

end Columnar.Cascade
