import Columnar.Pack

namespace Columnar.Pack

/-!
The parts that packing a column writes.

Chunks are gathered in groups.  A group that is closed has been written as the next part, the open
one is in the builder, and all groups together are the chunks added so far, in order.  The last
group is written at the end.
-/

def partWrite (directory : Location) (column : Nat) (type : ColumnType) (group : List Bytes)
    (index : Nat) : Location × Bytes :=
  (directory.child (StoredFile.part column index).name,
    (StoredPart.mk StoredPart.currentVersion type.tag group).encode)

def partWrites (directory : Location) (column : Nat) (type : ColumnType)
    (groups : List (List Bytes)) : List (Location × Bytes) :=
  groups.zipIdx.map fun entry => partWrite directory column type entry.1 entry.2

theorem partWrites_append (directory : Location) (column : Nat) (type : ColumnType)
    (groups : List (List Bytes)) (group : List Bytes) :
    partWrites directory column type (groups ++ [group]) =
      partWrites directory column type groups ++
        [partWrite directory column type group groups.length] := by
  simp [partWrites, List.zipIdx_append]

/-- A column on its way: the closed groups are written, none of them empty. -/
structure Progress.Gathers (directory : Location) (column : Nat) (type : ColumnType)
    (groups : List (List Bytes)) (progress : Progress) : Prop where
  ofColumn : progress.stats.column = column
  ofType : progress.stats.type = type
  partType : progress.part.type = type
  counted : progress.stats.parts = groups.length
  filled : ∀ group ∈ groups, group ≠ []
  written : progress.writes.reverse = partWrites directory column type groups

section Steps

variable {directory : Location} {column : Nat} {type : ColumnType} {groups : List (List Bytes)}
  {progress : Progress}

theorem Progress.Gathers.flush (gathers : progress.Gathers directory column type groups)
    (open_ : progress.part.isEmpty = false) :
    (progress.flush directory).Gathers directory column type
      (groups ++ [progress.part.chunks.toList]) := by
  obtain ⟨columnEq, typeEq, partType, parts, filled, writes⟩ := gathers
  refine ⟨columnEq, typeEq, partType, ?_, ?_, ?_⟩
  · simp [Progress.flush, parts]
  · intro group member
    rcases List.mem_append.mp member with before | new
    · exact filled group before
    · rw [List.mem_singleton.mp new]
      intro none
      simp [PartBuilder.isEmpty, Array.toList_eq_nil_iff.mp none] at open_
  · simp only [Progress.flush, List.reverse_cons, writes, partWrites_append, PartBuilder.toStored,
      columnEq, partType, parts, partWrite]

theorem Progress.Gathers.add_room (gathers : progress.Gathers directory column type groups)
    (size : Nat) {chunk : Bytes} (room : progress.part.canAdd chunk.length = true) :
    (progress.add directory size chunk).Gathers directory column type groups ∧
      (progress.add directory size chunk).part = progress.part.add chunk := by
  obtain ⟨columnEq, typeEq, partType, parts, filled, writes⟩ := gathers
  simp only [Progress.add, room, if_true, and_true]
  exact ⟨columnEq, typeEq, partType, parts, filled, writes⟩

theorem Progress.Gathers.add_full (gathers : progress.Gathers directory column type groups)
    (size : Nat) {chunk : Bytes} (full : progress.part.canAdd chunk.length = false) :
    (progress.add directory size chunk).Gathers directory column type
        (groups ++ [progress.part.chunks.toList]) ∧
      (progress.add directory size chunk).part = progress.part.clear.add chunk := by
  let counted : Progress := { progress with stats := { progress.stats with
    chunks := progress.stats.chunks + 1
    uncompressedBytes := progress.stats.uncompressedBytes + size
    compressedBytes := progress.stats.compressedBytes + chunk.length } }
  have same : counted.Gathers directory column type groups :=
    ⟨gathers.ofColumn, gathers.ofType, gathers.partType, gathers.counted, gathers.filled,
      gathers.written⟩
  have open_ : counted.part.isEmpty = false := by
    rw [PartBuilder.canAdd, Bool.or_eq_false_iff] at full
    exact full.1
  obtain ⟨columnEq, typeEq, partType, parts, filled, writes⟩ := same.flush open_
  simp only [Progress.add, full, Bool.false_eq_true, if_false]
  exact ⟨⟨columnEq, typeEq, partType, parts, filled, writes⟩, rfl⟩

/-- Adding a chunk puts it behind all others, in the open group or in a new one. -/
theorem Progress.Gathers.add (gathers : progress.Gathers directory column type groups) (size : Nat)
    (chunk : Bytes) :
    ∃ closed, (progress.add directory size chunk).Gathers directory column type closed ∧
      closed.flatten ++ (progress.add directory size chunk).part.chunks.toList =
        groups.flatten ++ progress.part.chunks.toList ++ [chunk] := by
  cases room : progress.part.canAdd chunk.length with
  | true =>
      obtain ⟨added, part⟩ := gathers.add_room size room
      refine ⟨groups, added, ?_⟩
      rw [part]
      simp [PartBuilder.add]
  | false =>
      obtain ⟨added, part⟩ := gathers.add_full size room
      refine ⟨groups ++ [progress.part.chunks.toList], added, ?_⟩
      rw [part]
      simp [PartBuilder.add, PartBuilder.clear, PartBuilder.empty]

end Steps

structure ColumnRun.Finished (run : ColumnRun) (directory : Location) (index : Nat)
    (type : ColumnType) (groups : List (List Bytes)) : Prop where
  writes : run.writes = partWrites directory index type groups
  result : ∃ stats, run.result = .ok stats ∧ stats.type = type ∧ stats.parts = groups.length

/-- The sizes and bytes of the chunks of ranges, from a chunk index on. -/
def packedRanges (codec : Codec) (verify : Bool) (relation : Relation) (column : Column)
    (columnIndex : Nat) : Nat → List RowRange → Except Error (List (Nat × Bytes))
  | _, [] => .ok []
  | chunkIndex, range :: rest =>
      match packRange codec verify relation column columnIndex chunkIndex range with
      | .error error => .error error
      | .ok packed =>
          match packedRanges codec verify relation column columnIndex (chunkIndex + 1) rest with
          | .error error => .error error
          | .ok others => .ok (packed :: others)

section Runs

variable {codec : Codec} {verify : Bool} {relation : Relation} {column : Column}
  {directory : Location} {index : Nat} {type : ColumnType} {groups : List (List Bytes)}
  {progress : Progress}

theorem packedRanges_of_ok {chunkIndex : Nat} {ranges : List RowRange} {stats : ColumnStats}
    (done : (packRanges codec verify relation column directory chunkIndex ranges progress).result =
      .ok stats)
    (gathers : progress.Gathers directory index type groups) :
    ∃ packed, packedRanges codec verify relation column index chunkIndex ranges = .ok packed := by
  induction ranges generalizing chunkIndex groups progress with
  | nil => exact ⟨[], rfl⟩
  | cons range rest ih =>
      rw [packRanges, gathers.ofColumn] at done
      split at done
      · contradiction
      rename_i size bytes here
      obtain ⟨closed, added, -⟩ := gathers.add size bytes
      obtain ⟨others, later⟩ := ih done added
      exact ⟨(size, bytes) :: others, by simp only [packedRanges, here, later]⟩

end Runs

end Columnar.Pack
