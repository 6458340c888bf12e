import Columnar.Proofs.Chunk.Holding
import Columnar.Proofs.Pack.Groups
import Columnar.Proofs.Relation.Building
import Mathlib.Data.List.Forall2

namespace Columnar.Pack

/-!
Packing one column.

The ranges of a plan lie inside a filled column, so packing it can only fail where a chunk is
compressed or compared.  A column that ends well is in its parts: their chunks are what its ranges
were compressed to, in order.
-/

section Plans

variable {options : PackOptions} {relation : Relation} {ranges : List RowRange}

def chunkCount (options : PackOptions) (relation : Relation) : Nat :=
  (relation.tupleCount + options.chunkRows - 1) / options.chunkRows

theorem validate_ok (valid : options.validate = .ok ()) :
    0 < options.chunkRows ∧ options.chunkRows ≤ maxWord := by
  unfold PackOptions.validate at valid
  split at valid
  · contradiction
  split at valid
  · contradiction
  omega

theorem validate_of_plan (planned : plan options relation = .ok ranges) :
    options.validate = .ok () := by
  unfold plan at planned
  cases valid : options.validate with
  | error fault => simp [valid, bind, Except.bind] at planned
  | ok => rfl

theorem plan_ok (planned : plan options relation = .ok ranges) :
    0 < options.chunkRows ∧ ranges.length ≤ maxWord ∧
      ranges = plainRanges relation.tupleCount options.chunkRows (chunkCount options relation) := by
  unfold plan at planned
  cases valid : options.validate with
  | error fault => simp [valid, bind, Except.bind] at planned
  | ok =>
      cases cut : rowRanges relation.tupleCount options.chunkRows with
      | error fault => simp [valid, cut, bind, Except.bind] at planned
      | ok found =>
          simp only [valid, cut, mapError_ok, bind, Except.bind] at planned
          split at planned
          · contradiction
          rename_i few
          cases planned
          obtain ⟨positive, plain⟩ := rowRanges_ok cut
          exact ⟨positive, Nat.le_of_not_lt few, plain⟩

/-- Settings that are valid have a plan for some rows, unless it needs too many chunks. -/
theorem exists_plan (valid : options.validate = .ok ()) (some : 1 ≤ relation.tupleCount)
    (few : chunkCount options relation ≤ maxWord) :
    ∃ ranges, plan options relation = .ok ranges := by
  obtain ⟨positive, small⟩ := validate_ok valid
  have reach : chunkCount options relation * options.chunkRows < rowModulus :=
    Nat.lt_of_le_of_lt (Nat.mul_le_mul few small) (by decide)
  have cut := rowRanges_of_reach (Nat.ne_of_gt some) (Nat.ne_of_gt positive) reach
  have length : (plainRanges relation.tupleCount options.chunkRows
      (rangeCount relation.tupleCount options.chunkRows)).length ≤ maxWord := by
    rwa [plainRanges, List.length_map, List.length_range]
  exact ⟨_, by simp only [plan, valid, cut, mapError_ok, bind, Except.bind,
    if_neg (Nat.not_lt.mpr length)]; rfl⟩

theorem mem_plan {range : RowRange} (planned : plan options relation = .ok ranges)
    (member : range ∈ ranges) : range.Inside relation.tupleCount := by
  obtain ⟨positive, -, plain⟩ := plan_ok planned
  have small := (validate_ok (validate_of_plan planned)).2
  rw [plain] at member
  obtain ⟨ordered, within, short⟩ := mem_plainRanges positive (Nat.le_refl _) member
  exact ⟨ordered, within, Nat.le_trans short small⟩

end Plans

section Chunks

variable {codec : Codec} {chunk : InputChunk} {bytes : Bytes}

/-- Bytes that verification let through hold the chunk. -/
theorem holds_of_compressChunk {index chunkIndex : Nat}
    (lengths : chunk.validity.toList.length = chunk.tupleCount)
    (done : compressChunk codec true index chunkIndex chunk = .ok bytes) :
    chunk.Holds codec bytes := by
  unfold compressChunk at done
  split at done
  · contradiction
  rw [if_pos rfl] at done
  split at done
  · contradiction
  rename_i checked
  cases done
  exact (Verification.check_iff_holds lengths).mp checked

theorem compressChunk_ok (lengths : chunk.validity.toList.length = chunk.tupleCount)
    (compressed : codec.compress chunk = .ok bytes) (holds : chunk.Holds codec bytes)
    (verify : Bool) (index chunkIndex : Nat) :
    compressChunk codec verify index chunkIndex chunk = .ok bytes := by
  have checked := (Verification.check_iff_holds lengths).mpr holds
  cases verify with
  | false => simp only [compressChunk, compressed, Bool.false_eq_true, if_false]
  | true => simp only [compressChunk, compressed, checked, if_true]

theorem compress_of_compressChunk {verify : Bool} {index chunkIndex : Nat}
    (done : compressChunk codec verify index chunkIndex chunk = .ok bytes) :
    codec.compress chunk = .ok bytes := by
  unfold compressChunk at done
  split at done
  · contradiction
  rename_i compressed
  split at done
  · split at done
    · contradiction
    · cases done
      exact compressed
  · cases done
    exact compressed

end Chunks

section Ranges

variable {codec : Codec} {verify : Bool} {relation : Relation} {column : Column} {index : Nat}
  {values : Values} {bits : List Bool} {ranges : List RowRange}

/-- A range inside a filled column is packed to what its chunk is compressed to. -/
theorem packRange_filled (codec : Codec) (verify : Bool) (chunkIndex : Nat) {range : RowRange}
    (found : relation.columns[index]? = some column)
    (filled : column.Filled relation.tupleCount values bits)
    (inside : range.Inside relation.tupleCount) :
    ∃ size, packRange codec verify relation column index chunkIndex range =
      (compressChunk codec verify index chunkIndex (chunkIn values bits range)).map (size, ·) := by
  have taken := relation.inputChunk?_filled found filled (Nat.le_of_lt inside.some) inside.within
  refine ⟨(values.slice range.start range.stop).memoryBytes, ?_⟩
  simp only [packRange, taken, Column.sizeBytes_filled filled inside, mapError_ok, bind,
    Except.bind]
  cases compressChunk codec verify index chunkIndex (chunkIn values bits range) <;> rfl

/-- The bytes are what the chunk of a range was compressed to, at some place among the chunks. -/
def Compressed (codec : Codec) (verify : Bool) (index : Nat) (values : Values) (bits : List Bool)
    (range : RowRange) (bytes : Bytes) : Prop :=
  ∃ chunkIndex,
    compressChunk codec verify index chunkIndex (chunkIn values bits range) = .ok bytes

variable {chunkIndex : Nat}

theorem compressed_of_packedRanges {packed : List (Nat × Bytes)}
    (found : relation.columns[index]? = some column)
    (filled : column.Filled relation.tupleCount values bits)
    (inside : ∀ range ∈ ranges, range.Inside relation.tupleCount)
    (done : packedRanges codec verify relation column index chunkIndex ranges = .ok packed) :
    List.Forall₂ (Compressed codec verify index values bits) ranges (packed.map (·.2)) := by
  induction ranges generalizing chunkIndex packed with
  | nil =>
      cases done
      exact .nil
  | cons range rest ih =>
      rw [packedRanges] at done
      split at done
      · contradiction
      rename_i entry here
      split at done
      · contradiction
      rename_i others later
      cases done
      obtain ⟨size, packed⟩ := packRange_filled codec verify chunkIndex found filled
        (inside range (by simp))
      rw [packed] at here
      refine .cons ⟨chunkIndex, ?_⟩ (ih (fun other member => inside other (by simp [member])) later)
      cases compressed : compressChunk codec verify index chunkIndex
          (chunkIn values bits range) with
      | error error =>
          rw [compressed] at here
          contradiction
      | ok bytes =>
          rw [compressed] at here
          cases here
          rfl

theorem packedRanges_ok (chunkIndex : Nat) (found : relation.columns[index]? = some column)
    (filled : column.Filled relation.tupleCount values bits)
    (inside : ∀ range ∈ ranges, range.Inside relation.tupleCount)
    (each : ∀ range ∈ ranges, ∃ bytes, ∀ chunkIndex,
      compressChunk codec verify index chunkIndex (chunkIn values bits range) = .ok bytes) :
    ∃ packed, packedRanges codec verify relation column index chunkIndex ranges = .ok packed := by
  induction ranges generalizing chunkIndex with
  | nil => exact ⟨[], rfl⟩
  | cons range rest ih =>
      obtain ⟨bytes, compressed⟩ := each range (by simp)
      obtain ⟨size, packed⟩ := packRange_filled codec verify chunkIndex found filled
        (inside range (by simp))
      obtain ⟨others, later⟩ := ih (chunkIndex + 1)
        (fun other member => inside other (by simp [member]))
        fun other member => each other (by simp [member])
      refine ⟨(size, bytes) :: others, ?_⟩
      simp only [packedRanges, packed, compressed, Except.map, later]

end Ranges

section Runs

variable {codec : Codec} {options : PackOptions} {relation : Relation} {column : Column}
  {directory : Location} {ranges : List RowRange} {index : Nat} {values : Values} {bits : List Bool}

theorem gathers_start (directory : Location) (index : Nat) (name : String) (type : ColumnType)
    (maxBytes : Nat) :
    Progress.Gathers directory index type []
      ⟨.start index name type, .empty type maxBytes, []⟩ :=
  ⟨rfl, rfl, rfl, rfl, by simp, rfl⟩

theorem column_skip (skipped : column.type = .skip) :
    (Pack.column codec options relation directory ranges index column).Finished directory index
      column.type [] := by
  rw [Pack.column, if_pos skipped]
  exact ⟨rfl, _, rfl, rfl, rfl⟩

theorem budgets_start (index : Nat) (name : String) (type : ColumnType) (maxBytes : Nat) :
    Progress.Budgets maxBytes ⟨.start index name type, .empty type maxBytes, []⟩ := ⟨rfl, rfl⟩

theorem column_gathered (directory : Location) {packed : List (Nat × Bytes)}
    (data : column.type ≠ .skip)
    (done : packedRanges codec options.verify relation column index 0 ranges = .ok packed) :
    (Pack.column codec options relation directory ranges index column).Finished directory index
      column.type (gather options.partMaxBytes [] (packed.map (·.2))) := by
  rw [Pack.column, if_neg data]
  exact packRanges_gather done
    (gathers_start directory index column.name column.type options.partMaxBytes)
    (budgets_start index column.name column.type options.partMaxBytes)

/-- A data column that ended well has packed all its ranges. -/
theorem packedRanges_of_column {stats : ColumnStats} (data : column.type ≠ .skip)
    (done : (Pack.column codec options relation directory ranges index column).result = .ok stats) :
    ∃ packed, packedRanges codec options.verify relation column index 0 ranges = .ok packed := by
  rw [Pack.column, if_neg data] at done
  exact packedRanges_of_ok done
    (gathers_start directory index column.name column.type options.partMaxBytes)

/-- A data column that ended well has in its parts what its ranges were compressed to. -/
theorem column_compressed {stats : ColumnStats} (planned : plan options relation = .ok ranges)
    (found : relation.columns[index]? = some column)
    (filled : column.Filled relation.tupleCount values bits)
    (done : (Pack.column codec options relation directory ranges index column).result = .ok stats) :
    ∃ groups, (Pack.column codec options relation directory ranges index column).Finished directory
        index column.type groups ∧
      (∀ group ∈ groups, group ≠ []) ∧
      (∀ group ∈ groups, 2 ≤ group.length → groupBytes group ≤ options.partMaxBytes) ∧
      List.Forall₂ (Compressed codec options.verify index values bits) ranges groups.flatten := by
  have data := Column.type_ne_skip filled.data
  obtain ⟨packed, all⟩ := packedRanges_of_column data done
  refine ⟨_, column_gathered directory data all, fun _ => gather_ne_nil,
    fun _ => gather_within (by simp), ?_⟩
  rw [flatten_gather, List.nil_append]
  exact compressed_of_packedRanges found filled (fun range => mem_plan planned) all

end Runs

end Columnar.Pack
