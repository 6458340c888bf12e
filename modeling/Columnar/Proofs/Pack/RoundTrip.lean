import Columnar.Proofs.Chunk.Compression
import Columnar.Proofs.Pack.Describing
import Columnar.Proofs.Read.Texts
import Mathlib

namespace Columnar.Pack

/-!
Packing and reading a relation.

Packing with the library's own schemes always succeeds in memory, and what it stores reads as the
relation.  With verification the second half needs nothing of the compressor: whatever bytes it
gave, those that were let through hold their chunks.
-/

def Cuts (options : PackOptions) (table : Relation) (chunk : InputChunk) : Prop :=
  ∃ ranges range index, plan options table = .ok ranges ∧ range ∈ ranges ∧
    table.inputChunk? range index = .ok (some chunk)

theorem cuts_chunkIn {options : PackOptions} {table : Relation} {ranges : List RowRange}
    {range : RowRange} {index : Nat} {column : Column} {values : Values} {bits : List Bool}
    (planned : plan options table = .ok ranges) (member : range ∈ ranges)
    (found : table.columns[index]? = some column)
    (filled : column.Filled table.tupleCount values bits) :
    Cuts options table (chunkIn values bits range) := by
  have inside := mem_plan planned member
  exact ⟨ranges, range, index, planned, member,
    table.inputChunk?_filled found filled (Nat.le_of_lt inside.some) inside.within⟩

/-- What the formats can count and refer to: columns and payload bytes are counted by 32-bit words,
and the archives of chunks and parts are no longer than their references reach. -/
structure Sized (codec : Codec) (options : PackOptions) (table : Relation) : Prop where
  columns : table.columns.length ≤ maxWord
  payloads : ∀ chunk, Cuts options table chunk → chunk.values.plainBytes ≤ maxWord
  chunks : ∀ chunk bytes, Cuts options table chunk → codec.compress chunk = .ok bytes →
    bytes.length ≤ Archive.reach
  parts : PartsReach codec options table

/-- The part of `Sized` that packing needs. -/
structure ChunksFit (codec : Codec) (options : PackOptions) (table : Relation) : Prop where
  payloads : ∀ chunk, Cuts options table chunk → chunk.values.plainBytes ≤ maxWord
  chunks : ∀ chunk bytes, Cuts options table chunk → codec.compress chunk = .ok bytes →
    bytes.length ≤ Archive.reach

theorem Sized.chunksFit {codec : Codec} {options : PackOptions} {table : Relation}
    (sized : Sized codec options table) : ChunksFit codec options table :=
  ⟨sized.payloads, sized.chunks⟩

/-- Three rows of integers, the second one null, beside a skipped column. -/
def threeRows : Relation :=
  ⟨[.ofParts "n" (some (.integers [7, integerPlaceholder, -1])) (.ofList [true, false, true]),
    .skipped "s"], 3⟩

def inPairs : PackOptions := { chunkRows := 2, verify := true }

theorem built_threeRows : threeRows.Built :=
  .add (.skipped "s")
    (.add
      (.ofParts "n" (some (.integers [7, integerPlaceholder, -1])) (.ofList [true, false, true]))
      .empty (Validity.represents_ofList [true, false, true]) rfl)
    Validity.represents_empty rfl

theorem plan_threeRows : plan inPairs threeRows = .ok [⟨0, 2⟩, ⟨2, 3⟩] := rfl

theorem partsReach_threeRows {codec : Codec} (length : Nat) (short : length ≤ Archive.reach)
    (lengths : ∀ directory, (partsOf codec inPairs threeRows directory [⟨0, 2⟩, ⟨2, 3⟩]).map
      (fun write => write.2.length) = [length]) : PartsReach codec inPairs threeRows := by
  intro directory ranges planned write member
  rw [plan_threeRows] at planned
  cases planned
  have among := List.mem_map_of_mem (f := fun write : Location × Bytes => write.2.length) member
  rw [lengths, List.mem_singleton] at among
  rw [among]
  exact short

theorem cuts_threeRows {chunk : InputChunk} (cut : Cuts inPairs threeRows chunk) :
    chunk = chunkIn (.integers [7, integerPlaceholder, -1]) [true, false, true] ⟨0, 2⟩ ∨
      chunk = chunkIn (.integers [7, integerPlaceholder, -1]) [true, false, true] ⟨2, 3⟩ := by
  obtain ⟨ranges, range, index, planned, member, taken⟩ := cut
  rw [plan_threeRows] at planned
  cases planned
  simp only [List.mem_cons, List.not_mem_nil, or_false] at member
  match index, taken with
  | 0, taken =>
      rcases member with rfl | rfl
      · cases taken
        exact .inl rfl
      · cases taken
        exact .inr rfl
  | 1, taken => rcases member with rfl | rfl <;> cases taken
  | index + 2, taken => rcases member with rfl | rfl <;> cases taken

theorem sized_threeRows : Sized (.cascade 3) inPairs threeRows := by
  refine ⟨by decide, ?_, ?_, partsReach_threeRows 120 (by decide) fun _ => by cbv⟩
  · intro chunk cut
    rcases cuts_threeRows cut with rfl | rfl <;> decide
  · intro chunk bytes cut compressed
    have first : ((Codec.cascade 3).compress (chunkIn (.integers [7, integerPlaceholder, -1])
        [true, false, true] ⟨0, 2⟩)).map List.length = .ok 48 := by cbv
    have second : ((Codec.cascade 3).compress (chunkIn (.integers [7, integerPlaceholder, -1])
        [true, false, true] ⟨2, 3⟩)).map List.length = .ok 40 := by cbv
    have short : bytes.length ≤ 48 := by
      rcases cuts_threeRows cut with rfl | rfl
      · rw [compressed] at first
        exact Nat.le_of_eq (Except.ok.inj first)
      · rw [compressed] at second
        have length : bytes.length = 40 := Except.ok.inj second
        omega
    exact Nat.le_trans short (by decide)

section Cascades

variable {options : PackOptions} {table : Relation} {before : Stores} {path : String}
  {place : Place} {ranges : List RowRange} {depth : Nat}

/-- Each chunk of a filled column is compressed to bytes that hold it. -/
theorem ChunksFit.compress_holds (fit : ChunksFit (.cascade depth) options table)
    {range : RowRange} {index : Nat} {column : Column} {values : Values} {bits : List Bool}
    (planned : plan options table = .ok ranges) (member : range ∈ ranges)
    (found : table.columns[index]? = some column)
    (filled : column.Filled table.tupleCount values bits) :
    ∃ bytes, (Codec.cascade depth).compress (chunkIn values bits range) = .ok bytes ∧
      (chunkIn values bits range).Holds .standard bytes := by
  have cut := cuts_chunkIn planned member found filled
  obtain ⟨bytes, compressed, holds⟩ := Cascade.compress_holds depth
    (Validity.represents_ofList (slice range.start range.stop bits))
    (length_slice_bits range filled.lengths) (fit.payloads _ cut)
  exact ⟨bytes, compressed, holds (fit.chunks _ _ cut compressed)⟩

theorem ChunksFit.chunksHold (fit : ChunksFit (.cascade depth) options table)
    (planned : plan options table = .ok ranges) :
    ChunksHold (.cascade depth) options table ranges := by
  rintro index column values bits range bytes found filled member ⟨chunkIndex, compressed⟩
  obtain ⟨held, given, holds⟩ := fit.compress_holds planned member found filled
  rw [compress_of_compressChunk compressed] at given
  cases given
  exact holds

theorem ChunksFit.ended (fit : ChunksFit (.cascade depth) options table)
    (sound : table.Sound) (planned : plan options table = .ok ranges) {directory : Location} :
    ∀ run ∈ Pack.columns (.cascade depth) options table directory ranges, run.Ended := by
  intro run member
  obtain ⟨index, column, found, rfl⟩ := mem_columns member
  cases data : column.values with
  | none =>
      have skipped : column.type = .skip := by rw [Column.type, data]
      obtain ⟨stats, done, -⟩ := (column_skip skipped).result
      exact ⟨stats, done⟩
  | some values =>
      obtain ⟨bits, filled⟩ := sound column (List.mem_of_getElem? found) values data
      obtain ⟨packed, all⟩ := packedRanges_ok 0 found filled
        (fun range => mem_plan planned) fun range member => by
          obtain ⟨bytes, compressed, holds⟩ := fit.compress_holds planned member found filled
          have kept := holds.of_reader
            ((inspect_cascade 3).trans (inspect_cascade depth).symm)
            ((decompress_cascade 3).trans (decompress_cascade depth).symm)
          exact ⟨bytes, compressChunk_ok (length_validity_chunkIn range filled.lengths) compressed
            kept options.verify index⟩
      obtain ⟨stats, done, -⟩ :=
        (column_gathered directory (Column.type_ne_skip data) all).result
      exact ⟨stats, done⟩

end Cascades

/-- Verification makes up for any compressor: when packing with it succeeds, every data column reads
as it was, whatever sink it is read into. -/
theorem verified_relation_restored {compress : InputChunk → Except ChunkError Bytes}
    {options : PackOptions} {table : Relation} {before after : Stores} {path : String}
    {report : PackReport} {index : Nat} {column : Column} {values : Values}
    (built : table.Built) (verify : options.verify = true) (few : table.columns.length ≤ maxWord)
    (reach : PartsReach ⟨compress, Cascade.inspect, Cascade.decompress⟩ options table)
    (done : relation ⟨compress, Cascade.inspect, Cascade.decompress⟩ options before path table =
      (.ok report, after))
    (found : table.columns[index]? = some column) (data : column.values = some values) :
    ∃ cells, cells.length = table.tupleCount ∧
      Read.Restores after path index values column.validity cells := by
  obtain ⟨place, ranges, resolved, stored⟩ := stored_of_ok done
  refine ⟨_, stored.restores resolved built.sound few reach found data ?_⟩
  rintro bits range bytes - filled ⟨chunkIndex, compressed⟩
  rw [verify] at compressed
  have holds := holds_of_compressChunk (length_validity_chunkIn range filled.lengths) compressed
  exact holds.of_reader (inspect_cascade 3).symm (decompress_cascade 3).symm

theorem verified_relation_restored_threeRows :
    ∃ report after cells,
      relation ⟨Cascade.compress 0, Cascade.inspect, Cascade.decompress⟩ inPairs (.empty "")
        "memory://t" threeRows = (.ok report, after) ∧
      Restored (.integers [7, integerPlaceholder, -1]) (.ofList [true, false, true]) cells ∧
      Read.column after "memory://t" 0 .text "" = .ok (3, textOf cells) := by
  have packed : (relation ⟨Cascade.compress 0, Cascade.inspect, Cascade.decompress⟩ inPairs
      (.empty "") "memory://t" threeRows).1.isOk = true := by decide +kernel
  cases result : relation ⟨Cascade.compress 0, Cascade.inspect, Cascade.decompress⟩ inPairs
      (.empty "") "memory://t" threeRows with
  | mk outcome after =>
      rw [result] at packed
      cases outcome with
      | error error => contradiction
      | ok report =>
          obtain ⟨cells, length, rows, -, hands⟩ := @verified_relation_restored _ _ _ _ _ _ _ 0 _ _
            built_threeRows rfl (by decide)
            (partsReach_threeRows 120 (by decide) fun _ => by cbv) result rfl rfl
          refine ⟨report, after, cells, rfl, rows, ?_⟩
          rw [hands, Sink.run_text, length]
          rfl

end Columnar.Pack
