import Columnar.Proofs.Chunk.Depths
import Columnar.Proofs.Pack.Columns
import Columnar.Proofs.Relation.Ranges
import Columnar.Proofs.Relation.Reaching
import Columnar.Read.Sink
import Mathlib.Data.List.Forall2

namespace Columnar

/-!
Cutting a relation into chunks.

Whatever was added to a relation and whatever was refused, its ranges lie inside every data column.
A range then cuts the same rows out of the values and out of the validity bits, and the chunks of
all ranges together are the column.
-/

/-- A chunk of as many bits as values is not refused for their numbers. -/
theorem Cascade.compress_ne_validityCount {chunk : InputChunk} (depth : Nat)
    (lengths : chunk.validity.length = chunk.tupleCount) (values bits : Nat) :
    compress depth chunk ≠ .error (.corrupt (.validityCount values bits)) := by
  by_cases counted : chunk.values.Counted
  · obtain ⟨stored, done⟩ := exists_toStored depth lengths counted
    simp [compress, done, Except.map]
  · obtain ⟨error, refused, cause⟩ := toStored_error depth lengths counted
    cases cause <;> simp [compress, refused, Except.map]

/-- What a range cuts out of a data column: its rows of the values and of the validity bits. -/
structure CutOut (relation : Relation) (index : Nat) (values : Values) (validity : Validity)
    (range : RowRange) (chunk : InputChunk) : Prop where
  taken : relation.inputChunk? range index = .ok (some chunk)
  type : chunk.type = values.type
  cells : chunk.values.cells = slice range.start range.stop values.cells
  bits : chunk.validity.toList = slice range.start range.stop validity.toList
  rows : chunk.tupleCount = range.stop - range.start
  lengths : chunk.validity.length = chunk.tupleCount
  accepted : ∀ depth values bits,
    Cascade.compress depth chunk ≠ .error (.corrupt (.validityCount values bits))

section Cuts

variable {relation : Relation} {column : Column} {index : Nat} {values : Values}
  {bits : List Bool} {range : RowRange}

theorem Column.Filled.cutOut (filled : column.Filled relation.tupleCount values bits)
    (found : relation.columns[index]? = some column) (ordered : range.start ≤ range.stop)
    (inside : range.stop ≤ relation.tupleCount) :
    CutOut relation index values column.validity range (chunkIn values bits range) := by
  have part := Validity.represents_ofList (slice range.start range.stop bits)
  have lengths : (chunkIn values bits range).validity.length =
      (chunkIn values bits range).tupleCount :=
    part.length.trans (length_slice_bits range filled.lengths)
  have rows : (slice range.start range.stop bits).length = range.stop - range.start :=
    length_slice _ _ _ (by rwa [filled.bitCount])
  exact {
    taken := Relation.inputChunk?_filled found filled ordered inside
    type := type_chunkIn values bits range
    cells := cells_slice values range.start range.stop
    bits := by rw [filled.represents.toList]; exact part.toList
    rows := (length_slice_bits range filled.lengths).symm.trans rows
    lengths
    accepted := fun depth => Cascade.compress_ne_validityCount depth lengths }

/-- The values of a column stand in one block of memory, which has at least a byte for each row.
Valid settings cut so many rows into ranges whose ends never overflow. -/
theorem rowRanges_of_valid {options : PackOptions} {tupleCount : Nat}
    (valid : options.validate = .ok ()) (addressed : tupleCount ≤ Sink.maxBlock)
    (rows : 0 < tupleCount) :
    rowRanges tupleCount options.chunkRows =
      .ok (plainRanges tupleCount options.chunkRows (rangeCount tupleCount options.chunkRows)) := by
  obtain ⟨perChunk, small⟩ := Pack.validate_ok valid
  refine rowRanges_of_reach (Nat.ne_of_gt rows) (Nat.ne_of_gt perChunk) ?_
  have close := (rangeCount_bounds tupleCount perChunk).2
  simp only [Sink.maxBlock, maxWord, rowModulus] at addressed small ⊢
  omega

end Cuts

namespace Relation

/-- In a relation that additions led to, every data column has a value and a validity bit for each
row.  Under valid settings its ranges cut every data column into chunks of as many values as bits,
none of which the cascade refuses for their numbers, and the chunks together are the column. -/
theorem reached_cut {relation : Relation} (reached : relation.Reached) :
    (∀ column ∈ relation.columns, ∀ values, column.values = some values →
      values.length = relation.tupleCount ∧ column.validity.length = relation.tupleCount) ∧
    ∀ options : PackOptions, options.validate = .ok () → relation.tupleCount ≤ Sink.maxBlock →
      0 < relation.tupleCount → ∃ ranges,
      rowRanges relation.tupleCount options.chunkRows = .ok ranges ∧
      ∀ index column values, relation.columns[index]? = some column →
        column.values = some values → ∃ chunks,
          List.Forall₂ (CutOut relation index values column.validity) ranges chunks ∧
          chunks.flatMap (fun chunk => chunk.values.cells) = values.cells ∧
          chunks.flatMap (fun chunk => chunk.validity.toList) = column.validity.toList := by
  refine ⟨fun column member values data => ?_, fun options valid addressed rows => ?_⟩
  · obtain ⟨bits, filled⟩ := reached.sound column member values data
    exact ⟨filled.valueCount, filled.represents.length.trans filled.bitCount⟩
  · have perChunk := (Pack.validate_ok valid).1
    refine ⟨_, rowRanges_of_valid valid addressed rows, fun index column values found data => ?_⟩
    obtain ⟨bits, filled⟩ := reached.sound column (List.mem_of_getElem? found) values data
    have cut : ∀ range ∈ plainRanges relation.tupleCount options.chunkRows
        (rangeCount relation.tupleCount options.chunkRows),
        CutOut relation index values column.validity range (chunkIn values bits range) := by
      intro range member
      obtain ⟨ordered, inside, -⟩ := mem_plainRanges perChunk (Nat.le_refl _) member
      exact filled.cutOut found (Nat.le_of_lt ordered) inside
    refine ⟨(plainRanges _ _ _).map (chunkIn values bits),
      List.forall₂_map_right_iff.mpr (List.forall₂_same.mpr cut), ?_, ?_⟩
    · rw [List.flatMap_map, List.flatMap_congr fun range member => (cut range member).cells]
      exact flatMap_slices (by rw [Values.length_cells, filled.valueCount]) perChunk
    · rw [List.flatMap_map, List.flatMap_congr fun range member => (cut range member).bits]
      exact flatMap_slices (by rw [filled.represents.toList, filled.bitCount]) perChunk

/-- Three rows that are added behind a refused column and a skipped one. -/
def behindRefused : Relation :=
  ((Relation.empty.addColumn shortValidity).2.addColumn (.skipped "s")).2.addColumn
    (.ofParts "n" (some (.integers [7, 0, -1])) (.ofList [true, false, true])) |>.2

theorem reached_behindRefused : behindRefused.Reached :=
  .add _ (.add _ (.add _ .empty (Validity.represents_ofList [true])) Validity.represents_empty)
    (Validity.represents_ofList [true, false, true])

theorem reached_cut_behindRefused :
    ∃ ranges chunks, rowRanges behindRefused.tupleCount 2 = .ok ranges ∧
      List.Forall₂ (CutOut behindRefused 1 (.integers [7, 0, -1]) (.ofList [true, false, true]))
        ranges chunks ∧
      chunks.flatMap (fun chunk => chunk.values.cells) =
        [.integer 7, .integer 0, .integer (-1)] ∧
      chunks.flatMap (fun chunk => chunk.validity.toList) = [true, false, true] := by
  obtain ⟨ranges, cut, columns⟩ :=
    (reached_cut reached_behindRefused).2 { chunkRows := 2 } rfl (by decide) (by decide)
  obtain ⟨chunks, parts, values, bits⟩ := columns 1 _ _ rfl rfl
  exact ⟨ranges, chunks, cut, parts, values, bits⟩

end Relation

end Columnar
