import Columnar.Options
import Columnar.Proofs.Bytes.Reading
import Columnar.Proofs.Column.Rows
import Columnar.Proofs.Column.Validity
import Columnar.Proofs.Errors
import Columnar.Relation

namespace Columnar

/-!
Relations that were built column by column, and how they are cut.

In a built relation every data column has a value and a validity bit for each row.  The ranges of
rows then lie inside every column, follow each other without gap or overlap, and the chunks that
they cut out of a column are together the column.
-/

/-- A data column of so many rows: its values, and the bits that its validity stands for. -/
structure Column.Filled (column : Column) (rows : Nat) (values : Values) (bits : List Bool) :
    Prop where
  data : column.values = some values
  represents : column.validity.Represents bits
  valueCount : values.length = rows
  bitCount : bits.length = rows

theorem Column.Filled.lengths {column : Column} {rows : Nat} {values : Values} {bits : List Bool}
    (filled : column.Filled rows values bits) : bits.length = values.length :=
  filled.bitCount.trans filled.valueCount.symm

namespace Relation

/-- Relations that adding columns leads to, when every addition succeeds. -/
inductive Built : Relation → Prop
  | empty : Built .empty
  | add {relation next : Relation} (column : Column) {bits : List Bool} (built : Built relation)
      (represents : column.validity.Represents bits)
      (added : relation.addColumn column = (.ok (), next)) : Built next

def Sound (relation : Relation) : Prop :=
  ∀ column ∈ relation.columns, ∀ values, column.values = some values →
    ∃ bits, column.Filled relation.tupleCount values bits

theorem hasData_of_mem {relation : Relation} {column : Column} {values : Values}
    (member : column ∈ relation.columns) (data : column.values = some values) :
    relation.hasData = true := by
  refine List.any_eq_true.mpr ⟨column, member, ?_⟩
  exact decide_eq_true (Column.type_ne_skip data)

/-- All that adding a column can lead to. -/
inductive Adds (relation : Relation) (column : Column) :
    Except LengthMismatch Unit × Relation → Prop
  | skipped (none : column.values = none) :
      Adds relation column (.ok (), { relation with columns := relation.columns ++ [column] })
  | taken {values : Values} (data : column.values = some values)
      (fits : relation.hasData = true → values.length = relation.tupleCount)
      (bits : column.validity.length = values.length) :
      Adds relation column (.ok (), ⟨relation.columns ++ [column], values.length⟩)
  | valueCount {values : Values} (data : column.values = some values)
      (some : relation.hasData = true) (differs : values.length ≠ relation.tupleCount) :
      Adds relation column
        (.error ⟨column.name, relation.tupleCount, values.length⟩, relation)
  | bitCount {values : Values} (data : column.values = some values)
      (fits : relation.hasData = true → values.length = relation.tupleCount)
      (differs : column.validity.length ≠ values.length) :
      Adds relation column
        (.error ⟨column.name ++ " (validity)", values.length, column.validity.length⟩,
          ⟨relation.columns, values.length⟩)

theorem adds_addColumn (relation : Relation) (column : Column) :
    relation.Adds column (relation.addColumn column) := by
  cases data : column.values with
  | none =>
      simp only [addColumn, data]
      exact .skipped data
  | some values =>
      simp only [addColumn, data]
      split
      · rename_i mismatch
        exact .valueCount data mismatch.1 mismatch.2
      · rename_i matching
        have fits : relation.hasData = true → values.length = relation.tupleCount :=
          fun some => Decidable.not_not.mp fun differs => matching ⟨some, differs⟩
        split
        · rename_i differs
          exact .bitCount data fits differs
        · rename_i same
          exact .taken data fits (Decidable.not_not.mp same)

theorem Sound.addColumn {relation next : Relation} {column : Column} {bits : List Bool}
    (sound : relation.Sound) (represents : column.validity.Represents bits)
    (added : relation.addColumn column = (.ok (), next)) : next.Sound := by
  have outcome := relation.adds_addColumn column
  rw [added] at outcome
  intro other member otherValues otherData
  cases outcome with
  | skipped none =>
      rcases List.mem_append.mp member with before | new
      · exact sound other before otherValues otherData
      · rw [List.mem_singleton.mp new, none] at otherData
        contradiction
  | taken data fits bitCount =>
      rcases List.mem_append.mp member with before | new
      · rw [fits (hasData_of_mem before otherData)]
        exact sound other before otherValues otherData
      · obtain rfl := List.mem_singleton.mp new
        rw [data] at otherData
        cases otherData
        exact ⟨bits, data, represents, rfl, represents.length.symm.trans bitCount⟩

theorem columns_addColumn {relation next : Relation} {column : Column}
    (added : relation.addColumn column = (.ok (), next)) :
    next.columns = relation.columns ++ [column] := by
  have outcome := relation.adds_addColumn column
  rw [added] at outcome
  cases outcome <;> rfl

theorem Built.sound {relation : Relation} (built : Built relation) : relation.Sound := by
  induction built with
  | empty =>
      intro column member
      simp [Relation.empty] at member
  | add column built represents added ih => exact ih.addColumn represents added

end Relation

section Ranges

variable {tupleCount chunkRows : Nat} {ranges : List RowRange}

/-- The number of chunks of so many rows each that hold all rows. -/
def rangeCount (tupleCount chunkRows : Nat) : Nat := (tupleCount + chunkRows - 1) / chunkRows

/-- The ranges of so many rows each, the last one cut off. -/
def plainRanges (tupleCount chunkRows count : Nat) : List RowRange :=
  (List.range count).map fun index =>
    ⟨index * chunkRows, min (index * chunkRows + chunkRows) tupleCount⟩

/-- All ranges together have at least as many rows as there are, and less than a chunk more. -/
theorem rangeCount_bounds (tupleCount : Nat) (perChunk : 0 < chunkRows) :
    tupleCount ≤ rangeCount tupleCount chunkRows * chunkRows ∧
      rangeCount tupleCount chunkRows * chunkRows < tupleCount + chunkRows := by
  have whole := Nat.div_add_mod (tupleCount + chunkRows - 1) chunkRows
  have rest := Nat.mod_lt (tupleCount + chunkRows - 1) perChunk
  rw [Nat.mul_comm, ← rangeCount] at whole
  omega

theorem rangeAt_ok {start : Nat} (fits : start + chunkRows < rowModulus) :
    rangeAt tupleCount chunkRows start = .ok ⟨start, min (start + chunkRows) tupleCount⟩ :=
  if_neg (Nat.not_le.mpr fits)

theorem rangeAt_overflow {start : Nat} (beyond : rowModulus ≤ start + chunkRows) :
    rangeAt tupleCount chunkRows start = .error (.overflow .rangeEnd) := if_pos beyond

theorem rowRanges_eq (rows : tupleCount ≠ 0) (perChunk : chunkRows ≠ 0) :
    rowRanges tupleCount chunkRows =
      (List.range (rangeCount tupleCount chunkRows)).mapM fun index =>
        rangeAt tupleCount chunkRows (index * chunkRows) :=
  if_neg (not_or.mpr ⟨rows, perChunk⟩)

/-- No end of a range overflows while the rows of all ranges, cut off or not, are a word. -/
theorem rowRanges_of_reach (rows : tupleCount ≠ 0) (perChunk : chunkRows ≠ 0)
    (reach : rangeCount tupleCount chunkRows * chunkRows < rowModulus) :
    rowRanges tupleCount chunkRows =
      .ok (plainRanges tupleCount chunkRows (rangeCount tupleCount chunkRows)) := by
  rw [rowRanges_eq rows perChunk, plainRanges]
  refine mapM_eq_ok fun index member => rangeAt_ok ?_
  have bound : (index + 1) * chunkRows ≤ rangeCount tupleCount chunkRows * chunkRows :=
    Nat.mul_le_mul_right _ (List.mem_range.mp member)
  rw [Nat.add_mul, Nat.one_mul] at bound
  exact Nat.lt_of_le_of_lt bound reach

/-- Otherwise the last one does. -/
theorem rowRanges_overflow (rows : tupleCount ≠ 0) (perChunk : chunkRows ≠ 0)
    (beyond : rowModulus ≤ rangeCount tupleCount chunkRows * chunkRows) :
    rowRanges tupleCount chunkRows = .error (.overflow .rangeEnd) := by
  obtain ⟨count, more⟩ : ∃ count, rangeCount tupleCount chunkRows = count + 1 :=
    Nat.exists_eq_succ_of_ne_zero fun none => by
      rw [none, Nat.zero_mul] at beyond
      contradiction
  rw [rowRanges_eq rows perChunk]
  refine mapM_eq_error (fun index _ => ?_) ⟨count, List.mem_range.mpr (by omega), ?_⟩
  · rcases Nat.lt_or_ge (index * chunkRows + chunkRows) rowModulus with fits | wide
    · exact .inl ⟨_, rangeAt_ok fits⟩
    · exact .inr (rangeAt_overflow wide)
  · rw [more, Nat.add_mul, Nat.one_mul] at beyond
    exact rangeAt_overflow beyond

/-- Ranges that were cut are the plain ones. -/
theorem rowRanges_ok (cut : rowRanges tupleCount chunkRows = .ok ranges) :
    0 < chunkRows ∧ ranges = plainRanges tupleCount chunkRows (rangeCount tupleCount chunkRows) := by
  by_cases none : tupleCount = 0 ∨ chunkRows = 0
  · rw [rowRanges, if_pos none] at cut
    contradiction
  obtain ⟨rows, perChunk⟩ := not_or.mp none
  rcases Nat.lt_or_ge (rangeCount tupleCount chunkRows * chunkRows) rowModulus with reach | beyond
  · rw [rowRanges_of_reach rows perChunk reach] at cut
    cases cut
    exact ⟨Nat.pos_of_ne_zero perChunk, rfl⟩
  · rw [rowRanges_overflow rows perChunk beyond] at cut
    contradiction

/-- A range holds some of the rows, and no more of them than a word counts. -/
structure RowRange.Inside (range : RowRange) (rows : Nat) : Prop where
  some : range.start < range.stop
  within : range.stop ≤ rows
  short : range.stop - range.start ≤ maxWord

variable {range : RowRange}

/-- A range lies inside the rows and is not empty. -/
theorem mem_plainRanges {count : Nat} (positive : 0 < chunkRows)
    (enough : count ≤ rangeCount tupleCount chunkRows)
    (member : range ∈ plainRanges tupleCount chunkRows count) :
    range.start < range.stop ∧ range.stop ≤ tupleCount ∧ range.stop - range.start ≤ chunkRows := by
  obtain ⟨index, inside, rfl⟩ := List.mem_map.mp member
  have bound : index + 1 ≤ rangeCount tupleCount chunkRows := by
    have below := List.mem_range.mp inside
    omega
  have reach := (Nat.le_div_iff_mul_le positive).mp bound
  rw [Nat.add_mul, Nat.one_mul] at reach
  simp only []
  omega

theorem slice_min {α : Type} (list : List α) (start width : Nat) :
    slice start (min (start + width) list.length) list = (list.drop start).take width := by
  by_cases inside : start + width ≤ list.length
  · rw [Nat.min_eq_left inside, slice, Nat.add_sub_cancel_left]
  · rw [Nat.min_eq_right (by omega), slice, List.take_of_length_le (by simp),
      List.take_of_length_le (by simp only [List.length_drop]; omega)]

/-- The slices of a list along the ranges of its length are the list. -/
theorem flatMap_slices {α : Type} {list : List α} (length : list.length = tupleCount)
    (positive : 0 < chunkRows) :
    (plainRanges tupleCount chunkRows (rangeCount tupleCount chunkRows)).flatMap
      (fun range => slice range.start range.stop list) = list := by
  have front : ∀ count, (plainRanges tupleCount chunkRows count).flatMap
      (fun range => slice range.start range.stop list) = list.take (count * chunkRows) := by
    intro count
    induction count with
    | zero => simp [plainRanges]
    | succ count ih =>
        have step : plainRanges tupleCount chunkRows (count + 1) =
            plainRanges tupleCount chunkRows count ++
              [⟨count * chunkRows, min (count * chunkRows + chunkRows) tupleCount⟩] := by
          simp [plainRanges, List.range_succ]
        rw [step, List.flatMap_append, ih, Nat.add_mul, Nat.one_mul, List.take_add]
        simp only [List.flatMap_cons, List.flatMap_nil, List.append_nil]
        rw [← length, slice_min]
  rw [front]
  apply List.take_of_length_le
  rw [length]
  exact (rangeCount_bounds tupleCount positive).1

end Ranges

section Chunks

variable {column : Column} {rows : Nat} {values : Values} {bits : List Bool} {range : RowRange}

/-- The chunk that a range cuts out of values under bits. -/
def chunkIn (values : Values) (bits : List Bool) (range : RowRange) : InputChunk :=
  ⟨values.slice range.start range.stop, .ofList (slice range.start range.stop bits)⟩

theorem type_chunkIn (values : Values) (bits : List Bool) (range : RowRange) :
    (chunkIn values bits range).type = values.type := by
  cases values <;> rfl

theorem slice_eq_drop_take {α : Type} (start stop : Nat) (list : List α) :
    slice start stop list = (list.take stop).drop start := by
  rw [slice, List.drop_take]

theorem cells_slice (values : Values) (start stop : Nat) :
    (values.slice start stop).cells = slice start stop values.cells := by
  cases values <;> simp [Values.slice, Values.cells, slice]

theorem Relation.inputChunk?_filled {relation : Relation} {index : Nat}
    (found : relation.columns[index]? = some column)
    (filled : column.Filled rows values bits) (ordered : range.start ≤ range.stop)
    (inside : range.stop ≤ rows) :
    relation.inputChunk? range index = .ok (some (chunkIn values bits range)) := by
  have bounds : range.start ≤ range.stop ∧ range.stop ≤ values.length := by
    rw [filled.valueCount]
    exact ⟨ordered, inside⟩
  have slice := filled.represents.slice range.start range.stop
  rw [← slice_eq_drop_take] at slice
  simp only [Relation.inputChunk?, found, filled.data, Column.valuesIn, Column.checkRange,
    if_pos bounds, slice, bind, Except.bind]
  rfl

theorem rows_chunkIn (values : Values) (bits : List Bool) (range : RowRange) :
    (chunkIn values bits range).rows =
      slice range.start range.stop (Column.rowsOf values (.ofList bits)) := by
  have part := (Validity.represents_ofList (slice range.start range.stop bits)).toList
  have whole := (Validity.represents_ofList bits).toList
  simp only [InputChunk.rows, Column.rowsOf, chunkIn, cells_slice, part, whole]
  rw [slice, slice, slice, List.zip_eq_zipWith, List.zip_eq_zipWith, ← List.take_zipWith,
    ← List.drop_zipWith, List.map_take, List.map_drop]

theorem length_slice_bits {values : Values} {bits : List Bool} (range : RowRange)
    (lengths : bits.length = values.length) :
    (slice range.start range.stop bits).length = (chunkIn values bits range).tupleCount := by
  cases values <;>
    simp only [slice, chunkIn, InputChunk.tupleCount, Values.slice, Values.length, List.length_take,
      List.length_drop] at * <;> rw [lengths]

theorem length_validity_chunkIn {values : Values} {bits : List Bool} (range : RowRange)
    (lengths : bits.length = values.length) :
    (chunkIn values bits range).validity.toList.length =
      (chunkIn values bits range).tupleCount := by
  rw [← length_slice_bits range lengths, chunkIn, (Validity.represents_ofList _).toList]

/-- The bytes that values take in memory. -/
def Values.memoryBytes : Values → Nat
  | .integers list => 4 * list.length
  | .doubles list => 8 * list.length
  | .strings list => total (list.map fun text => text.utf8ByteSize + 4)

/-- The size of a range is that of its values. -/
theorem Column.sizeBytes_filled (filled : column.Filled rows values bits)
    (inside : range.Inside rows) :
    column.sizeBytes range = .ok (values.slice range.start range.stop).memoryBytes := by
  have count := filled.valueCount
  have ordered := Nat.le_of_lt inside.some
  have within := inside.within
  have numbers (width : Nat) (narrow : width ≤ 8) :
      slotBytes width rows range = .ok ((range.stop - range.start) * width) := by
    have most := Nat.mul_le_mul inside.short narrow
    exact if_pos ⟨ordered, Nat.lt_of_le_of_lt most (by decide)⟩
  rw [sizeBytes, filled.data]
  cases values with
  | integers list =>
      simp only [Values.length] at count
      simp only [count, numbers 4 (by decide), Values.slice, Values.memoryBytes, List.length_take,
        List.length_drop, Except.ok.injEq]
      omega
  | doubles list =>
      simp only [Values.length] at count
      simp only [count, numbers 8 (by decide), Values.slice, Values.memoryBytes, List.length_take,
        List.length_drop, Except.ok.injEq]
      omega
  | strings list =>
      simp only [Values.length] at count
      have checked : checkRange list.length range = .ok () := if_pos ⟨ordered, by omega⟩
      simp only [checked, bind, Except.bind]
      rfl

end Chunks

end Columnar
