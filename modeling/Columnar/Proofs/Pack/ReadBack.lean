import Columnar.Proofs.Pack.Directory
import Columnar.Proofs.Read.Arrays

namespace Columnar

/-!
Reading back a packed relation.

When the bytes of every chunk hold the chunk, a stored relation is read back column by column: the
chunks of the parts give the rows of the ranges, and the ranges together are the column.
-/

/-- Rows that are a column: null where the validity bit is zero, and else the value. -/
structure Restored (values : Values) (validity : Validity) (cells : List Cell) : Prop where
  length : cells.length = values.length
  null : ∀ row, cells[row]? = some .null ↔ validity.get? row = some false
  value : ∀ row, validity.get? row = some true → cells[row]? = values.cells[row]?

section Rows

variable {values : Values} {validity : Validity} {bits : List Bool}

theorem restored_rowsOf (represents : validity.Represents bits)
    (lengths : bits.length = values.length) :
    Restored values validity (Column.rowsOf values validity) := by
  have size := Column.length_rowsOf represents.toList lengths
  have entry {row : Nat} (bit : row < bits.length) (value : row < values.cells.length) :
      (Column.rowsOf values validity)[row]? =
        some (if bits[row] then values.cells[row] else .null) := by
    have inside : row < (Column.rowsOf values validity).length := by omega
    rw [List.getElem?_eq_getElem inside,
      Column.getElem_rowsOf represents.toList bit value inside]
  refine ⟨size, ?_, ?_⟩
  · intro row
    rw [represents.get?]
    by_cases bit : row < bits.length
    · have value : row < values.cells.length := by rw [Values.length_cells]; omega
      have present := Values.ne_null_of_mem (List.getElem_mem value)
      rw [entry bit value, List.getElem?_eq_getElem bit]
      cases bits[row] <;> simp [present]
    · rw [List.getElem?_eq_none (by omega), List.getElem?_eq_none (by omega)]
      simp
  · intro row present
    rw [represents.get?] at present
    obtain ⟨bit, held⟩ := List.getElem?_eq_some_iff.mp present
    have value : row < values.cells.length := by rw [Values.length_cells]; omega
    rw [entry bit value, held, if_pos rfl, List.getElem?_eq_getElem value]

end Rows

section Chunks

variable {codec : Codec} {values : Values} {bits : List Bool} {ranges : List RowRange}

/-- Chunks under their own headers read as the rows that their bytes hold. -/
theorem cells_of_holds {chunks : List PartChunk}
    (inspected : ∀ chunk ∈ chunks, chunk.Inspected codec values.type)
    (holds : List.Forall₂ (fun range bytes => (chunkIn values bits range).Holds codec bytes) ranges
      (chunks.map (·.bytes))) :
    List.Forall₂ (fun chunk cells => chunk.cells codec values.type = .ok cells) chunks
      (ranges.map fun range => (chunkIn values bits range).rows) := by
  induction chunks generalizing ranges with
  | nil =>
      cases holds
      exact .nil
  | cons chunk rest ih =>
      cases holds with
      | cons here later =>
          obtain ⟨header, read, -, -, cells⟩ := here
          have same := (inspected chunk (by simp)).header
          rw [read] at same
          cases same
          rw [type_chunkIn] at cells
          exact .cons cells (ih (fun other member => inspected other (by simp [member])) later)

/-- The chunks of an opened column read as the rows of the ranges that its parts hold. -/
theorem ColumnReader.Opened.cells_of_holds {reader : ColumnReader} {groups : List (List Bytes)}
    (opened : Opened codec reader) (type : reader.type = values.type)
    (parts : reader.parts.toList.map (fun part => part.chunks.toList.map (·.bytes)) = groups)
    (held : List.Forall₂ (fun range bytes => (chunkIn values bits range).Holds codec bytes) ranges
      groups.flatten) :
    List.Forall₂ (fun chunk cells => chunk.cells codec reader.type = .ok cells) reader.chunks
      (ranges.map fun range => (chunkIn values bits range).rows) := by
  have inspected := opened.inspected_chunks
  rw [type] at inspected ⊢
  refine Columnar.cells_of_holds inspected ?_
  rw [bytes_chunks parts]
  exact held

end Chunks

/-- Reading a column gives it back: it succeeds with the rows as they were, and any sink is handed
these rows. -/
structure Read.Restores (stores : Stores) (path : String) (index : Nat) (values : Values)
    (validity : Validity) (cells : List Cell) : Prop where
  rows : Restored values validity cells
  listed : Read.column stores path index .list [] = .ok (cells.length, cells)
  hands : Read.Hands stores path index values.type cells

theorem Read.Hands.restores {stores : Stores} {path : String} {index : Nat} {values : Values}
    {validity : Validity} {cells : List Cell}
    (hands : Read.Hands stores path index values.type cells)
    (rows : Restored values validity cells) :
    Read.Restores stores path index values validity cells :=
  ⟨rows, by rw [hands, Sink.run_list], hands⟩

namespace Pack

theorem length_le_length_flatten {groups : List (List Bytes)}
    (filled : ∀ group ∈ groups, group ≠ []) :
    groups.length ≤ groups.flatten.length := by
  induction groups with
  | nil => simp
  | cons group rest ih =>
      have some := List.length_pos_iff.mpr (filled group (by simp))
      have later := ih fun other member => filled other (by simp [member])
      simp only [List.length_cons, List.flatten_cons, List.length_append]
      omega

variable {codec : Codec} {options : PackOptions} {relation : Relation} {before after : Stores}
  {path : String} {place : Place} {ranges : List RowRange} {index : Nat} {column : Column}
  {values : Values}

/-- Parts that packing the relation writes are no longer than their references reach.  No archive
can be made of a longer one. -/
def PartsReach (codec : Codec) (options : PackOptions) (relation : Relation) : Prop :=
  ∀ directory ranges, plan options relation = .ok ranges →
    ∀ write ∈ partsOf codec options relation directory ranges, write.2.length ≤ Archive.reach

namespace Stored

theorem ofPath (stored : Stored codec options relation before after place ranges)
    (resolved : before.resolve path = .ok place) (few : relation.columns.length ≤ maxWord)
    (index : Nat) :
    ColumnReader.ofPath .standard after path index = ColumnReader.ofCatalog .standard after place
      (catalogFor codec options relation place.location ranges) index := by
  simp only [ColumnReader.ofPath, stored.resolve resolved, stored.loadCatalog few, mapError_ok,
    bind, Except.bind]

theorem readable (stored : Stored codec options relation before after place ranges)
    (reach : PartsReach codec options relation) (found : relation.columns[index]? = some column)
    {type : ColumnType} {groups : List (List Bytes)}
    (finished : (Pack.column codec options relation place.location ranges index column).Finished
      place.location index type groups)
    (headers : ∀ bytes ∈ groups.flatten, ∃ header,
      Codec.standard.inspect bytes = .ok header ∧ header.typeTag = type.tag) :
    ColumnReader.Readable .standard type groups := by
  refine ⟨?_, headers⟩
  intro group member
  obtain ⟨part, inside, rfl⟩ := List.getElem_of_mem member
  refine reach place.location ranges stored.planned
    (partWrite place.location index type groups[part] part)
    (List.mem_flatMap.mpr ⟨_, mem_columns_of_getElem? found, ?_⟩)
  rw [finished.writes]
  exact mem_partWrites.mpr ⟨part, groups[part], List.getElem?_eq_getElem inside, rfl⟩

theorem flatten_rows (stored : Stored codec options relation before after place ranges)
    {bits : List Bool} (filled : column.Filled relation.tupleCount values bits) :
    (ranges.map fun range => (chunkIn values bits range).rows).flatten =
      Column.rowsOf values column.validity := by
  obtain ⟨positive, -, plain⟩ := plan_ok stored.planned
  have whole : Column.rowsOf values (.ofList bits) = Column.rowsOf values column.validity := by
    simp only [Column.rowsOf, filled.represents.toList, (Validity.represents_ofList bits).toList]
  have length : (Column.rowsOf values column.validity).length = relation.tupleCount := by
    rw [Column.length_rowsOf filled.represents.toList filled.lengths, filled.valueCount]
  simp only [rows_chunkIn, whole, ← List.flatMap_def]
  rw [plain]
  exact flatMap_slices length positive

theorem length_groups_le (stored : Stored codec options relation before after place ranges)
    {groups : List (List Bytes)} (nonempty : ∀ group ∈ groups, group ≠ [])
    (count : ranges.length = groups.flatten.length) : groups.length ≤ maxWord := by
  obtain ⟨-, fewRanges, -⟩ := plan_ok stored.planned
  have fewGroups := length_le_length_flatten nonempty
  omega

theorem toNat_partCount (stored : Stored codec options relation before after place ranges)
    {groups : List (List Bytes)} (nonempty : ∀ group ∈ groups, group ≠ [])
    (count : ranges.length = groups.flatten.length) (type : ColumnType) :
    (CatalogEntry.ofType type (UInt32.ofNat groups.length)).partCount.toNat = groups.length := by
  have few := stored.length_groups_le nonempty count
  rw [CatalogEntry.ofType, UInt32.toNat_ofNat']
  simp only [maxWord] at few
  omega

/-- A column whose chunks hold its ranges opens as the parts that were written. -/
theorem opens (stored : Stored codec options relation before after place ranges)
    (reach : PartsReach codec options relation) (found : relation.columns[index]? = some column)
    (data : column.values = some values) {bits : List Bool} {groups : List (List Bytes)}
    (finished : (Pack.column codec options relation place.location ranges index column).Finished
      place.location index column.type groups)
    (nonempty : ∀ group ∈ groups, group ≠ [])
    (held : List.Forall₂ (fun range bytes => (chunkIn values bits range).Holds .standard bytes)
      ranges groups.flatten) :
    ∃ reader, ColumnReader.ofCatalog .standard after place
        (catalogFor codec options relation place.location ranges) index = .ok reader ∧
      reader.type = column.type ∧
      reader.parts.toList.map (fun part => part.chunks.toList.map (·.bytes)) = groups := by
  obtain ⟨-, fewRanges, -⟩ := plan_ok stored.planned
  have type : column.type = values.type := by rw [Column.type, data]
  have count := held.length_eq
  have readable : ColumnReader.Readable .standard column.type groups := by
    refine stored.readable reach found finished ?_
    intro bytes member
    obtain ⟨place, inside, rfl⟩ := List.getElem_of_mem member
    obtain ⟨header, read, tag, -⟩ := held.get (by omega) inside
    rw [type_chunkIn, ← type] at tag
    exact ⟨header, read, tag⟩
  refine ColumnReader.ofCatalog_ok (stored.getElem?_entries found finished)
    (Column.type_ne_skip data) (stored.length_groups_le nonempty count) ?_
    (stored.partsHeld found finished) readable
  rw [catalogFor, catalogOf, UInt32.toNat_ofNat', ← count]
  simp only [maxWord] at fewRanges
  omega

/-- It gives the rows of the column. -/
theorem opens_reads (stored : Stored codec options relation before after place ranges)
    (reach : PartsReach codec options relation) (found : relation.columns[index]? = some column)
    {bits : List Bool} (filled : column.Filled relation.tupleCount values bits)
    {groups : List (List Bytes)}
    (finished : (Pack.column codec options relation place.location ranges index column).Finished
      place.location index column.type groups)
    (nonempty : ∀ group ∈ groups, group ≠ [])
    (held : List.Forall₂ (fun range bytes => (chunkIn values bits range).Holds .standard bytes)
      ranges groups.flatten) :
    ∃ reader, ColumnReader.ofCatalog .standard after place
        (catalogFor codec options relation place.location ranges) index = .ok reader ∧
      reader.type = values.type ∧
      reader.parts.toList.map (fun part => part.chunks.toList.map (·.bytes)) = groups ∧
      reader.Reads .standard (Column.rowsOf values column.validity) := by
  obtain ⟨reader, opened, readerType, parts⟩ :=
    stored.opens reach found filled.data finished nonempty held
  rw [show column.type = values.type by rw [Column.type, filled.data]] at readerType
  have ready := ColumnReader.opened_of_ofCatalog opened
  exact ⟨reader, opened, readerType, parts,
    ready, _, ready.cells_of_holds readerType parts held, stored.flatten_rows filled⟩

/-- A data column whose chunks hold what was compressed reads as it was. -/
theorem reads (stored : Stored codec options relation before after place ranges)
    (resolved : before.resolve path = .ok place) (sound : relation.Sound)
    (few : relation.columns.length ≤ maxWord) (reach : PartsReach codec options relation)
    (found : relation.columns[index]? = some column) (data : column.values = some values)
    (holds : ∀ bits range bytes, range ∈ ranges →
      column.Filled relation.tupleCount values bits →
      Compressed codec options.verify index values bits range bytes →
      (chunkIn values bits range).Holds .standard bytes) :
    ∃ reader bits, ColumnReader.ofPath .standard after path index = .ok reader ∧
      reader.type = values.type ∧ column.Filled relation.tupleCount values bits ∧
      reader.Reads .standard (Column.rowsOf values column.validity) := by
  obtain ⟨bits, filled⟩ := sound column (List.mem_of_getElem? found) values data
  obtain ⟨stats, done⟩ := stored.ended _ (mem_columns_of_getElem? found)
  obtain ⟨groups, finished, nonempty, -, compressed⟩ :=
    column_compressed stored.planned found filled done
  have held : List.Forall₂ (fun range bytes => (chunkIn values bits range).Holds .standard bytes)
      ranges groups.flatten :=
    ((List.forall₂_and_left _ _).mpr ⟨fun _ member => member, compressed⟩).imp
      fun range bytes pair => holds bits range bytes pair.1 filled pair.2
  obtain ⟨reader, opened, readerType, -, reads⟩ :=
    stored.opens_reads reach found filled finished nonempty held
  exact ⟨reader, bits, (stored.ofPath resolved few index).trans opened, readerType, filled, reads⟩

/-- It is handed to any sink. -/
theorem restores (stored : Stored codec options relation before after place ranges)
    (resolved : before.resolve path = .ok place) (sound : relation.Sound)
    (few : relation.columns.length ≤ maxWord) (reach : PartsReach codec options relation)
    (found : relation.columns[index]? = some column) (data : column.values = some values)
    (holds : ∀ bits range bytes, range ∈ ranges →
      column.Filled relation.tupleCount values bits →
      Compressed codec options.verify index values bits range bytes →
      (chunkIn values bits range).Holds .standard bytes) :
    (Column.rowsOf values column.validity).length = relation.tupleCount ∧
      Read.Restores after path index values column.validity
        (Column.rowsOf values column.validity) := by
  obtain ⟨reader, bits, opened, readerType, filled, reads⟩ :=
    stored.reads resolved sound few reach found data holds
  have rows := restored_rowsOf filled.represents filled.lengths
  have hands := Read.hands_of_reads opened reads
  rw [readerType] at hands
  exact ⟨rows.length.trans filled.valueCount, hands.restores rows⟩

end Stored

end Pack

end Columnar
