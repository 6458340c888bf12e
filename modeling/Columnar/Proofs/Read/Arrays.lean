import Columnar.Proofs.Read.Walk
import Columnar.Read.Output
import Mathlib.Data.List.Forall2

namespace Columnar

/-!
Columns as arrays.

The array sink keeps every cell that is null or of the column's type, so an opened column whose
chunks can all be read becomes the array of their rows, as long as a block of memory holds the slots
and offsets reach through the texts.
-/

/-- Null, or a value of the type. -/
def Cell.Fits (type : ColumnType) (cell : Cell) : Prop :=
  cell.type? = none ∨ cell.type? = some type

/-- The bytes of text in rows. -/
def textBytesOf (cells : List Cell) : Nat := total (cells.map Cell.textBytes)

@[simp] theorem textBytesOf_cons (cell : Cell) (rest : List Cell) :
    textBytesOf (cell :: rest) = cell.textBytes + textBytesOf rest := by
  rw [textBytesOf, List.map_cons, total_cons]
  rfl

namespace NullableArray

theorem push_fits {array : NullableArray} {cell : Cell} (fits : cell.Fits array.type) :
    ∃ next, array.push cell = .ok next ∧ next.type = array.type ∧
      next.cells = array.cells ++ [cell] := by
  cases array with
  | integers slots =>
      cases cell with
      | null => exact ⟨_, rfl, rfl, by simp [cells]⟩
      | integer value => exact ⟨_, rfl, rfl, by simp [cells]⟩
      | double value => simp [Cell.Fits, Cell.type?, type] at fits
      | string value => simp [Cell.Fits, Cell.type?, type] at fits
  | doubles slots =>
      cases cell with
      | null => exact ⟨_, rfl, rfl, by simp [cells]⟩
      | integer value => simp [Cell.Fits, Cell.type?, type] at fits
      | double value => exact ⟨_, rfl, rfl, by simp [cells]⟩
      | string value => simp [Cell.Fits, Cell.type?, type] at fits
  | strings slots =>
      cases cell with
      | null => exact ⟨_, rfl, rfl, by simp [cells]⟩
      | integer value => simp [Cell.Fits, Cell.type?, type] at fits
      | double value => simp [Cell.Fits, Cell.type?, type] at fits
      | string value => exact ⟨_, rfl, rfl, by simp [cells]⟩

theorem exists_appended (array : NullableArray) {list : List Cell}
    (fits : ∀ cell ∈ list, cell.Fits array.type) :
    ∃ final : NullableArray, final.type = array.type ∧ final.cells = array.cells ++ list := by
  induction list generalizing array with
  | nil => exact ⟨array, rfl, by simp⟩
  | cons cell rest ih =>
      obtain ⟨here, others⟩ := List.forall_mem_cons.mp fits
      obtain ⟨next, -, type, cells⟩ := push_fits here
      obtain ⟨final, finalType, finalCells⟩ := ih next (by rwa [type])
      exact ⟨final, finalType.trans type, by rw [finalCells, cells, List.append_assoc]; rfl⟩

theorem empty?_of_data {type : ColumnType} (data : type ≠ .skip) :
    ∃ array, empty? type = some array ∧ array.type = type ∧ array.cells = [] := by
  cases type with
  | integer => exact ⟨_, rfl, rfl, rfl⟩
  | double => exact ⟨_, rfl, rfl, rfl⟩
  | string => exact ⟨_, rfl, rfl, rfl⟩
  | skip => contradiction

/-- What comes of building an array: no block of memory may hold its slots, or no offset reach
through its texts. -/
def built (array : NullableArray) : Except Error NullableArray :=
  if Sink.maxBlock < Sink.slotBytes array.type * array.cells.length then
    .error (.overflow .blockSize)
  else if ArrayBuilder.maxOffset < textBytesOf array.cells then .error (.overflow .textOffset)
  else .ok array

section Limits

variable {array : NullableArray}

end Limits

end NullableArray

/-- Rows are appended to an array one by one, until a text ends behind all offsets. -/
theorem ArrayBuilder.pushAll_eq {builder : ArrayBuilder} {list : List Cell}
    (fits : ∀ cell ∈ list, cell.Fits builder.array.type) (short : builder.textBytes ≤ maxOffset) :
    ∃ array : NullableArray, array.type = builder.array.type ∧
      array.cells = builder.array.cells ++ list ∧
      Sink.array.pushAll list (some builder) =
        if maxOffset < builder.textBytes + textBytesOf list then .error (.overflow .textOffset)
        else .ok (some ⟨array, builder.textBytes + textBytesOf list⟩) := by
  induction list generalizing builder with
  | nil => exact ⟨builder.array, rfl, by simp, (if_neg (Nat.not_lt.mpr short)).symm⟩
  | cons cell rest ih =>
      obtain ⟨here, others⟩ := List.forall_mem_cons.mp fits
      obtain ⟨next, pushed, type, cells⟩ := NullableArray.push_fits here
      rw [textBytesOf_cons, ← Nat.add_assoc]
      by_cases beyond : maxOffset < builder.textBytes + cell.textBytes
      · obtain ⟨array, arrayType, arrayCells⟩ := next.exists_appended (by rwa [type])
        refine ⟨array, arrayType.trans type, by rw [arrayCells, cells, List.append_assoc]; rfl, ?_⟩
        rw [if_pos (Nat.lt_of_lt_of_le beyond (Nat.le_add_right ..))]
        simp only [Sink.pushAll, Sink.array, push, pushed, bind, Except.bind, if_pos beyond,
          Except.map]
      · have step : Sink.array.push cell (some builder) =
            .ok (some ⟨next, builder.textBytes + cell.textBytes⟩) := by
          simp only [Sink.array, push, pushed, bind, Except.bind, if_neg beyond, Except.map]
        obtain ⟨array, arrayType, arrayCells, done⟩ :=
          @ih ⟨next, builder.textBytes + cell.textBytes⟩ (by rwa [type]) (Nat.le_of_not_lt beyond)
        refine ⟨array, arrayType.trans type, by rw [arrayCells, cells, List.append_assoc]; rfl, ?_⟩
        rw [Sink.pushAll, step]
        exact done

/-- The array sink builds the array of a column's rows. -/
theorem Sink.run_array {type : ColumnType} {cells : List Cell} (data : type ≠ .skip)
    (fits : ∀ cell ∈ cells, cell.Fits type) :
    ∃ array : NullableArray, array.type = type ∧ array.cells = cells ∧
      ((Sink.array.run type cells none).bind fun done => toArray done.2) = array.built := by
  obtain ⟨empty, begun, emptyType, bare⟩ := NullableArray.empty?_of_data data
  obtain ⟨array, arrayType, arrayCells, done⟩ := @ArrayBuilder.pushAll_eq ⟨empty, 0⟩ cells
    (by rwa [emptyType]) (Nat.zero_le _)
  replace arrayType : array.type = type := arrayType.trans emptyType
  replace arrayCells : array.cells = cells := by rw [arrayCells, bare, List.nil_append]
  refine ⟨array, arrayType, arrayCells, ?_⟩
  have start : Sink.array.start type cells.length none =
      reserve (slotBytes type * cells.length) (some ⟨empty, 0⟩) := by
    simp only [Sink.array, ArrayBuilder.empty?, begun, Option.map_some]
  rw [NullableArray.built, arrayType, arrayCells, Sink.run, start, reserve]
  split
  · rfl
  · by_cases long : ArrayBuilder.maxOffset < textBytesOf cells
    · simp only [bind, Except.bind, done, Nat.zero_add, if_pos long]
    · simp only [bind, Except.bind, done, Nat.zero_add, if_neg long]
      rfl

namespace ColumnReader

variable {σ : Type} {codec : Codec} {sink : Sink σ}

theorem pushAllChunks_of_cells {type : ColumnType} {chunks : List PartChunk}
    {rows : List (List Cell)}
    (read : List.Forall₂ (fun chunk cells => chunk.cells codec type = .ok cells) chunks rows)
    (state : σ) :
    pushAllChunks codec type sink chunks state = sink.pushAll rows.flatten state := by
  induction read generalizing state with
  | nil => rfl
  | cons here later ih =>
      rename_i chunk cells rest others
      rw [pushAllChunks, pushChunk_of_cells here, List.flatten_cons, Sink.pushAll_append]
      cases sink.pushAll cells state with
      | error error => rfl
      | ok middle => exact ih middle

/-- An opened column whose chunks give the rows. -/
structure Reads (codec : Codec) (reader : ColumnReader) (cells : List Cell) : Prop where
  opened : Opened codec reader
  chunks : ∃ rows, List.Forall₂ (fun chunk cells => chunk.cells codec reader.type = .ok cells)
    reader.chunks rows ∧ rows.flatten = cells

theorem total_tupleCounts {type : ColumnType} {chunks : List PartChunk} {rows : List (List Cell)}
    (read : List.Forall₂ (fun chunk cells => chunk.cells codec type = .ok cells) chunks rows) :
    total (chunks.map fun chunk => chunk.header.tupleCount.toNat) = rows.flatten.length := by
  induction read with
  | nil => rfl
  | cons here later ih =>
      rw [List.map_cons, total_cons, List.flatten_cons, List.length_append,
        PartChunk.length_cells here, ih]

theorem Reads.tupleCount {reader : ColumnReader} {cells : List Cell}
    (reads : Reads codec reader cells) : reader.tupleCount = cells.length := by
  obtain ⟨rows, read, rfl⟩ := reads.chunks
  rw [tupleCount_eq, total_tupleCounts read]

/-- Such a column hands its rows to a sink. -/
theorem Reads.materialize {reader : ColumnReader} {cells : List Cell}
    (reads : Reads codec reader cells) (sink : Sink σ) (state : σ) :
    reader.materialize codec sink state = sink.run reader.type cells state := by
  have count := reads.tupleCount
  obtain ⟨rows, read, rfl⟩ := reads.chunks
  rw [reads.opened.materialize_eq, count]
  simp only [pushAllChunks_of_cells read]
  rfl

end ColumnReader

namespace Read

variable {stores : Stores} {path : String} {index : Nat} {type : ColumnType} {cells : List Cell}

/-- Reading a column hands the rows to any sink, which ends as it would with these rows. -/
def Hands (stores : Stores) (path : String) (index : Nat) (type : ColumnType)
    (cells : List Cell) : Prop :=
  ∀ (σ : Type) (sink : Sink σ) (state : σ),
    Read.column stores path index sink state = sink.run type cells state

theorem hands_of_reads {reader : ColumnReader}
    (opened : ColumnReader.ofPath .standard stores path index = .ok reader)
    (reads : reader.Reads .standard cells) : Hands stores path index reader.type cells := by
  intro σ sink state
  simp only [column, opened, reads.materialize, bind, Except.bind]

/-- The array sink makes an array of the rows that it is handed. -/
theorem Hands.array (hands : Hands stores path index type cells) (data : type ≠ .skip)
    (fits : ∀ cell ∈ cells, cell.Fits type) :
    ∃ array : NullableArray, array.type = type ∧ array.cells = cells ∧
      Read.array stores path index = array.built := by
  obtain ⟨array, arrayType, arrayCells, built⟩ := Sink.run_array data fits
  refine ⟨array, arrayType, arrayCells, ?_⟩
  rw [Read.array, hands]
  exact built

end Read

end Columnar
