import Columnar.Chunk.Verification
import Columnar.Proofs.Column.Rows
import Columnar.Proofs.Errors
import Columnar.Proofs.Read.Pushing

namespace Columnar

/-!
Stored bytes that hold a chunk.

`Holds` says that stored bytes, read the way a column is read, give the rows of a chunk.  That is
what verification finds out: `check_iff_holds`.
-/

/-- The bytes have a header of the chunk's type and size, and read as the chunk's rows. -/
def InputChunk.Holds (codec : Codec) (chunk : InputChunk) (bytes : Bytes) : Prop :=
  ∃ header, codec.inspect bytes = .ok header ∧ header.typeTag = chunk.type.tag ∧
    header.tupleCount.toNat = chunk.tupleCount ∧
    (PartChunk.mk header bytes).cells codec chunk.type = .ok chunk.rows

/-- What bytes hold depends on how they are read alone. -/
theorem InputChunk.Holds.of_reader {codec other : Codec} {chunk : InputChunk} {bytes : Bytes}
    (inspect : codec.inspect = other.inspect)
    (decompress : codec.decompress = other.decompress) (holds : chunk.Holds codec bytes) :
    chunk.Holds other bytes := by
  obtain ⟨header, read, tag, count, cells⟩ := holds
  refine ⟨header, by rw [← inspect, read], tag, count, ?_⟩
  rw [← cells, PartChunk.cells, PartChunk.cells, decompress]

section Rows

variable {rows : RowReader} {bitmap : Bitmap}

theorem RowReader.cells_eq_ok_iff {row : Nat} {expected : List Cell} :
    rows.cells bitmap expected.length row = .ok expected ↔
      ∀ index (inside : index < expected.length),
        rows.cell bitmap (row + index) = .ok expected[index] := by
  induction expected generalizing row with
  | nil => simp [RowReader.cells]
  | cons first rest ih =>
      constructor
      · intro read index inside
        rw [List.length_cons, RowReader.cells] at read
        split at read
        · contradiction
        rename_i cell here
        split at read
        · contradiction
        rename_i others later
        cases read
        cases index with
        | zero => exact here
        | succ index =>
            have tail := ih.mp later index (by simpa using inside)
            have place : row + (index + 1) = row + 1 + index := by omega
            rw [place]
            exact tail
      · intro each
        have here := each 0 (by simp)
        rw [Nat.add_zero] at here
        have later := ih.mpr fun index inside => by
          have shifted := each (index + 1) (by simpa using inside)
          have place : row + 1 + index = row + (index + 1) := by omega
          rw [place]
          exact shifted
        rw [List.length_cons, RowReader.cells]
        simp only [here, later, List.getElem_cons_zero]

theorem RowReader.value_ne_null (rows : RowReader) (row : Nat) : rows.value row ≠ .ok .null := by
  intro read
  cases rows with
  | integers buffer =>
      rw [RowReader.value] at read
      cases slot : Rows.integerAt buffer row <;> simp [slot, Except.map] at read
  | doubles buffer =>
      rw [RowReader.value] at read
      cases slot : Rows.doubleAt buffer row <;> simp [slot, Except.map] at read
  | strings texts =>
      rw [RowReader.value] at read
      cases text : texts.get row <;> simp [text, Except.map] at read

theorem RowReader.cell_eq_ok_iff {row : Nat} {present : Bool} {value : Cell}
    (notNull : value ≠ .null) :
    rows.cell bitmap row = .ok (if present then value else .null) ↔
      bitmap.isNull row = !present ∧ (present = true → rows.value row = .ok value) := by
  unfold RowReader.cell
  cases present with
  | true =>
      cases bitmap.isNull row with
      | true => simpa using fun same : Cell.null = value => notNull same.symm
      | false => simp
  | false =>
      cases bitmap.isNull row with
      | true => simp
      | false => simpa using rows.value_ne_null row

end Rows

namespace Verification

variable {reader : RowReader} {bitmap : Bitmap}

theorem checkRows_cons_eq_ok_iff {row : Nat} {present : Bool} {rest : List Bool} {value : Cell}
    {others : List Cell} :
    checkRows reader bitmap row (present :: rest) (value :: others) = .ok () ↔
      (bitmap.isNull row = !present ∧ (present = true → reader.value row = .ok value)) ∧
        checkRows reader bitmap (row + 1) rest others = .ok () := by
  rw [checkRows]
  cases present with
  | false => cases bitmap.isNull row <;> simp
  | true =>
      cases bitmap.isNull row with
      | true => simp
      | false =>
          simp only [List.head?_cons, List.tail_cons, Bool.false_eq_true, Bool.not_true, if_false,
            true_and, forall_const]
          cases reader.value row with
          | error cause => simp
          | ok stored =>
              simp only [Option.some.injEq, Except.ok.injEq]
              split
              · rename_i same
                simp [same]
              · rename_i differs
                simp [Ne.symm differs]

/-- The comparison of rows succeeds when every row has its bit and, if present, its value. -/
theorem checkRows_eq_ok_iff {row : Nat} {bits : List Bool} {values : List Cell}
    (lengths : bits.length = values.length) :
    checkRows reader bitmap row bits values = .ok () ↔
      ∀ index (bit : index < bits.length) (value : index < values.length),
        bitmap.isNull (row + index) = !bits[index] ∧
          (bits[index] = true → reader.value (row + index) = .ok values[index]) := by
  induction bits generalizing row values with
  | nil => simp [checkRows]
  | cons present rest ih =>
      cases values with
      | nil => simp at lengths
      | cons value others =>
          have later := @ih (row + 1) others (by simpa using lengths)
          have shift (index : Nat) : row + (index + 1) = row + 1 + index := by omega
          rw [checkRows_cons_eq_ok_iff, later]
          constructor
          · rintro ⟨first, tail⟩ index bit inside
            cases index with
            | zero => exact first
            | succ index =>
                rw [shift]
                exact tail index (by simpa using bit) (by simpa using inside)
          · intro each
            refine ⟨each 0 (by simp) (by simp), ?_⟩
            intro index bit inside
            have tail := each (index + 1) (by simpa using bit) (by simpa using inside)
            rw [shift] at tail
            exact tail

theorem checkRows_iff_cells {values : Values} {validity : Validity}
    (lengths : validity.toList.length = values.length) :
    checkRows reader bitmap 0 validity.toList values.cells = .ok () ↔
      reader.cells bitmap values.length 0 = .ok (Column.rowsOf values validity) := by
  have size := Column.length_rowsOf rfl lengths
  rw [checkRows_eq_ok_iff (by rw [lengths, Values.length_cells]), ← size,
    RowReader.cells_eq_ok_iff]
  constructor
  · intro each index inside
    have bit : index < validity.toList.length := by omega
    have value : index < values.cells.length := by rw [Values.length_cells]; omega
    rw [Column.getElem_rowsOf rfl bit value inside,
      RowReader.cell_eq_ok_iff (Values.ne_null_of_mem (List.getElem_mem value))]
    exact each index bit value
  · intro each index bit value
    have inside : index < (Column.rowsOf values validity).length := by omega
    have read := each index inside
    rwa [Column.getElem_rowsOf rfl bit value inside,
      RowReader.cell_eq_ok_iff (Values.ne_null_of_mem (List.getElem_mem value))] at read

/-- Verification accepts the bytes that hold the chunk, and no others. -/
theorem check_iff_holds {codec : Codec} {chunk : InputChunk} {bytes : Bytes}
    (lengths : chunk.validity.toList.length = chunk.tupleCount) :
    check codec chunk bytes = .ok () ↔ chunk.Holds codec bytes := by
  unfold check InputChunk.Holds
  cases inspected : codec.inspect bytes with
  | error error => simp [bind, Except.bind]
  | ok header =>
      simp only [mapError_ok, bind, Except.bind, Except.ok.injEq, exists_eq_left']
      by_cases count : header.tupleCount.toNat = chunk.tupleCount
      · by_cases tag : header.typeTag = chunk.type.tag
        · simp only [count, tag, ne_eq, not_true_eq_false, if_false, true_and, PartChunk.cells,
            bind, Except.bind]
          cases codec.decompress bytes with
          | error error => simp
          | ok decoded =>
              simp only [mapError_ok]
              cases RowReader.ofDecoded chunk.type chunk.tupleCount decoded with
              | error error => simp
              | ok reader =>
                  simp only [mapError_ok]
                  rw [checkRows_iff_cells lengths, InputChunk.rows, InputChunk.tupleCount]
                  cases reader.cells header.bitmap chunk.values.length 0 <;> simp
        · simp [count, tag]
      · simp [count]

end Verification

end Columnar
