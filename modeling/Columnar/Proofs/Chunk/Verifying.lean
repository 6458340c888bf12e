import Columnar.Proofs.Chunk.Compression

namespace Columnar

/-!
Verification against reading.

Bytes pass verification exactly when every sink that a column is read into is handed the chunk's
rows.  What a compressed chunk is stored as passes, and the values behind null rows make no
difference.
-/

/-- What a chunk reads as is what every sink is handed. -/
theorem PartChunk.cells_eq_ok_iff {codec : Codec} {type : ColumnType} {chunk : PartChunk}
    {cells : List Cell} :
    chunk.cells codec type = .ok cells ↔ ∀ {σ : Type} (sink : Sink σ) (state : σ),
      ColumnReader.pushChunk codec type sink chunk state = sink.pushAll cells state := by
  constructor
  · intro read σ sink state
    exact ColumnReader.pushChunk_of_cells read
  · intro handed
    have listed := handed Sink.list []
    rw [Sink.pushAll_list, List.nil_append] at listed
    cases read : chunk.cells codec type with
    | ok others =>
        rw [ColumnReader.pushChunk_of_cells read, Sink.pushAll_list, List.nil_append] at listed
        cases listed
        rfl
    | error error =>
        rcases ColumnReader.pushChunk_of_error Sink.list [] read with failed | ⟨cause, failed, -⟩
        · rw [failed] at listed
          contradiction
        · rw [failed] at listed
          contradiction

namespace Verification

variable {reader : RowReader} {bitmap : Bitmap} {bits : List Bool} {first second : List Cell}

/-- Values are compared only where a row is present. -/
theorem checkRows_congr {row : Nat} (lengths : first.length = second.length)
    (same : ((first.zip bits).map fun row => if row.2 then row.1 else Cell.null) =
      (second.zip bits).map fun row => if row.2 then row.1 else Cell.null) :
    checkRows reader bitmap row bits first = checkRows reader bitmap row bits second := by
  induction bits generalizing row first second with
  | nil => rfl
  | cons present rest ih =>
      match first, second, lengths with
      | [], [], _ => rfl
      | value :: values, other :: others, lengths =>
          simp only [List.zip_cons_cons, List.map_cons, List.cons.injEq] at same
          have later (row : Nat) : checkRows reader bitmap row rest values =
              checkRows reader bitmap row rest others := ih (Nat.succ.inj lengths) same.2
          cases present with
          | false => simp only [checkRows, Bool.not_false, if_true, List.tail_cons, later]
          | true =>
              obtain rfl : value = other := by simpa using same.1
              rw [checkRows, checkRows, List.tail_cons, List.tail_cons, later]
              rfl

/-- Chunks with the same rows are verified alike. -/
theorem check_congr {codec : Codec} {chunk other : InputChunk} {bytes : Bytes}
    (type : other.type = chunk.type) (count : other.tupleCount = chunk.tupleCount)
    (validity : other.validity = chunk.validity) (rows : other.rows = chunk.rows) :
    check codec other bytes = check codec chunk bytes := by
  have lengths : other.values.cells.length = chunk.values.cells.length := by
    rw [Values.length_cells, Values.length_cells]
    exact count
  have same (reader : RowReader) (bitmap : Bitmap) :
      checkRows reader bitmap 0 chunk.validity.toList other.values.cells =
        checkRows reader bitmap 0 chunk.validity.toList chunk.values.cells := by
    refine checkRows_congr lengths ?_
    rw [InputChunk.rows, InputChunk.rows, Column.rowsOf, Column.rowsOf, validity] at rows
    exact rows
  simp only [check, type, count, validity, same]

/-- Verification decides equality.  It accepts exactly the bytes with the chunk's type and size that
can be expanded and hand the chunk's rows to every sink; compressed at any depth the chunk is among
them; and what stands behind null rows does not change the answer. -/
theorem check_decides_rows (depth : Nat) (chunk : InputChunk)
    (bits : chunk.validity.length = chunk.tupleCount) :
    (∀ bytes, check (.cascade depth) chunk bytes = .ok () ↔
      ∃ header decoded, Cascade.inspect bytes = .ok header ∧ header.typeTag = chunk.type.tag ∧
        header.tupleCount.toNat = chunk.tupleCount ∧ Cascade.decompress bytes = .ok decoded ∧
        ∀ {σ : Type} (sink : Sink σ) (state : σ),
          ColumnReader.pushChunk (.cascade depth) chunk.type sink ⟨header, bytes⟩ state =
            sink.pushAll chunk.rows state) ∧
    (∀ written list, chunk.validity.Represents list →
      (chunk.values.Counted → ∃ bytes, Cascade.compress written chunk = .ok bytes) ∧
      ∀ bytes, Cascade.compress written chunk = .ok bytes → Cascade.Undone written chunk →
        check (.cascade depth) chunk bytes = .ok ()) ∧
    ∀ other bytes, other.type = chunk.type → other.tupleCount = chunk.tupleCount →
      other.validity = chunk.validity → other.rows = chunk.rows →
        check (.cascade depth) other bytes = check (.cascade depth) chunk bytes := by
  have lengths : chunk.validity.toList.length = chunk.tupleCount := by
    rw [Validity.toList, List.length_map, List.length_range, bits]
  refine ⟨fun bytes => ?_, fun written list represents => ⟨fun counted => ?_, ?_⟩, ?_⟩
  · rw [check_iff_holds lengths]
    constructor
    · rintro ⟨header, inspected, tag, count, cells⟩
      obtain ⟨decoded, expanded, -⟩ := exists_of_bind_ok cells
      exact ⟨header, decoded, inspected, tag, count, expanded, PartChunk.cells_eq_ok_iff.mp cells⟩
    · rintro ⟨header, decoded, inspected, tag, count, -, handed⟩
      exact ⟨header, inspected, tag, count, PartChunk.cells_eq_ok_iff.mpr handed⟩
  · obtain ⟨stored, done⟩ := Cascade.exists_toStored written bits counted
    exact ⟨stored.encode, Cascade.compress_eq_ok_iff.mpr ⟨stored, done, rfl⟩⟩
  · intro bytes compressed undone
    exact (check_iff_holds lengths).mpr (Cascade.holds_of_compress compressed represents undone)
  · intro other bytes type count validity rows
    exact check_congr type count validity rows

/-- A chunk is stored and verified, and so is one that differs behind its null row. -/
theorem check_decides_rows_behindNull :
    ∃ bytes,
      Cascade.compress 3 ⟨.strings ["é", "", "b"], .ofList [true, false, true]⟩ = .ok bytes ∧
      check (.cascade 0) ⟨.strings ["é", "", "b"], .ofList [true, false, true]⟩ bytes = .ok () ∧
      check (.cascade 0) ⟨.strings ["é", "null", "b"], .ofList [true, false, true]⟩ bytes =
        .ok () := by
  obtain ⟨-, stored, alike⟩ := check_decides_rows 0
    ⟨.strings ["é", "", "b"], .ofList [true, false, true]⟩ rfl
  obtain ⟨succeeds, accepts⟩ := stored 3 _ (Validity.represents_ofList [true, false, true])
  obtain ⟨bytes, compressed⟩ := succeeds ⟨by decide, by decide⟩
  have length : (Cascade.compress 3
      ⟨.strings ["é", "", "b"], .ofList [true, false, true]⟩).map List.length = .ok 56 := by
    decide +kernel
  have near : ∀ other, Cascade.compress 3
      ⟨.strings ["é", "", "b"], .ofList [true, false, true]⟩ = .ok other →
      other.length ≤ Archive.reach := by
    intro other same
    rw [same] at length
    rw [Except.ok.inj length]
    decide
  have accepted := accepts bytes compressed (Cascade.undone_of_short (by decide) near)
  have rows : (InputChunk.mk (.strings ["é", "null", "b"]) (.ofList [true, false, true])).rows =
      (InputChunk.mk (.strings ["é", "", "b"]) (.ofList [true, false, true])).rows := by
    rw [InputChunk.rows, InputChunk.rows, Column.rowsOf, Column.rowsOf,
      (Validity.represents_ofList [true, false, true]).toList]
    rfl
  exact ⟨bytes, compressed, accepted, (alike _ bytes rfl rfl rfl rows).trans accepted⟩

end Verification

end Columnar
