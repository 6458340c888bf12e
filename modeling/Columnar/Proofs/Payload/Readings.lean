import Columnar.Proofs.Errors
import Columnar.Proofs.Payload.Restoring

namespace Columnar

/-!
Payloads by what they read as.

A payload restores values when it is accepted for their type and their number and every row reads as
its value.  The bytes of a row are determined by what it reads as, so these are the payloads that
spell the values.
-/

namespace RowReader

variable {reader : RowReader} {cells : List Cell}

theorem value_of_mapM_range' {start count : Nat}
    (read : (List.range' start count).mapM reader.value = .ok cells) :
    cells.length = count ∧
      ∀ row cell, cells[row]? = some cell → reader.value (start + row) = .ok cell := by
  induction count generalizing start cells with
  | zero =>
      cases read
      exact ⟨rfl, fun row cell found => by simp at found⟩
  | succ count ih =>
      rw [List.range'_succ, List.mapM_cons] at read
      obtain ⟨first, here, behind⟩ := exists_of_bind_ok read
      obtain ⟨rest, later, joined⟩ := exists_of_bind_ok behind
      cases joined
      obtain ⟨length, reads⟩ := ih later
      refine ⟨by rw [List.length_cons, length], ?_⟩
      intro row cell found
      cases row with
      | zero =>
          cases found
          exact here
      | succ row =>
          have next := reads row cell found
          rwa [Nat.add_assoc, Nat.add_comm 1 row] at next

theorem readRows_eq_ok_iff {count : Nat} :
    reader.readRows count = .ok cells ↔ cells.length = count ∧ reader.Serves cells := by
  constructor
  · intro read
    rw [readRows, List.range_eq_range'] at read
    obtain ⟨length, reads⟩ := value_of_mapM_range' read
    refine ⟨length, fun row cell found => ?_⟩
    have value := reads row cell found
    rwa [Nat.zero_add] at value
  · rintro ⟨rfl, serves⟩
    exact readRows_of_serves serves

end RowReader

namespace Payload

/-- A payload that is accepted for values, and whose rows read as them. -/
def Restores (scheme : Scheme) (values : Values) (payload : Bytes) : Prop :=
  ∃ decoded reader, decode scheme values.type values.length payload = .ok decoded ∧
    RowReader.ofDecoded values.type values.length decoded = .ok reader ∧
    reader.readRows values.length = .ok values.cells

variable {scheme : Scheme} {type : ColumnType} {rows : List Bytes} {values : Values}
  {payload : Bytes}

theorem Spells.widths {width : Nat} (spelled : Spells scheme type rows payload)
    (numeric : slotWidth? type = some width) : ∀ slot ∈ rows, slot.length = width := by
  intro slot member
  cases spelled with
  | slots same widths =>
      cases numeric.symm.trans same
      exact widths slot member
  | oneSlot count same =>
      cases numeric.symm.trans same
      rw [List.eq_of_mem_replicate member]
  | strings array => contradiction
  | oneString count short => contradiction
  | runs same widths counts few =>
      cases numeric.symm.trans same
      obtain ⟨run, found, here⟩ := List.mem_flatMap.mp member
      rw [List.eq_of_mem_replicate here]
      exact widths run found
  | dictionary holds few known => contradiction

theorem widths_rows {width : Nat} (numeric : slotWidth? values.type = some width) :
    ∀ slot ∈ values.rows, slot.length = width := by
  intro slot member
  cases values with
  | integers list =>
      cases numeric
      obtain ⟨value, -, rfl⟩ := List.mem_map.mp member
      exact Bytes.length_ofNat ..
  | doubles list =>
      cases numeric
      obtain ⟨value, -, rfl⟩ := List.mem_map.mp member
      exact Bytes.length_ofNat ..
  | strings list => contradiction

/-- Equally many bytes that stand for one number are the same. -/
theorem eq_of_toNat {first second : Bytes} (lengths : first.length = second.length)
    (same : Bytes.toNat first = Bytes.toNat second) : first = second := by
  rw [← Bytes.ofNat_toNat first, ← Bytes.ofNat_toNat second, lengths, same]

theorem decode_of_rowValue {row : Nat} {bytes : Bytes} {cell : Cell}
    (read : rowValue .string row bytes = .ok cell) :
    ∃ text, Text.decode bytes = .ok text ∧ cell = .string text := by
  rw [rowValue] at read
  cases decoded : Text.decode bytes with
  | error fault => simp [decoded] at read
  | ok text =>
      simp only [decoded, Except.ok.injEq] at read
      exact ⟨text, rfl, read.symm⟩

/-- Nothing in the bytes of a row is lost when it is read. -/
theorem rowValue_injective {row : Nat} {first second : Bytes} {cell : Cell}
    (widths : ∀ width, slotWidth? type = some width →
      first.length = width ∧ second.length = width)
    (left : rowValue type row first = .ok cell) (right : rowValue type row second = .ok cell) :
    first = second := by
  have same := left.trans right.symm
  have texts (one : rowValue .string row first = .ok cell)
      (other : rowValue .string row second = .ok cell) : first = second := by
    obtain ⟨read, decoded, rfl⟩ := decode_of_rowValue one
    obtain ⟨again, decodedAgain, written⟩ := decode_of_rowValue other
    cases written
    rw [← Text.encode_of_decode decoded, ← Text.encode_of_decode decodedAgain]
  cases type with
  | integer =>
      obtain ⟨firstWidth, secondWidth⟩ := widths 4 rfl
      have firstBound := Bytes.toNat_lt first
      have secondBound := Bytes.toNat_lt second
      rw [firstWidth, Bytes.capacity_four] at firstBound
      rw [secondWidth, Bytes.capacity_four] at secondBound
      simp only [rowValue, Except.ok.injEq, Cell.integer.injEq] at same
      have words := congrArg (fun word : Int32 => word.toUInt32.toNat) same
      simp only [UInt32.toUInt32_toInt32, UInt32.toNat_ofNat'] at words
      exact eq_of_toNat (firstWidth.trans secondWidth.symm) (by omega)
  | double =>
      obtain ⟨firstWidth, secondWidth⟩ := widths 8 rfl
      have firstBound := Bytes.toNat_lt first
      have secondBound := Bytes.toNat_lt second
      rw [firstWidth] at firstBound
      rw [secondWidth] at secondBound
      simp only [rowValue, Except.ok.injEq, Cell.double.injEq, Double.mk.injEq] at same
      have words := congrArg UInt64.toNat same
      simp only [UInt64.toNat_ofNat'] at words
      simp only [Bytes.capacity] at firstBound secondBound
      exact eq_of_toNat (firstWidth.trans secondWidth.symm) (by omega)
  | string => exact texts left right
  | skip => exact texts left right

theorem spells_of_serves {decoded : Decoded} {reader : RowReader}
    (accepted : decode scheme values.type values.length payload = .ok decoded)
    (opened : RowReader.ofDecoded values.type values.length decoded = .ok reader)
    (serves : reader.Serves values.cells) : Spells scheme values.type values.rows payload := by
  obtain ⟨rows, size, spelled⟩ := spells_of_decode accepted
  rw [← size] at accepted opened
  obtain ⟨other, again, reads⟩ := reads_of_decode accepted spelled
  rw [opened] at again
  cases again
  have rowsOf : rows = values.rows := by
    apply List.ext_getElem (by rw [size, Values.length_rows])
    intro row inside within
    have own := Values.rowValue_rows within
    obtain ⟨cell, found, value⟩ := Option.map_eq_some_iff.mp own
    have read := reads row inside
    rw [serves row cell found] at read
    refine rowValue_injective (fun width numeric => ⟨?_, ?_⟩) read.symm value.symm
    · exact spelled.widths numeric _ (List.getElem_mem inside)
    · exact widths_rows numeric _ (List.getElem_mem within)
  rw [← rowsOf]
  exact spelled

/-- The payloads that read as values are those that spell the values. -/
theorem restores_iff_spells :
    Restores scheme values payload ↔ Spells scheme values.type values.rows payload := by
  constructor
  · rintro ⟨decoded, reader, accepted, opened, read⟩
    exact spells_of_serves accepted opened (RowReader.readRows_eq_ok_iff.mp read).2
  · intro spelled
    obtain ⟨decoded, reader, accepted, opened, serves⟩ := spelled.serves
    exact ⟨decoded, reader, accepted, opened,
      RowReader.readRows_eq_ok_iff.mpr ⟨values.length_cells, serves⟩⟩

end Payload

end Columnar
