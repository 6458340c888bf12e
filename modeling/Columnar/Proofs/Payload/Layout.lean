import Columnar.Chunk.Rows
import Columnar.Proofs.Payload.Grammar

namespace Columnar.Payload

/-!
Reading rows out of decoded buffers.

A buffer has one of three layouts: slots, a string array, or pointers in front of string data.  In
each of them the reader gives back the rows that were laid out.
-/

/-- A decoded chunk whose rows read as the given bytes. -/
def Reads (type : ColumnType) (rows : List Bytes) (decoded : Decoded) : Prop :=
  ∃ reader, RowReader.ofDecoded type rows.length decoded = .ok reader ∧
    ∀ row (inside : row < rows.length), reader.value row = rowValue type row rows[row]

section Slots

variable {rows : List Bytes} {width row : Nat}

theorem readNat?_slots (widths : ∀ slot ∈ rows, slot.length = width) (inside : row < rows.length) :
    Bytes.readNat? rows.flatten.toArray width (row * width) = some (Bytes.toNat rows[row]) := by
  have total := length_flatten_of_widths widths
  have reach : (row + 1) * width ≤ rows.length * width := Nat.mul_le_mul_right width inside
  rw [Nat.add_mul, Nat.one_mul] at reach
  have place := slice_flatten_of_widths [] widths inside
  rw [List.append_nil] at place
  rw [Bytes.readNat?_toArray, if_pos (by omega), place]

theorem reads_slots {type : ColumnType} (numeric : slotWidth? type = some width)
    (widths : ∀ slot ∈ rows, slot.length = width) : Reads type rows ⟨rows.flatten, false⟩ := by
  cases type with
  | integer =>
      cases numeric
      refine ⟨_, rfl, fun row inside => ?_⟩
      simp only [RowReader.value, Rows.integerAt, readNat?_slots widths inside, Except.map,
          rowValue]
  | double =>
      cases numeric
      refine ⟨_, rfl, fun row inside => ?_⟩
      simp only [RowReader.value, Rows.doubleAt, readNat?_slots widths inside, Except.map, rowValue]
  | string => contradiction
  | skip => contradiction

end Slots

theorem textAt_eq {table data : Bytes} {start stop : Nat} (row : Nat)
    (ordered : start ≤ stop) (inside : stop ≤ data.length) :
    (Rows.textAt (table ++ data).toArray table.length row start stop).map .string =
      rowValue .string row (slice start stop data) := by
  have reach : start ≤ stop ∧ table.length + stop ≤ (table ++ data).toArray.size := by
    simp only [List.size_toArray, List.length_append]
    omega
  rw [Rows.textAt, if_pos reach, toList_extract, slice_append_right, rowValue]
  cases Text.decode (slice start stop data) <;> rfl

theorem wordAt_table {numbers : List Nat} {index : Nat} (data : Bytes)
    (fits : ∀ number ∈ numbers, number < Bytes.capacity 4) (inside : index < numbers.length) :
    Rows.wordAt (numbers.flatMap (Bytes.ofNat 4) ++ data).toArray (index * 4) =
      .ok numbers[index] := by
  rw [Rows.wordAt, StringArray.readNat?_flatMap data fits inside]

theorem reads_stringArray {offsets : List Nat} {data payload : Bytes}
    (layout : StringArray.Layout offsets data payload) :
    Reads .string (StringArray.cut data offsets) ⟨payload, false⟩ := by
  have size := layout.length_offsets
  have table := StringArray.length_flatMap_words offsets
  have enough : ((StringArray.cut data offsets).length + 1) * 4 ≤ payload.toArray.size := by
    rw [List.size_toArray, layout.length_eq]
    omega
  refine ⟨.strings (.of payload.toArray (StringArray.cut data offsets).length false), ?_, ?_⟩
  · simp only [RowReader.ofDecoded, StringRows.ofBuffer, StringRows.tableBytes, Bool.false_eq_true,
      if_false, if_pos enough]
  · intro row inside
    have within : row + 1 < offsets.length := by omega
    have ordered : ¬ offsets[row + 1] < offsets[row] := Nat.not_lt.mpr (layout.step within)
    have start := wordAt_table data layout.fits (show row < offsets.length by omega)
    have stop := wordAt_table data layout.fits within
    have dataStart : ((StringArray.cut data offsets).length + 1) * 4 =
        (offsets.flatMap (Bytes.ofNat 4)).length := by omega
    rw [← layout.written] at start stop
    simp only [RowReader.value, StringRows.get, StringRows.text_eq, StringRows.buffer_of,
      StringRows.rows_of, StringRows.indirect_of, StringRows.tableBytes, Nat.not_le.mpr inside, start,
      stop, ordered, if_false, Bool.false_eq_true, dataStart, bind, Except.bind]
    rw [layout.written, StringArray.getElem_cut within]
    exact textAt_eq row (layout.step within) (layout.le_data within)

section Pointers

/-- Where a string lies in string data. -/
structure Span where
  offset : Nat
  length : Nat

def Span.pointer (span : Span) : Bytes := Payload.pointer span.offset span.length

def Span.text (data : Bytes) (span : Span) : Bytes :=
  slice span.offset (span.offset + span.length) data

/-- A span inside data that words can point into. -/
structure Span.Within (span : Span) (data : Bytes) : Prop where
  inside : span.offset + span.length ≤ data.length
  offset_lt : span.offset < Bytes.capacity 4
  length_lt : span.length < Bytes.capacity 4

theorem flatten_pointers (spans : List Span) :
    (spans.map Span.pointer).flatten =
      (spans.flatMap fun span => [span.offset, span.length]).flatMap (Bytes.ofNat 4) := by
  induction spans with
  | nil => rfl
  | cons span rest ih =>
      simp [ih, Span.pointer, pointer]

theorem getElem?_spanWords {spans : List Span} {row : Nat} (inside : row < spans.length) :
    (spans.flatMap fun span => [span.offset, span.length])[2 * row]? = some spans[row].offset ∧
      (spans.flatMap fun span => [span.offset, span.length])[2 * row + 1]? =
        some spans[row].length := by
  induction spans generalizing row with
  | nil => simp at inside
  | cons span rest ih =>
      cases row with
      | zero => simp
      | succ row =>
          have place : 2 * (row + 1) = 2 * row + 1 + 1 := by omega
          simp only [List.flatMap_cons, List.cons_append, List.nil_append, place,
            List.getElem?_cons_succ, List.getElem_cons_succ]
          exact ih (by simpa using inside)

theorem reads_pointers {spans : List Span} {data : Bytes}
    (within : ∀ span ∈ spans, span.Within data) :
    Reads .string (spans.map (Span.text data))
      ⟨(spans.map Span.pointer).flatten ++ data, true⟩ := by
  have widths : ∀ part ∈ spans.map Span.pointer, part.length = 8 := by
    intro part member
    obtain ⟨span, _, rfl⟩ := List.mem_map.mp member
    simp [Span.pointer, pointer]
  have table := length_flatten_of_widths widths
  rw [List.length_map] at table
  let words := spans.flatMap fun span => [span.offset, span.length]
  have fits : ∀ word ∈ words, word < Bytes.capacity 4 := by
    intro word member
    obtain ⟨span, found, here⟩ := List.mem_flatMap.mp member
    rcases List.mem_cons.mp here with rfl | here
    · exact (within span found).offset_lt
    · rw [List.mem_singleton.mp here]
      exact (within span found).length_lt
  have enough : spans.length * 8 ≤ ((spans.map Span.pointer).flatten ++ data).toArray.size := by
    rw [List.size_toArray, List.length_append, table]
    omega
  refine ⟨.strings (.of ((spans.map Span.pointer).flatten ++ data).toArray spans.length true), ?_, ?_⟩
  · simp only [RowReader.ofDecoded, StringRows.ofBuffer, StringRows.tableBytes, if_true,
      List.length_map, if_pos enough]
  · intro row inside
    rw [List.length_map] at inside
    obtain ⟨offset, length⟩ := getElem?_spanWords inside
    obtain ⟨offsetInside, offsetIs⟩ := List.getElem?_eq_some_iff.mp offset
    obtain ⟨lengthInside, lengthIs⟩ := List.getElem?_eq_some_iff.mp length
    have offsetRead := wordAt_table data fits offsetInside
    have lengthRead := wordAt_table data fits lengthInside
    have offsetPlace : 2 * row * 4 = row * 8 := by omega
    have lengthPlace : (2 * row + 1) * 4 = row * 8 + 4 := by omega
    rw [← flatten_pointers, offsetIs, offsetPlace] at offsetRead
    rw [← flatten_pointers, lengthIs, lengthPlace] at lengthRead
    have span := within spans[row] (List.getElem_mem inside)
    simp only [RowReader.value, StringRows.get, StringRows.text_eq, StringRows.buffer_of,
      StringRows.rows_of, StringRows.indirect_of, StringRows.tableBytes, Nat.not_le.mpr inside,
      offsetRead, lengthRead, if_true, if_false, bind, Except.bind, List.getElem_map, ← table]
    exact textAt_eq row (Nat.le_add_right _ _) span.inside

end Pointers

end Columnar.Payload
