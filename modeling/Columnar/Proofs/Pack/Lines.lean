import Columnar.Proofs.Pack.RoundTrip
import Columnar.Proofs.Read.Texts
import Columnar.Proofs.Tabular.Filling

namespace Columnar.Pack

/-!
Lines of unpacked columns.

A packed column is written as the texts of its rows, each ended by a line feed.  Nothing marks the
line feeds that values hold themselves, so the lines are the rows exactly when no value holds one.
-/

/-- A relation to which columns were added, or one that was read from delimited text. -/
def Made (table : Relation) : Prop :=
  table.Built ∨ ∃ format specs text, Tabular.ingest format specs text = .ok table

theorem Made.sound {table : Relation} (made : Made table) : table.Sound := by
  rcases made with built | ⟨format, specs, text, ingested⟩
  · exact built.sound
  · exact (Tabular.ingest_sound ingested).1

section Lines

variable {options : PackOptions} {table : Relation} {before after : Stores} {path : String}
  {place : Place} {ranges : List RowRange} {depth index : Nat} {column : Column} {values : Values}

theorem Stored.reads_sized
    (stored : Stored (.cascade depth) options table before after place ranges)
    (resolved : before.resolve path = .ok place) (sound : table.Sound)
    (sized : Sized (.cascade depth) options table) (found : table.columns[index]? = some column)
    (data : column.values = some values) :
    ∃ reader bits, ColumnReader.ofPath .standard after path index = .ok reader ∧
      reader.type = values.type ∧ column.Filled table.tupleCount values bits ∧
      reader.Reads .standard (Column.rowsOf values column.validity) :=
  stored.reads resolved sound sized.columns sized.parts found data
    fun bits range bytes member filled compressed =>
      sized.chunksFit.chunksHold stored.planned index column values bits range bytes found filled
        member compressed

/-- A packed column opens and gives its rows, one for each row of the relation. -/
theorem opens_packed {report : PackReport} (sound : table.Sound)
    (sized : Sized (.cascade depth) options table)
    (done : relation (.cascade depth) options before path table = (.ok report, after))
    (found : table.columns[index]? = some column) (data : column.values = some values) :
    (Column.rowsOf values column.validity).length = table.tupleCount ∧
      ∃ reader, ColumnReader.ofPath .standard after path index = .ok reader ∧
        reader.Reads .standard (Column.rowsOf values column.validity) := by
  obtain ⟨place, ranges, resolved, stored⟩ := stored_of_ok done
  obtain ⟨reader, bits, opened, -, filled, reads⟩ :=
    stored.reads_sized resolved sound sized found data
  refine ⟨?_, reader, opened, reads⟩
  rw [Column.length_rowsOf filled.represents.toList filled.lengths, filled.valueCount]

/-- It is written as the text of its rows. -/
theorem intoFile_packed {report : PackReport} (sound : table.Sound)
    (sized : Sized (.cascade depth) options table)
    (done : relation (.cascade depth) options before path table = (.ok report, after))
    (found : table.columns[index]? = some column) (data : column.values = some values)
    {output : String} {target : Place} (reached : after.resolve output = .ok target)
    (accepted : after.refusal? target.store target.location = none) :
    Read.intoFile after path index output = .ok (table.tupleCount,
      after.put target (Text.encode (textOf (Column.rowsOf values column.validity)))) := by
  obtain ⟨count, reader, opened, reads⟩ := opens_packed sound sized done found data
  rw [← count]
  exact (Read.hands_of_reads opened reads).intoFile reached accepted

end Lines

theorem exists_report_of_isOk {codec : Codec} {options : PackOptions} {before : Stores}
    {path : String} {table : Relation}
    (packed : (relation codec options before path table).1.isOk = true) :
    ∃ report after, relation codec options before path table = (.ok report, after) := by
  cases result : relation codec options before path table with
  | mk outcome after =>
      rw [result] at packed
      cases outcome with
      | error error => contradiction
      | ok report => exact ⟨report, after, rfl⟩

/-- A text of two lines, and a null. -/
def feedRows : Relation :=
  ⟨[.ofParts "s" (some (.strings ["a\nb", ""])) (.ofList [true, false])], 2⟩

def shallow : PackOptions := { cascadeDepth := 0 }

theorem built_feedRows : feedRows.Built :=
  .add (.ofParts "s" (some (.strings ["a\nb", ""])) (.ofList [true, false])) .empty
    (Validity.represents_ofList [true, false]) rfl

theorem plan_feedRows : plan shallow feedRows = .ok [⟨0, 2⟩] := rfl

theorem cuts_feedRows {chunk : InputChunk} (cut : Cuts shallow feedRows chunk) :
    chunk = chunkIn (.strings ["a\nb", ""]) [true, false] ⟨0, 2⟩ := by
  obtain ⟨ranges, range, index, planned, member, taken⟩ := cut
  rw [plan_feedRows] at planned
  cases planned
  rw [List.mem_singleton.mp member] at taken
  match index, taken with
  | 0, taken =>
      cases taken
      rfl
  | index + 1, taken => cases taken

theorem sized_feedRows : Sized (.cascade 0) shallow feedRows := by
  refine ⟨by decide, ?_, ?_, ?_⟩
  · intro chunk cut
    rw [cuts_feedRows cut]
    decide
  · intro chunk bytes cut compressed
    have stored : ((Codec.cascade 0).compress
        (chunkIn (.strings ["a\nb", ""]) [true, false] ⟨0, 2⟩)).map List.length = .ok 52 := by cbv
    rw [cuts_feedRows cut] at compressed
    rw [compressed] at stored
    have length : bytes.length = 52 := Except.ok.inj stored
    rw [length]
    decide
  · intro directory ranges planned write member
    rw [plan_feedRows] at planned
    cases planned
    have among := List.mem_map_of_mem (f := fun write : Location × Bytes => write.2.length) member
    have lengths : (partsOf (.cascade 0) shallow feedRows directory [⟨0, 2⟩]).map
        (fun write => write.2.length) = [76] := by cbv
    rw [lengths, List.mem_singleton] at among
    rw [among]
    decide

theorem exists_packed_feedRows : ∃ report after,
    relation (.cascade 0) shallow (.empty "") "memory://t" feedRows = (.ok report, after) :=
  exists_report_of_isOk (by decide +kernel)

/-- Every data column of a packed relation is written as lines.  They are its rows, null or as text,
exactly when no text in it holds a line feed; otherwise there are more lines than rows. -/
theorem unpacked_lines_iff {options : PackOptions} {table : Relation} (made : Made table)
    (sized : Sized (.cascade options.cascadeDepth) options table) :
    (∀ before path place, 1 ≤ table.tupleCount → options.validate = .ok () →
      chunkCount options table ≤ maxWord → before.resolve path = .ok place →
      place.store = .memory → ∃ report after,
        relation (.cascade options.cascadeDepth) options before path table = (.ok report, after)) ∧
    ∀ before path report after,
      relation (.cascade options.cascadeDepth) options before path table = (.ok report, after) →
      ∀ index column values, table.columns[index]? = some column → column.values = some values →
        ∃ text lines,
          (∀ output target, after.resolve output = .ok target →
            after.refusal? target.store target.location = none →
              Read.intoFile after path index output =
                .ok (table.tupleCount, after.put target (Text.encode text))) ∧
          Text.HasLines text lines ∧ table.tupleCount ≤ lines.length ∧
          (lines.length = table.tupleCount ↔
            ∀ value, Cell.string value ∈ Column.rowsOf values column.validity →
              '\n' ∉ value.toList) ∧
          (lines = (Column.rowsOf values column.validity).map Cell.text ↔
            ∀ value, Cell.string value ∈ Column.rowsOf values column.validity →
              '\n' ∉ value.toList) := by
  constructor
  · intro before path place rows valid few resolved memory
    obtain ⟨ranges, planned⟩ := exists_plan valid rows few
    exact exists_report_of_ended planned resolved memory
      (sized.chunksFit.ended made.sound planned)
  · intro before path report after done index column values found data
    have count := (opens_packed made.sound sized done found data).1
    have entries : ((Column.rowsOf values column.validity).map Cell.text).length =
        table.tupleCount := by
      rw [List.length_map, count]
    refine ⟨textOf (Column.rowsOf values column.validity), _,
      fun output target => intoFile_packed made.sound sized done found data,
      Text.hasLines_entries _, ?_, ?_, ?_⟩
    · rw [← entries]
      exact Text.length_le_lines _
    · rw [← entries, Text.length_lines_eq_iff, feedless_iff]
    · rw [← feedless_iff]
      constructor
      · intro same
        have lengths := congrArg List.length same
        exact (Text.length_lines_eq_iff _).mp lengths
      · exact Text.lines_eq_entries

/-- The text of two lines takes two of them. -/
theorem unpacked_lines_iff_feed :
    ∃ report after text lines,
      relation (.cascade 0) shallow (.empty "") "memory://t" feedRows = (.ok report, after) ∧
      Read.intoFile after "memory://t" 0 "memory://t.txt" =
        .ok (2, after.put ⟨.memory, ⟨["t.txt"]⟩⟩ (Text.encode text)) ∧
      Text.HasLines text lines ∧ 2 < lines.length := by
  obtain ⟨report, after, done⟩ := exists_packed_feedRows
  obtain ⟨text, lines, written, has, least, count, -⟩ :=
    (@unpacked_lines_iff shallow feedRows (.inl built_feedRows) sized_feedRows).2 _ _ _ _ done 0 _ _
      rfl rfl
  refine ⟨report, after, text, lines, done, written _ _ (after.resolve_memory "t.txt") rfl, has, ?_⟩
  have feed : ¬ lines.length = 2 := fun same =>
    count.mp same "a\nb" (by decide) (by decide)
  have rows : 2 ≤ lines.length := least
  omega

/-- Two rows that are written as three lines. -/
theorem not_unpacked_line_a_row :
    ∃ report after,
      relation (.cascade 0) shallow (.empty "") "memory://t" feedRows = (.ok report, after) ∧
      Read.intoFile after "memory://t" 0 "memory://t.txt" =
        .ok (2, after.put ⟨.memory, ⟨["t.txt"]⟩⟩ (Text.encode "a\nb\nnull\n")) ∧
      ∀ lines, Text.HasLines "a\nb\nnull\n" lines → lines.length ≠ 2 := by
  obtain ⟨report, after, done⟩ := exists_packed_feedRows
  have written := @intoFile_packed shallow feedRows _ _ _ 0 0 _ _ _ built_feedRows.sound
    sized_feedRows done rfl rfl _ _ (after.resolve_memory "t.txt") rfl
  refine ⟨report, after, done, written, fun lines has count => ?_⟩
  have three : Text.HasLines "a\nb\nnull\n" ["a", "b", "null"] := ⟨by decide, by decide⟩
  rw [has.unique three] at count
  contradiction

end Columnar.Pack
