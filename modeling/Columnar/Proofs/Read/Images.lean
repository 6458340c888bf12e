import Columnar.Proofs.Read.Safety
import Columnar.Proofs.Read.Sessions
import Columnar.Proofs.Read.Texts

namespace Columnar

/-!
All ways to read a column are images of one sequence of rows.

A column that opens has rows, or holds a chunk that no sink gets past.  Its rows are null or of its
type, so the array takes them as far as its offsets reach, the typed sink of its type takes them
with a stand-in for null, and the other typed sinks refuse the column before they are handed a row.
Its text is written in one step behind all reading, and everything in front of that step leaves the
stores as they are.
-/

section Rows

/-- The type of the values that a reader gives. -/
def RowReader.type : RowReader → ColumnType
  | .integers _ => .integer
  | .doubles _ => .double
  | .strings _ => .string

variable {codec : Codec} {type : ColumnType} {rows : RowReader} {bitmap : Bitmap}

theorem RowReader.type_ofDecoded {count : Nat} {decoded : Decoded}
    (opened : ofDecoded type count decoded = .ok rows) : rows.type = type := by
  cases type with
  | integer =>
      cases opened
      rfl
  | double =>
      cases opened
      rfl
  | string =>
      rw [ofDecoded] at opened
      split at opened
      · cases opened
        rfl
      · contradiction
  | skip => contradiction

theorem RowReader.cell_fits {row : Nat} {cell : Cell} (read : rows.cell bitmap row = .ok cell) :
    cell.Fits rows.type := by
  rw [RowReader.cell] at read
  split at read
  · cases read
    exact .inl rfl
  cases rows with
  | integers buffer =>
      obtain ⟨value, -, rfl⟩ := exists_of_map_ok read
      exact .inr rfl
  | doubles buffer =>
      obtain ⟨value, -, rfl⟩ := exists_of_map_ok read
      exact .inr rfl
  | strings texts =>
      obtain ⟨value, -, rfl⟩ := exists_of_map_ok read
      exact .inr rfl

theorem RowReader.cells_fit {count row : Nat} {cells : List Cell}
    (read : rows.cells bitmap count row = .ok cells) : ∀ cell ∈ cells, cell.Fits rows.type := by
  induction count generalizing row cells with
  | zero =>
      cases read
      simp
  | succ count ih =>
      rw [RowReader.cells] at read
      split at read
      · contradiction
      rename_i first here
      split at read
      · contradiction
      rename_i rest later
      cases read
      exact List.forall_mem_cons.mpr ⟨cell_fits here, ih later⟩

theorem PartChunk.cells_fit {chunk : PartChunk} {cells : List Cell}
    (read : chunk.cells codec type = .ok cells) : ∀ cell ∈ cells, cell.Fits type := by
  obtain ⟨decoded, -, read⟩ := exists_of_bind_ok read
  obtain ⟨rows, opened, read⟩ := exists_of_bind_ok read
  rw [← RowReader.type_ofDecoded opened]
  cases found : rows.cells chunk.header.bitmap chunk.header.tupleCount.toNat 0 with
  | error cause =>
      rw [found] at read
      contradiction
  | ok others =>
      rw [found] at read
      cases read
      exact RowReader.cells_fit found

namespace ColumnReader

variable {reader : ColumnReader}

theorem fits_of_forall₂ {chunks : List PartChunk} {rows : List (List Cell)}
    (read : List.Forall₂ (fun chunk cells => chunk.cells codec type = .ok cells) chunks rows) :
    ∀ cell ∈ rows.flatten, cell.Fits type := by
  induction read with
  | nil => simp
  | cons here later ih =>
      rw [List.flatten_cons, List.forall_mem_append]
      exact ⟨PartChunk.cells_fit here, ih⟩

/-- The rows of a column are null or of its type. -/
theorem Reads.fits {cells : List Cell} (reads : reader.Reads codec cells) :
    ∀ cell ∈ cells, cell.Fits reader.type := by
  obtain ⟨rows, read, rfl⟩ := reads.chunks
  exact fits_of_forall₂ read

end ColumnReader

end Rows

section Sinks

variable {α : Type} {codec : Codec} {reader : ColumnReader}

/-- A sink that collects values of one type and width, with a stand-in for null. -/
structure Sink.Collects (sink : Sink (Array α)) (wanted : ColumnType) (width : Nat)
    (wrap : α → Cell) (missing : α) : Prop where
  start : ∀ type rows values, sink.start type rows values = (do
    let values ← Sink.checkType wanted type values
    Sink.reserve (width * (values.size + rows)) values)
  null : ∀ values, sink.push .null values = .ok (values.push missing)
  value : ∀ entry values, sink.push (wrap entry) values = .ok (values.push entry)
  finish : ∀ values, sink.finish values = .ok values

variable {sink : Sink (Array α)} {wanted : ColumnType} {width : Nat} {wrap : α → Cell} {missing : α}

theorem Sink.Collects.pushAll (collects : sink.Collects wanted width wrap missing)
    (slots : List (Option α)) (values : Array α) :
    sink.pushAll (slots.map fun slot => slot.elim .null wrap) values =
      .ok (values ++ (slots.map (·.getD missing)).toArray) := by
  induction slots generalizing values with
  | nil => simp [Sink.pushAll]
  | cons slot rest ih =>
      have step : sink.push (slot.elim .null wrap) values =
          .ok (values.push (slot.getD missing)) := by
        cases slot with
        | none => exact collects.null values
        | some entry => exact collects.value entry values
      rw [List.map_cons, Sink.pushAll, step]
      simp only [ih, List.map_cons]
      simp

/-- A column of the wanted type is collected with the stand-in for every null, in one block. -/
theorem Sink.Collects.materialize (collects : sink.Collects wanted width wrap missing)
    {slots : Array (Option α)} (type : reader.type = wanted)
    (reads : reader.Reads codec (slots.toList.map fun slot => slot.elim .null wrap)) :
    reader.materialize codec sink #[] =
      Sink.reserve (width * slots.size) (slots.size, slots.map (·.getD missing)) := by
  have start : sink.start reader.type (slots.toList.map fun slot => slot.elim .null wrap).length
      #[] = Sink.reserve (width * slots.size) #[] := by
    rw [collects.start, type, Sink.checkType, if_pos rfl, List.length_map, Array.length_toList]
    simp only [bind, Except.bind, Array.size_empty, Nat.zero_add]
  rw [reads.materialize, Sink.run, start, Sink.reserve, Sink.reserve]
  split
  · rfl
  · simp only [collects.pushAll, collects.finish, bind, Except.bind, List.length_map,
      Array.length_toList, ← List.map_toArray, Array.toArray_toList, Array.empty_append]
    rfl

/-- Where a sink begins with the type, another one is refused, whatever it would do with a row. -/
theorem ColumnReader.Reads.refused {σ : Type} {sink : Sink σ} {state : σ} {cells : List Cell}
    (reads : reader.Reads codec cells) (differs : wanted ≠ reader.type)
    (start : ∀ type rows state, wanted ≠ type →
      sink.start type rows state = .error (.typeMismatch wanted type)) :
    reader.materialize codec sink state = .error (.typeMismatch wanted reader.type) := by
  rw [reads.materialize, Sink.run, start _ _ _ differs]
  rfl

theorem Sink.Collects.start_refused (collects : sink.Collects wanted width wrap missing)
    {type : ColumnType} (rows : Nat) (values : Array α) (differs : wanted ≠ type) :
    sink.start type rows values = .error (.typeMismatch wanted type) := by
  rw [collects.start, Sink.checkType, if_neg differs.symm]
  rfl

end Sinks

namespace NullableArray

end NullableArray

namespace Read

section Agreement

variable {α : Type} {stores : Stores} {path : String} {index : Nat} {reader : ColumnReader}
  {sink : Sink (Array α)} {wanted : ColumnType} {width : Nat} {wrap : α → Cell} {missing : α}

end Agreement

section Steps

/-- The next step of writing one column to a file, unless that has ended. -/
def fileStep? (path output : String) (column : Nat) : Stores × Task → Option (Stores × Task)
  | (stores, .writing rows text) =>
      match writePath stores output (Text.encode text) with
      | .error error => some (stores, .ended (.error error))
      | .ok written => some (written, .ended (.ok rows))
  | (stores, task) => task.step? ⟨path, output, [column], []⟩ column stores

/-- What holds of the stores and the task on the way to a file. -/
def FileStands (before : Stores) (path output : String) (column : Nat) : Stores × Task → Prop
  | (stores, .ended (.ok rows)) => intoFile before path column output = .ok (rows, stores)
  | (stores, .ended (.error error)) =>
      stores = before ∧ intoFile before path column output = .error error
  | (stores, task) => stores = before ∧ task.Stands before path column

variable {before stores later : Stores} {path output : String} {column : Nat}
  {task next : Task} {state : Stores × Task}

theorem intoFile_of_text {rows : Nat} {content : String}
    (read : text before path column = .ok (rows, content)) (output : String) :
    intoFile before path column output =
      (writePath before output (Text.encode content)).map (rows, ·) := by
  rw [text] at read
  simp only [intoFile, read, bind, Except.bind]
  cases writePath before output (Text.encode content) with
  | error error => rfl
  | ok written => rfl

theorem intoFile_of_text_error {error : Error} (failed : text before path column = .error error)
    (output : String) : intoFile before path column output = .error error := by
  rw [text] at failed
  rw [intoFile, failed]
  rfl

/-- A task that has read its column stands where it did, and has not written it. -/
theorem FileStands.of_read (stands : next.Stands before path column)
    (unended : ∀ rows, next ≠ .ended (.ok rows)) :
    FileStands before path output column (before, next) := by
  cases next with
  | opening => exact ⟨rfl, stands⟩
  | reading found parts => exact ⟨rfl, stands⟩
  | writing rows text => exact ⟨rfl, stands⟩
  | ended result =>
      cases result with
      | ok rows => exact (unended rows rfl).elim
      | error error =>
          refine ⟨rfl, intoFile_of_text_error ?_ output⟩
          cases read : text before path column with
          | ok done =>
              rw [Task.Stands, read] at stands
              contradiction
          | error other =>
              rw [Task.Stands, read] at stands
              cases stands
              rfl

theorem FileStands.step (stands : FileStands before path output column (stores, task))
    (stepped : fileStep? path output column (stores, task) = some (later, next)) :
    FileStands before path output column (later, next) ∧ next.remaining < task.remaining := by
  have read (unwritten : ∀ rows text, task ≠ .writing rows text)
      (stands : task.Stands before path column)
      (stepped : task.step? ⟨path, output, [column], []⟩ column before = some (later, next)) :
      FileStands before path output column (later, next) ∧ next.remaining < task.remaining := by
    obtain ⟨rfl, stands, fewer, unended⟩ :=
      @Task.Stands.read_step ⟨path, output, [column], []⟩ before later column task next stands
        unwritten stepped
    exact ⟨.of_read stands unended, fewer⟩
  cases task with
  | opening =>
      obtain ⟨rfl, stands⟩ := stands
      exact read nofun stands stepped
  | reading found parts =>
      obtain ⟨rfl, stands⟩ := stands
      exact read nofun stands stepped
  | writing rows content =>
      obtain ⟨rfl, stands⟩ := stands
      have file := intoFile_of_text stands output
      rw [fileStep?] at stepped
      cases written : writePath stores output (Text.encode content) with
      | error error =>
          rw [written] at stepped file
          cases stepped
          exact ⟨⟨rfl, file⟩, Nat.succ_pos _⟩
      | ok after =>
          rw [written] at stepped file
          cases stepped
          exact ⟨file, Nat.succ_pos _⟩
  | ended result => contradiction

theorem FileStands.start (before : Stores) (path output : String) (column : Nat) :
    FileStands before path output column (before, .opening) := ⟨rfl, trivial⟩

end Steps

example : array ColumnReader.nullStores "memory://t" 0 = .ok (.integers #[none]) := by
  decide +kernel

end Read

end Columnar
