import Columnar.Proofs.Tabular.Marks

namespace Columnar.Tabular

/-!
What an ingested relation says of the fields of its text.

The rows are the lines of the text.  Every column has a slot and a bit for each of them, the bit of
an unset field is cleared, and the counts are those of the fields.
-/

/-- Whether a field is set to zero or to the empty text. -/
def isEmptyField (type : ColumnType) (field : String) : Bool :=
  !isUnset type field && (slot? type field).any Cell.isEmpty

/-- A column that holds fields under a column of a schema. -/
structure ColumnHolds (spec : ColumnSpec) (fields : List String) (column : Column) : Prop where
  name : column.name = spec.name
  typed : column.type = spec.type
  data : spec.type ≠ .skip → ∃ values bits, column.values = some values ∧
    column.validity.Represents bits ∧ Held spec.type fields values bits ∧
    values.length = fields.length ∧ column.validity.length = fields.length
  skipped : spec.type = .skip → column.values = none ∧ column.validity.length = 0
  nulls : column.counts.nulls = fields.countP (isUnset spec.type)
  empties : column.counts.empties = fields.countP (isEmptyField spec.type)

section Counts

variable {type : ColumnType} {fields : List String} {values : Values} {bits : List Bool}

theorem countP_isEmpty {cells : List Cell} (slots : cells.map some = fields.map (slot? type)) :
    ((cells.zip (fields.map fun field => !isUnset type field)).map fun row =>
      if row.2 then row.1 else .null).countP Cell.isEmpty = fields.countP (isEmptyField type) := by
  induction fields generalizing cells with
  | nil => simp
  | cons field rest ih =>
      obtain ⟨cell, others, rfl, slot, later⟩ := List.map_eq_cons_iff.mp slots
      rw [List.map_cons, List.zip_cons_cons, List.map_cons, List.countP_cons, List.countP_cons,
        ih later, isEmptyField, ← slot]
      cases isUnset type field with
      | true => rfl
      | false => rfl

theorem Held.empties (held : Held type fields values bits) :
    (Column.rowsOf values (.ofList bits)).countP Cell.isEmpty =
      fields.countP (isEmptyField type) := by
  rw [Column.rowsOf, (Validity.represents_ofList bits).toList, held.bits]
  exact countP_isEmpty held.slots

theorem Held.nulls (held : Held type fields values bits) :
    (Validity.ofList bits).zeros = fields.countP (isUnset type) := by
  have represents := Validity.represents_ofList bits
  have whole := @List.length_eq_countP_add_countP _ (isUnset type) fields
  have set : bits.count true = fields.countP fun field => ¬ isUnset type field := by
    rw [held.bits, List.count_eq_countP, List.countP_map]
    refine List.countP_congr fun field _ => ?_
    cases unset : isUnset type field <;> simp [unset]
  rw [Validity.zeros, represents.length, represents.ones, set, held.length.2]
  omega

theorem Held.column {spec : ColumnSpec} (held : Held spec.type fields values bits) :
    ColumnHolds spec fields (.ofParts spec.name (some values) (.ofList bits)) := by
  obtain ⟨valueCount, bitCount⟩ := held.length
  have represents := Validity.represents_ofList bits
  refine ⟨rfl, held.typed, fun _ => ?_, fun skip => ?_, held.nulls, held.empties⟩
  · exact ⟨values, bits, rfl, represents, held, valueCount, represents.length.trans bitCount⟩
  · exact absurd (held.typed.trans skip) values.type_ne_skip

theorem ColumnBuilder.Took.column {spec : ColumnSpec} {builder : ColumnBuilder}
    (took : builder.Took spec.type fields) :
    ColumnHolds spec fields (builder.toColumn spec.name) := by
  cases builder with
  | integers values validity => exact Held.column took
  | doubles values validity => exact Held.column took
  | strings values validity => exact Held.column took
  | skipped =>
      have skip : spec.type = .skip := took
      have unset : ∀ field ∈ fields, ¬ isUnset spec.type field = true := by simp [skip, isUnset]
      have empty : ∀ field ∈ fields, ¬ isEmptyField spec.type field = true := by
        simp [skip, isEmptyField, slot?]
      refine ⟨rfl, skip.symm, fun data => absurd skip data, fun _ => ⟨rfl, rfl⟩, ?_, ?_⟩
      · exact (List.countP_eq_zero.mpr unset).symm
      · exact (List.countP_eq_zero.mpr empty).symm

end Counts

section Columns

variable {specs : List ColumnSpec} {table : List (List String)} {builders : List ColumnBuilder}
  {column : Column}

theorem Taken.holds {index : Nat} (taken : Taken specs table builders)
    (found : ((specs.zip builders).map fun entry => entry.2.toColumn entry.1.name)[index]? =
      some column) :
    ∃ spec, specs[index]? = some spec ∧ ColumnHolds spec (fieldsAt table index) column := by
  rw [List.getElem?_map] at found
  obtain ⟨⟨spec, builder⟩, entry, rfl⟩ := Option.map_eq_some_iff.mp found
  obtain ⟨declared, made⟩ := List.getElem?_zip_eq_some.mp entry
  exact ⟨spec, declared, (taken.took declared made).column⟩

theorem Taken.lengths (taken : Taken specs table builders)
    (member : column ∈ (specs.zip builders).map fun entry => entry.2.toColumn entry.1.name)
    {values : Values} (data : column.values = some values) :
    values.length = table.length ∧ column.validity.length = table.length := by
  obtain ⟨index, found⟩ := List.getElem?_of_mem member
  obtain ⟨spec, -, holds⟩ := taken.holds found
  have kept : spec.type ≠ .skip := holds.typed ▸ Column.type_ne_skip data
  obtain ⟨others, bits, same, -, -, lengths⟩ := holds.data kept
  rw [data] at same
  cases same
  rwa [fieldsAt, List.length_map] at lengths

/-- Columns that have taken one table make a relation. -/
theorem Taken.exists_relation (taken : Taken specs table builders) :
    ∃ relation, addColumns .empty
      ((specs.zip builders).map fun entry => entry.2.toColumn entry.1.name) = .ok relation := by
  have sized : Relation.empty.hasData = true → Relation.empty.tupleCount = table.length := by
    simp [Relation.hasData, Relation.empty]
  exact exists_addColumns sized fun column member values data => taken.lengths member data

end Columns

section Ingestion

variable {format : TextFormat} {specs : List ColumnSpec} {text : Bytes} {table : Relation}

theorem pushRows_error {row : Nat} {builders : List ColumnBuilder}
    {rows : List (Except RecordFault (List String))} {error : Error}
    (failed : pushRows specs row builders rows = .error error) :
    ∀ fault, error ≠ .columnLength fault := by
  induction rows generalizing row builders with
  | nil => contradiction
  | cons first rest ih =>
      cases first with
      | error cause =>
          cases failed
          simp
      | ok fields =>
          rw [pushRows] at failed
          split at failed
          · rename_i refused
            cases failed
            rcases pushRow_error refused with ⟨fault, rfl⟩ | ⟨row, expected, actual, rfl⟩ <;> simp
          · exact ih failed

/-- The columns that come out of reading are of one length. -/
theorem ingest_ne_columnLength (format : TextFormat) (specs : List ColumnSpec) (text : Bytes)
    (fault : LengthMismatch) : ingest format specs text ≠ .error (.columnLength fault) := by
  intro failed
  unfold ingest at failed
  dsimp only at failed
  split at failed
  · rename_i error pushed
    cases failed
    exact pushRows_error pushed fault rfl
  · rename_i count builders pushed
    obtain ⟨added, -, -, -, taken⟩ := (taken_start specs).pushRows pushed
    obtain ⟨relation, made⟩ := taken.exists_relation
    rw [made] at failed
    dsimp only at failed
    split at failed
    · contradiction
    · contradiction

theorem readable_of_rowsOfLines {all : List Line}
    (read : ∀ row ∈ rowsOfLines 0 all, row.isSome) : ∀ line ∈ all, line.texts?.isSome := by
  rcases readable_or_split all with readable | ⟨front, fields, back, rfl, readable, unreadable⟩
  · exact readable
  · obtain ⟨closed, count, rfl, last⟩ := exists_closed front
    have within : ∀ line ∈ closed, line.texts?.isSome :=
      fun line member => readable line (List.mem_append_left _ member)
    rw [rowsOfLines_fault within last count unreadable] at read
    have fault := read none (by simp)
    contradiction

theorem linesRead_of_kept (kept : format.header ∨ byteOrderMark.isPrefixOf text = false) :
    linesRead format text = linesIn format (unmark text) := by
  rcases kept with header | unmarked
  · rw [linesRead, linesBehindMark, if_pos header]
    split
    · rfl
    · rename_i unmarked
      rw [unmark, if_neg unmarked]
  · rw [linesRead, unmark, unmarked, if_neg Bool.false_ne_true, if_neg Bool.false_ne_true]

/-- Rows that can all be read are the lines. -/
theorem linesRead_of_rows {added : List (List String)} (same : rows format text = added.map .ok) :
    (linesRead format text).map Line.texts? = added.map some := by
  have options := toOption_rows_read format text
  rw [same, List.map_map] at options
  have all : ∀ row ∈ rowsOfLines 0 (linesRead format text), row.isSome := by
    rw [← options]
    intro row member
    obtain ⟨fields, -, rfl⟩ := List.mem_map.mp member
    rfl
  rw [rowsOfLines_readable 0 (readable_of_rowsOfLines all)] at options
  exact options.symm

/-- What ingestion answers with holds the lines of the text, each in one row, and every column its
own fields of them.  Columns of different lengths do not come of it. -/
theorem ingest_holds_fields (format : TextFormat) (specs : List ColumnSpec) (text : Bytes) :
    (∀ fault, ingest format specs text ≠ .error (.columnLength fault)) ∧
    ∀ relation, ingest format specs text = .ok relation →
      ∃ table : List (List String),
        (linesRead format text).map Line.texts? = table.map some ∧
        (∀ fields ∈ table, fields.length = specs.length) ∧
        relation.tupleCount = table.length ∧
        (format.header ∨ byteOrderMark.isPrefixOf text = false →
          relation.tupleCount = (linesIn format (unmark text)).length) ∧
        relation.columns.length = specs.length ∧
        ∀ index spec column, specs[index]? = some spec →
          relation.columns[index]? = some column →
            ColumnHolds spec (fieldsAt table index) column := by
  refine ⟨ingest_ne_columnLength format specs text, fun relation ingested => ?_⟩
  obtain ⟨added, builders, built, same, widths, taken, columns, whole⟩ := exists_taken ingested
  have represents : ∀ column ∈ (specs.zip builders).map fun entry =>
      entry.2.toColumn entry.1.name, ∃ bits, column.validity.Represents bits := by
    intro column member
    obtain ⟨spec, -, grown⟩ := exists_related taken.aligned.grown.flip member
    exact grown.represents
  have order : relation.columns =
      (specs.zip builders).map fun entry => entry.2.toColumn entry.1.name := by
    rw [whole]
    split
    · exact (built_addColumns .empty represents columns).2
    · exact (built_addColumns .empty represents columns).2
  have lines := linesRead_of_rows same
  have total : relation.tupleCount = added.length := by
    rw [(ingest_sound ingested).2, same, List.length_map]
  refine ⟨added, lines, widths, total, fun kept => ?_, ?_, ?_⟩
  · have count := congrArg List.length lines
    rw [List.length_map, List.length_map, linesRead_of_kept kept] at count
    rw [total, count]
  · rw [order, List.length_map, List.length_zip, taken.count, Nat.min_self]
  · intro index spec column declared found
    rw [order] at found
    obtain ⟨other, again, holds⟩ := taken.holds found
    rw [declared] at again
    cases again
    exact holds

/-- An unset field, an empty line and a text. -/
theorem ingest_holds_fields_nullAndEmpty :
    ∃ relation column,
      ingest {} [⟨"a", .string⟩] (Text.encode "null\n\nx\n") = .ok relation ∧
      relation.tupleCount = 3 ∧ relation.columns = [column] ∧
      column.counts.nulls = 1 ∧ column.counts.empties = 1 := by
  obtain ⟨-, holds⟩ := ingest_holds_fields {} [⟨"a", .string⟩] (Text.encode "null\n\nx\n")
  have succeeds : (ingest {} [⟨"a", .string⟩] (Text.encode "null\n\nx\n")).isOk = true := by cbv
  have texts : (linesRead {} (Text.encode "null\n\nx\n")).map Line.texts? =
      [["null"], [""], ["x"]].map some := by cbv
  cases read : ingest {} [⟨"a", .string⟩] (Text.encode "null\n\nx\n") with
  | error error =>
      rw [read] at succeeds
      contradiction
  | ok relation =>
      obtain ⟨table, lines, -, total, -, one, columns⟩ := holds relation read
      rw [texts] at lines
      obtain rfl := List.map_injective_iff.mpr (Option.some_injective _) lines
      obtain ⟨column, listed⟩ := List.length_eq_one_iff.mp one
      have held := columns 0 _ column rfl (by rw [listed]; rfl)
      have nulls : ["null", "", "x"].countP (isUnset .string) = 1 := by decide
      have empties : ["null", "", "x"].countP (isEmptyField .string) = 1 := by decide
      exact ⟨relation, column, rfl, total, listed, held.nulls.trans nulls,
        held.empties.trans empties⟩

/-- The empty lines behind a mark are rows of the text, and are not counted. -/
theorem not_ingest_counts_lines :
    ¬ ∀ (format : TextFormat) (specs : List ColumnSpec) (text : Bytes) (relation : Relation),
      ingest format specs text = .ok relation →
        relation.tupleCount = (linesIn format (unmark text)).length := by
  intro counts
  have marked : (ingest {} [⟨"a", .integer⟩] (byteOrderMark ++ Text.encode "\n\n1\n")).map
      Relation.tupleCount = .ok 1 := by cbv
  have lines : (linesIn {} (unmark (byteOrderMark ++ Text.encode "\n\n1\n"))).length = 3 := by cbv
  cases read : ingest {} [⟨"a", .integer⟩] (byteOrderMark ++ Text.encode "\n\n1\n") with
  | error error =>
      rw [read] at marked
      contradiction
  | ok relation =>
      have all := counts {} _ _ relation read
      rw [read] at marked
      have one : relation.tupleCount = 1 := Except.ok.inj marked
      rw [lines, one] at all
      contradiction

end Ingestion

end Columnar.Tabular
