import Columnar.Proofs.Tabular.Fields

namespace Columnar.Tabular

/-!
The defect that ingestion reports.

A row fits a schema if it has a field for every column and each of them is unset or a value of its
column.  Ingestion fails with the first row that does not fit: with its number of fields if that is
wrong, and else with the first of its fields that is no value.
-/

section Rows

/-- Why a field is no value of a type.  A field that is unset needs none. -/
def fieldFault? (type : ColumnType) (field : String) : Option Decimal.Fault :=
  if isUnset type field then none
  else
    match type with
    | .integer => error? (Decimal.readInt32 (Text.trim field))
    | .double => error? (Double.read (Text.trim field))
    | .string | .skip => none

def RowFits (specs : List ColumnSpec) (fields : List String) : Prop :=
  fields.length = specs.length ∧
    ∀ entry ∈ specs.zip fields, fieldFault? entry.1.type entry.2 = none

instance (specs : List ColumnSpec) (fields : List String) : Decidable (RowFits specs fields) :=
  inferInstanceAs (Decidable (_ ∧ _))

/-- What is wrong with the row of a number.  Fields are counted before they are read. -/
inductive RowDefect (specs : List ColumnSpec) (row : Nat) (fields : List String) : Error → Prop where
  | count (differs : fields.length ≠ specs.length) :
      RowDefect specs row fields (.fieldCount row specs.length fields.length)
  | field {before after : List (ColumnSpec × String)} {spec : ColumnSpec} {field : String}
      {reason : Decimal.Fault} (length : fields.length = specs.length)
      (split : specs.zip fields = before ++ (spec, field) :: after)
      (values : ∀ entry ∈ before, fieldFault? entry.1.type entry.2 = none)
      (malformed : fieldFault? spec.type field = some reason) :
      RowDefect specs row fields (.malformedField ⟨row, before.length, spec, field, reason⟩)

/-- What is wrong with the first row of a table that does not fit. -/
def FirstDefect (specs : List ColumnSpec) (table : List (List String)) (error : Error) : Prop :=
  ∃ before fields after, table = before ++ fields :: after ∧
    (∀ earlier ∈ before, RowFits specs earlier) ∧ RowDefect specs before.length fields error

theorem fits_or_defect (specs : List ColumnSpec) (row : Nat) (fields : List String) :
    RowFits specs fields ∨ ∃ error, RowDefect specs row fields error := by
  by_cases length : fields.length = specs.length
  · refine (all_or_first (fun entry => fieldFault? entry.1.type entry.2 = none)
      (specs.zip fields)).imp (⟨length, ·⟩) ?_
    rintro ⟨before, ⟨spec, field⟩, after, split, values, fails⟩
    obtain ⟨reason, malformed⟩ := Option.ne_none_iff_exists'.mp fails
    exact ⟨_, .field length split values malformed⟩
  · exact .inr ⟨_, .count length⟩

theorem fits_or_firstDefect (specs : List ColumnSpec) (table : List (List String)) :
    (∀ fields ∈ table, RowFits specs fields) ∨ ∃ error, FirstDefect specs table error := by
  refine (all_or_first (RowFits specs) table).imp_right ?_
  rintro ⟨before, fields, after, split, fits, fails⟩
  obtain ⟨error, defect⟩ := (fits_or_defect specs before.length fields).resolve_left fails
  exact ⟨error, before, fields, after, split, fits, defect⟩

theorem RowDefect.not_fits {specs : List ColumnSpec} {row : Nat} {fields : List String}
    {error : Error} (defect : RowDefect specs row fields error) : ¬ RowFits specs fields := by
  rintro ⟨length, values⟩
  cases defect with
  | count differs => exact differs length
  | field _ split _ malformed =>
      have value := values _ (split ▸ List.mem_append_right _ List.mem_cons_self)
      rw [value] at malformed
      contradiction

end Rows

section Builders

variable {type : ColumnType} {count row column : Nat} {builder : ColumnBuilder}
  {field : String} {reason : Decimal.Fault} {specs : List ColumnSpec}
  {builders : List ColumnBuilder} {fields : List String} {before table : List (List String)}
  {error : Error}

theorem ColumnBuilder.Filled.push_error_iff (filled : builder.Filled type count) :
    builder.push field = .error reason ↔ fieldFault? type field = some reason := by
  cases builder with
  | integers values validity =>
      obtain rfl : type = .integer := filled.1
      rw [ColumnBuilder.push, numericText?_eq, fieldFault?]
      cases isUnset .integer field with
      | true => simp
      | false => exact map_eq_error_iff.trans error?_eq_some_iff.symm
  | doubles values validity =>
      obtain rfl : type = .double := filled.1
      rw [ColumnBuilder.push, numericText?_eq, fieldFault?,
        show isUnset .integer field = isUnset .double field from rfl]
      cases isUnset .double field with
      | true => simp
      | false => exact map_eq_error_iff.trans error?_eq_some_iff.symm
  | strings values validity =>
      obtain rfl : type = .string := filled.1
      simp only [ColumnBuilder.push, fieldFault?]
      split <;> simp
  | skipped =>
      obtain rfl : type = .skip := filled
      simp [ColumnBuilder.push, fieldFault?]

theorem ColumnBuilder.Filled.exists_push (filled : builder.Filled type count)
    (value : fieldFault? type field = none) : ∃ next, builder.push field = .ok next := by
  cases pushed : builder.push field with
  | ok next => exact ⟨next, rfl⟩
  | error reason =>
      rw [filled.push_error_iff.mp pushed] at value
      contradiction

theorem Aligned.exists_pushFields (aligned : Aligned specs count builders)
    (length : fields.length = specs.length)
    (values : ∀ entry ∈ specs.zip fields, fieldFault? entry.1.type entry.2 = none) :
    ∃ next, pushFields row column specs builders fields = .ok next := by
  induction aligned generalizing column fields with
  | nil => exact ⟨[], by rw [pushFields]; simp⟩
  | cons filled _ ih =>
      obtain ⟨field, fields, rfl⟩ := List.exists_cons_of_length_eq_add_one length
      obtain ⟨here, later⟩ := List.forall_mem_cons.mp values
      obtain ⟨first, pushed⟩ := filled.exists_push here
      obtain ⟨others, added⟩ := @ih (column + 1) fields (Nat.succ.inj length) later
      exact ⟨first :: others, by simp only [pushFields, pushed, added]⟩

/-- Fields are pushed up to the first that is no value. -/
theorem Aligned.pushFields_malformed {spec : ColumnSpec} {before after : List (ColumnSpec × String)}
    (aligned : Aligned specs count builders)
    (split : specs.zip fields = before ++ (spec, field) :: after)
    (values : ∀ entry ∈ before, fieldFault? entry.1.type entry.2 = none)
    (malformed : fieldFault? spec.type field = some reason) :
    pushFields row column specs builders fields =
      .error (.malformedField ⟨row, column + before.length, spec, field, reason⟩) := by
  induction aligned generalizing column before fields with
  | nil => cases before <;> contradiction
  | cons filled _ ih =>
      cases fields with
      | nil => cases before <;> contradiction
      | cons text fields =>
          cases before with
          | nil =>
              cases split
              rw [pushFields, filled.push_error_iff.mpr malformed]
              rfl
          | cons entry before =>
              obtain ⟨here, later⟩ := List.forall_mem_cons.mp values
              obtain ⟨rfl, rest⟩ := List.cons.inj split
              obtain ⟨next, pushed⟩ := filled.exists_push here
              rw [pushFields, pushed, @ih (column + 1) fields before rest later]
              simp only [List.length_cons, Nat.add_assoc, Nat.add_comm 1]

theorem RowFits.exists_pushRow (fits : RowFits specs fields) (taken : Taken specs before builders)
    (row : Nat) :
    ∃ next, pushRow specs row builders fields = .ok next ∧
      Taken specs (before ++ [fields]) next := by
  obtain ⟨next, pushed⟩ := @Aligned.exists_pushFields _ row 0 _ _ _ taken.aligned fits.1 fits.2
  have added : pushRow specs row builders fields = .ok next := by
    rw [pushRow, if_neg (not_not.mpr fits.1), pushed]
  exact ⟨next, added, (taken.pushRow added).2⟩

theorem RowDefect.pushRow (defect : RowDefect specs row fields error)
    (taken : Taken specs before builders) :
    pushRow specs row builders fields = .error error := by
  rw [Tabular.pushRow]
  cases defect with
  | count differs => rw [if_pos differs]
  | field length split values malformed =>
      rw [if_neg (not_not.mpr length), taken.aligned.pushFields_malformed split values malformed,
        Nat.zero_add]

theorem Taken.pushRows_fit (taken : Taken specs before builders)
    (fits : ∀ fields ∈ table, RowFits specs fields) (row : Nat)
    (rest : List (Except RecordFault (List String))) :
    ∃ next, Taken specs (before ++ table) next ∧
      Tabular.pushRows specs row builders (table.map .ok ++ rest) =
        Tabular.pushRows specs (row + table.length) next rest := by
  induction table generalizing row before builders with
  | nil => exact ⟨builders, by rwa [List.append_nil], rfl⟩
  | cons fields others ih =>
      obtain ⟨here, later⟩ := List.forall_mem_cons.mp fits
      obtain ⟨grown, pushed, more⟩ := here.exists_pushRow taken row
      obtain ⟨next, whole, same⟩ := ih more later (row + 1)
      rw [List.append_assoc, List.singleton_append] at whole
      refine ⟨next, whole, ?_⟩
      simp only [List.map_cons, List.cons_append, Tabular.pushRows, pushed, same, List.length_cons,
        Nat.add_assoc, Nat.add_comm 1]

end Builders

section Ingestion

variable {specs : List ColumnSpec} {table : List (List String)} {error : Error}
  {fault : RecordFault}

theorem FirstDefect.ingestRows (defect : FirstDefect specs table error)
    (rest : List (Except RecordFault (List String))) :
    ingestRows specs (table.map .ok ++ rest) = .error error := by
  obtain ⟨before, fields, after, rfl, fits, wrong⟩ := defect
  obtain ⟨builders, taken, same⟩ := (taken_start specs).pushRows_fit fits 0
    (.ok fields :: (after.map .ok ++ rest))
  rw [List.nil_append] at taken
  rw [Nat.zero_add, pushRows, wrong.pushRow taken] at same
  rw [List.map_append, List.map_cons, List.append_assoc, List.cons_append, Tabular.ingestRows, same]

theorem exists_ingestRows (fits : ∀ fields ∈ table, RowFits specs fields) :
    ∃ relation, ingestRows specs (table.map .ok) = .ok relation := by
  obtain ⟨builders, taken, pushed⟩ := (taken_start specs).pushRows_fit fits 0 []
  rw [List.append_nil] at pushed
  obtain ⟨relation, made⟩ := taken.exists_relation
  rw [ingestRows, pushed, Tabular.pushRows]
  dsimp only
  rw [made]
  dsimp only
  split
  · exact ⟨_, rfl⟩
  · exact ⟨_, rfl⟩

theorem ingestRows_fault (fits : ∀ fields ∈ table, RowFits specs fields) (fault : RecordFault) :
    ingestRows specs (table.map .ok ++ [.error fault]) = .error (.record fault) := by
  obtain ⟨builders, -, pushed⟩ := (taken_start specs).pushRows_fit fits 0 [.error fault]
  rw [ingestRows, pushed, Tabular.pushRows]

theorem ingestRows_error_iff :
    ingestRows specs (table.map .ok) = .error error ↔ FirstDefect specs table error := by
  have reported {found : Error} (defect : FirstDefect specs table found) :
      ingestRows specs (table.map .ok) = .error found := by
    simpa only [List.append_nil] using defect.ingestRows []
  refine ⟨fun failed => ?_, reported⟩
  rcases fits_or_firstDefect specs table with fits | ⟨found, defect⟩
  · obtain ⟨relation, made⟩ := exists_ingestRows fits
    rw [made] at failed
    contradiction
  · rw [reported defect] at failed
    cases failed
    exact defect

theorem ingestRows_fault_error_iff :
    ingestRows specs (table.map .ok ++ [.error fault]) = .error error ↔
      FirstDefect specs table error ∨
        (∀ fields ∈ table, RowFits specs fields) ∧ error = .record fault := by
  constructor
  · intro failed
    rcases fits_or_firstDefect specs table with fits | ⟨found, defect⟩
    · rw [ingestRows_fault fits] at failed
      cases failed
      exact .inr ⟨fits, rfl⟩
    · rw [defect.ingestRows] at failed
      cases failed
      exact .inl defect
  · rintro (defect | ⟨fits, rfl⟩)
    · exact defect.ingestRows _
    · exact ingestRows_fault fits fault

theorem exists_texts {all : List Line} (readable : ∀ line ∈ all, line.texts?.isSome) :
    ∃ table : List (List String), all.map Line.texts? = table.map some ∧
      ∀ fault, all.map (Line.row fault) = table.map .ok := by
  induction all with
  | nil => exact ⟨[], rfl, fun _ => rfl⟩
  | cons line rest ih =>
      obtain ⟨here, later⟩ := List.forall_mem_cons.mp readable
      obtain ⟨texts, held⟩ := Option.isSome_iff_exists.mp here
      obtain ⟨table, same, rows⟩ := ih later
      refine ⟨texts :: table, by rw [List.map_cons, held, same, List.map_cons], fun fault => ?_⟩
      rw [List.map_cons, Line.row, held, rows, List.map_cons]
      rfl

/-- Ingestion fails when some line does not fit the schema, and reports what is wrong with the first
such line.  Only where the delimiter cuts characters can a record be no text, and then it is
reported if the lines in front of it fit, without the empty ones directly in front of it. -/
theorem ingest_reports_first_defect (format : TextFormat) (text : String)
    (unmarked : byteOrderMark.isPrefixOf (Text.encode text) = false) :
    (∃ table : List (List String),
      (linesIn format (Text.encode text)).map Line.texts? = table.map some ∧
      ∀ specs,
        ((∃ error, ingest format specs (Text.encode text) = .error error) ↔
          ∃ fields ∈ table, ¬ RowFits specs fields) ∧
        ∀ error, ingest format specs (Text.encode text) = .error error ↔
          FirstDefect specs table error) ∨
    (0x80 ≤ format.delimiter ∧ ∃ front count fields back fault, ∃ table : List (List String),
      linesIn format (Text.encode text) =
        front ++ List.replicate count .empty ++ .record fields :: back ∧
      front.getLast? ≠ some .empty ∧ front.map Line.texts? = table.map some ∧
      (Line.record fields).texts? = none ∧
      ∀ specs error, ingest format specs (Text.encode text) = .error error ↔
        FirstDefect specs table error ∨
          (∀ fields ∈ table, RowFits specs fields) ∧ error = .record fault) := by
  rcases ingest_adds_lines format text unmarked with
    ⟨readable, added⟩ | ⟨cuts, front, count, fields, back, fault, split, last, readable, none, -,
      added⟩
  · left
    obtain ⟨table, texts, rows⟩ := exists_texts readable
    have reports (specs : List ColumnSpec) (error : Error) :
        ingest format specs (Text.encode text) = .error error ↔
          FirstDefect specs table error := by
      rw [(added ⟨0, 0, 0, 0, 0⟩).2 specs, rows]
      exact ingestRows_error_iff
    refine ⟨table, texts, fun specs => ⟨⟨?_, ?_⟩, reports specs⟩⟩
    · rintro ⟨error, failed⟩
      obtain ⟨before, fields, after, rfl, -, defect⟩ := (reports specs error).mp failed
      exact ⟨fields, List.mem_append_right before List.mem_cons_self, defect.not_fits⟩
    · rintro ⟨fields, member, fails⟩
      obtain ⟨error, defect⟩ := (fits_or_firstDefect specs table).resolve_left
        fun fits => fails (fits fields member)
      exact ⟨error, (reports specs error).mpr defect⟩
  · right
    obtain ⟨table, texts, rows⟩ := exists_texts readable
    refine ⟨cuts, front, count, fields, back, fault, table, split, last, texts, none, ?_⟩
    intro specs error
    rw [added specs, rows]
    exact ingestRows_fault_error_iff

/-- The empty line counts as a row, and a malformed field is reported as it stands in the text. -/
theorem ingest_reports_first_defect_emptyLine :
    ingest {} [⟨"a", .string⟩] (Text.encode "x\n\ny,z\n1,2") = .error (.fieldCount 2 1 2) ∧
      ingest {} [⟨"a", .string⟩, ⟨"b", .integer⟩] (Text.encode "x,\nnull, y\n\n") =
        .error (.malformedField ⟨1, 1, ⟨"b", .integer⟩, " y", .invalidDigit⟩) := by
  have reported (specs : List ColumnSpec) (text : String) (table : List (List String))
      (error : Error) (unmarked : byteOrderMark.isPrefixOf (Text.encode text) = false)
      (texts : (linesIn {} (Text.encode text)).map Line.texts? = table.map some)
      (defect : FirstDefect specs table error) :
      ingest {} specs (Text.encode text) = .error error := by
    rcases ingest_reports_first_defect {} text unmarked with ⟨found, same, reports⟩ | ⟨cuts, -⟩
    · rw [texts] at same
      obtain rfl := List.map_injective_iff.mpr (Option.some_injective _) same
      exact ((reports specs).2 error).mpr defect
    · exact absurd cuts (by decide)
  constructor
  · refine reported _ _ [["x"], [""], ["y", "z"], ["1", "2"]] _ (by decide) (by cbv) ?_
    exact ⟨[["x"], [""]], ["y", "z"], [["1", "2"]], rfl, by decide, .count (by decide)⟩
  · refine reported _ _ [["x", ""], ["null", " y"], [""]] _ (by decide) (by cbv) ?_
    refine ⟨[["x", ""]], ["null", " y"], [[""]], rfl, by decide, ?_⟩
    exact @RowDefect.field _ _ _ [(⟨"a", .string⟩, "null")] [] _ _ _ rfl rfl (by decide) rfl

/-- With the last byte of a character as delimiter, a record with too many fields is reported as no
text. -/
theorem not_ingest_reports_field_count :
    ¬ ∀ (format : TextFormat) (specs : List ColumnSpec) (text : String) (fields : List Bytes)
        (rest : List Line),
      format.delimiter ≠ carriageReturn → format.delimiter ≠ lineFeed → format.delimiter ≠ quote →
      byteOrderMark.isPrefixOf (Text.encode text) = false →
      linesIn format (Text.encode text) = .record fields :: rest →
      fields.length ≠ specs.length →
      ingest format specs (Text.encode text) =
        .error (.fieldCount 0 specs.length fields.length) := by
  intro reports
  have found : linesIn { delimiter := 0xA9 } (Text.encode "é\n") = [.record [[0xC3], []]] := by cbv
  have stops : ingest { delimiter := 0xA9 } [⟨"a", .integer⟩] (Text.encode "é\n") =
      .error (.record ⟨0, 1, 0, 0, 0⟩) := by cbv
  have unmarked : byteOrderMark.isPrefixOf (Text.encode "é\n") = false := by decide
  have counted := reports { delimiter := 0xA9 } [⟨"a", .integer⟩] "é\n" [[0xC3], []] []
    (by decide) (by decide) (by decide) unmarked found (by decide)
  rw [stops] at counted
  cases counted

end Ingestion

end Columnar.Tabular
