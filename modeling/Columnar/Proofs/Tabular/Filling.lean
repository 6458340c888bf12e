import Columnar.Proofs.Errors
import Columnar.Proofs.Relation.Building
import Columnar.Proofs.Tabular.Records
import Columnar.Tabular.Ingest
import Mathlib.Data.List.Forall2

namespace Columnar.Tabular

/-!
The relation that ingestion gives.

Every column takes one value and one validity bit from each row, so the columns that come out are of
one length, the number of rows of the text.  A row takes at least one byte.
-/

section Fields

/-- Whether a field leaves its row without a value. -/
def isUnset (type : ColumnType) (field : String) : Bool :=
  match type with
  | .integer | .double => Text.trim field = "" ∨ Text.trim field = nullLiteral
  | .string => field = nullLiteral
  | .skip => false

/-- What stands in the slot of a field: a placeholder if it is unset, else its value, which a
numeric field need not have. -/
def slot? (type : ColumnType) (field : String) : Option Cell :=
  match type with
  | .integer =>
      if isUnset type field then some (.integer integerPlaceholder)
      else (Decimal.readInt32 (Text.trim field)).toOption.map .integer
  | .double =>
      if isUnset type field then some (.double doublePlaceholder)
      else (Double.read (Text.trim field)).toOption.map .double
  | .string => some (.string (if isUnset type field then "" else field))
  | .skip => none

/-- Slots and bits that stand for fields of a type. -/
structure Held (type : ColumnType) (fields : List String) (values : Values) (bits : List Bool) :
    Prop where
  typed : values.type = type
  slots : values.cells.map some = fields.map (slot? type)
  bits : bits = fields.map fun field => !isUnset type field

variable {type : ColumnType} {fields : List String} {field : String} {values grown : Values}
  {bits more : List Bool} {cell : Cell}

theorem Held.length (held : Held type fields values bits) :
    values.length = fields.length ∧ bits.length = fields.length := by
  have slots := congrArg List.length held.slots
  rw [List.length_map, List.length_map, Values.length_cells] at slots
  exact ⟨slots, by rw [held.bits, List.length_map]⟩

theorem Held.add (held : Held type fields values bits) (same : grown.type = values.type)
    (cells : grown.cells = values.cells ++ [cell]) (slot : slot? type field = some cell)
    (bit : more = bits ++ [!isUnset type field]) : Held type (fields ++ [field]) grown more := by
  refine ⟨same.trans held.typed, ?_, ?_⟩
  · rw [cells, List.map_append, held.slots, List.map_append, List.map_singleton, List.map_singleton,
      slot]
  · rw [bit, held.bits, List.map_append, List.map_singleton]

theorem numericText?_eq (field : String) :
    numericText? field = if isUnset .integer field then none else some (Text.trim field) := by
  simp [numericText?, isUnset]

end Fields

section Builders

/-- So many rows have been added to a column of a type. -/
def ColumnBuilder.Filled (type : ColumnType) (rows : Nat) : ColumnBuilder → Prop
  | .integers values validity =>
      type = .integer ∧ values.length = rows ∧ validity.length = rows
  | .doubles values validity => type = .double ∧ values.length = rows ∧ validity.length = rows
  | .strings values validity => type = .string ∧ values.length = rows ∧ validity.length = rows
  | .skipped => type = .skip

/-- These fields have been added to a column of a type. -/
def ColumnBuilder.Took (type : ColumnType) (fields : List String) : ColumnBuilder → Prop
  | .integers values validity => Held type fields (.integers values.reverse) validity.reverse
  | .doubles values validity => Held type fields (.doubles values.reverse) validity.reverse
  | .strings values validity => Held type fields (.strings values.reverse) validity.reverse
  | .skipped => type = .skip

theorem ColumnBuilder.took_ofType (type : ColumnType) : (ofType type).Took type [] := by
  cases type with
  | integer => exact ⟨rfl, rfl, rfl⟩
  | double => exact ⟨rfl, rfl, rfl⟩
  | string => exact ⟨rfl, rfl, rfl⟩
  | skip => rfl

variable {type : ColumnType} {taken : List String}

theorem ColumnBuilder.Took.filled {builder : ColumnBuilder} (took : builder.Took type taken) :
    builder.Filled type taken.length := by
  cases builder with
  | integers values validity =>
      obtain ⟨slots, bits⟩ := Held.length took
      exact ⟨Held.typed took |>.symm, List.length_reverse.symm.trans slots,
        List.length_reverse.symm.trans bits⟩
  | doubles values validity =>
      obtain ⟨slots, bits⟩ := Held.length took
      exact ⟨Held.typed took |>.symm, List.length_reverse.symm.trans slots,
        List.length_reverse.symm.trans bits⟩
  | strings values validity =>
      obtain ⟨slots, bits⟩ := Held.length took
      exact ⟨Held.typed took |>.symm, List.length_reverse.symm.trans slots,
        List.length_reverse.symm.trans bits⟩
  | skipped => exact took

theorem ColumnBuilder.Took.push {builder next : ColumnBuilder} {field : String}
    (took : builder.Took type taken) (pushed : builder.push field = .ok next) :
    next.Took type (taken ++ [field]) := by
  cases builder with
  | integers values validity =>
      obtain rfl : ColumnType.integer = type := Held.typed took
      rw [ColumnBuilder.push, numericText?_eq] at pushed
      cases unset : isUnset .integer field with
      | true =>
          rw [unset, if_pos rfl] at pushed
          cases pushed
          have slot : slot? .integer field = some (.integer integerPlaceholder) := by
            rw [slot?, unset, if_pos rfl]
          exact Held.add took rfl (by simp [Values.cells]) slot (by simp [unset])
      | false =>
          rw [unset, if_neg Bool.false_ne_true] at pushed
          obtain ⟨value, read, same⟩ := exists_of_bind_ok pushed
          cases same
          have slot : slot? .integer field = some (.integer value) := by
            rw [slot?, unset, if_neg Bool.false_ne_true, read]
            rfl
          exact Held.add took rfl (by simp [Values.cells]) slot (by simp [unset])
  | doubles values validity =>
      obtain rfl : ColumnType.double = type := Held.typed took
      rw [ColumnBuilder.push, numericText?_eq] at pushed
      cases unset : isUnset .double field with
      | true =>
          rw [show isUnset .integer field = true from unset, if_pos rfl] at pushed
          cases pushed
          have slot : slot? .double field = some (.double doublePlaceholder) := by
            rw [slot?, unset, if_pos rfl]
          exact Held.add took rfl (by simp [Values.cells]) slot (by simp [unset])
      | false =>
          rw [show isUnset .integer field = false from unset, if_neg Bool.false_ne_true] at pushed
          obtain ⟨value, read, same⟩ := exists_of_bind_ok pushed
          cases same
          have slot : slot? .double field = some (.double value) := by
            rw [slot?, unset, if_neg Bool.false_ne_true, read]
            rfl
          exact Held.add took rfl (by simp [Values.cells]) slot (by simp [unset])
  | strings values validity =>
      obtain rfl : ColumnType.string = type := Held.typed took
      rw [ColumnBuilder.push] at pushed
      split at pushed
      · rename_i null
        cases pushed
        have slot : slot? .string field = some (.string "") := by simp [slot?, isUnset, null]
        exact Held.add took rfl (by simp [Values.cells]) slot (by simp [isUnset, null])
      · rename_i set
        cases pushed
        have slot : slot? .string field = some (.string field) := by simp [slot?, isUnset, set]
        exact Held.add took rfl (by simp [Values.cells]) slot (by simp [isUnset, set])
  | skipped =>
      cases pushed
      exact took

/-- All columns of a schema have so many rows. -/
def Aligned (specs : List ColumnSpec) (rows : Nat) (builders : List ColumnBuilder) : Prop :=
  List.Forall₂ (fun spec builder => builder.Filled spec.type rows) specs builders

/-- The fields of a table in one of its columns. -/
def fieldsAt (table : List (List String)) (index : Nat) : List String :=
  table.map fun row => row.getD index ""

/-- Each column of a schema has taken its fields of a table. -/
structure Taken (specs : List ColumnSpec) (table : List (List String))
    (builders : List ColumnBuilder) : Prop where
  count : specs.length = builders.length
  took : ∀ {index : Nat} {spec : ColumnSpec} {builder : ColumnBuilder},
    specs[index]? = some spec → builders[index]? = some builder →
      builder.Took spec.type (fieldsAt table index)

variable {specs : List ColumnSpec} {builders next : List ColumnBuilder} {fields : List String}
  {table : List (List String)} {row : Nat}

theorem taken_start (specs : List ColumnSpec) :
    Taken specs [] (specs.map fun spec => ColumnBuilder.ofType spec.type) := by
  refine ⟨(List.length_map _).symm, fun declared made => ?_⟩
  rw [List.getElem?_map, declared] at made
  cases made
  exact ColumnBuilder.took_ofType _

theorem Taken.aligned (taken : Taken specs table builders) :
    Aligned specs table.length builders := by
  refine List.forall₂_iff_get.mpr ⟨taken.count, fun index first second => ?_⟩
  have took := taken.took (List.getElem?_eq_getElem first) (List.getElem?_eq_getElem second)
  have length : (fieldsAt table index).length = table.length := List.length_map _
  rw [← length]
  exact took.filled

/-- Every column takes its own field of a row. -/
theorem getElem?_pushFields {column : Nat} (rowLength : fields.length = builders.length)
    (specCount : specs.length = builders.length)
    (pushed : pushFields row column specs builders fields = .ok next) :
    next.length = builders.length ∧ ∀ {index : Nat} {grown : ColumnBuilder},
      next[index]? = some grown →
        ∃ builder field, builders[index]? = some builder ∧ fields[index]? = some field ∧
          builder.push field = .ok grown := by
  induction specs generalizing column builders fields next with
  | nil =>
      obtain rfl := List.length_eq_zero_iff.mp specCount.symm
      cases pushed
      exact ⟨rfl, by simp⟩
  | cons spec specs ih =>
      obtain ⟨builder, builders, rfl⟩ := List.exists_cons_of_length_eq_add_one specCount.symm
      obtain ⟨field, fields, rfl⟩ := List.exists_cons_of_length_eq_add_one rowLength
      rw [Tabular.pushFields] at pushed
      split at pushed
      · contradiction
      rename_i first added
      split at pushed
      · contradiction
      rename_i others later
      cases pushed
      obtain ⟨length, pushedAt⟩ := ih (Nat.succ.inj rowLength) (Nat.succ.inj specCount) later
      refine ⟨by rw [List.length_cons, length, List.length_cons], fun {index grown} found => ?_⟩
      cases index with
      | zero =>
          cases found
          exact ⟨builder, field, rfl, rfl, added⟩
      | succ index => exact pushedAt found

theorem Taken.pushRow (taken : Taken specs table builders)
    (pushed : pushRow specs row builders fields = .ok next) :
    fields.length = specs.length ∧ Taken specs (table ++ [fields]) next := by
  unfold Tabular.pushRow at pushed
  split at pushed
  · contradiction
  rename_i count
  rw [Decidable.not_not] at count
  obtain ⟨length, pushedAt⟩ := getElem?_pushFields (count.trans taken.count) taken.count pushed
  refine ⟨count, taken.count.trans length.symm, fun declared found => ?_⟩
  obtain ⟨builder, field, before, held, added⟩ := pushedAt found
  have took := (taken.took declared before).push added
  rw [fieldsAt, List.map_append, List.map_singleton, List.getD_eq_getElem?_getD, held]
  exact took

/-- Rows that are all added are a table of the schema. -/
theorem Taken.pushRows {rows : List (Except RecordFault (List String))} {count : Nat}
    (taken : Taken specs table builders)
    (pushed : pushRows specs row builders rows = .ok (count, next)) :
    ∃ added : List (List String), rows = added.map .ok ∧ count = row + added.length ∧
      (∀ fields ∈ added, fields.length = specs.length) ∧ Taken specs (table ++ added) next := by
  induction rows generalizing row table builders with
  | nil =>
      cases pushed
      exact ⟨[], rfl, rfl, by simp, by rwa [List.append_nil]⟩
  | cons first rest ih =>
      cases first with
      | error fault => contradiction
      | ok fields =>
          rw [Tabular.pushRows] at pushed
          split at pushed
          · contradiction
          rename_i grown added
          obtain ⟨width, more⟩ := taken.pushRow added
          obtain ⟨others, rfl, total, widths, whole⟩ := ih more pushed
          refine ⟨fields :: others, rfl, ?_, List.forall_mem_cons.mpr ⟨width, widths⟩, ?_⟩
          · rw [total, List.length_cons]
            omega
          · rwa [List.append_assoc, List.singleton_append] at whole

end Builders

section Columns

variable {specs : List ColumnSpec} {count : Nat} {columns : List Column} {table : Relation}

/-- A column as a schema wants it, with so many values if it has any. -/
structure Grown (count : Nat) (spec : ColumnSpec) (column : Column) : Prop where
  type : column.type = spec.type
  represents : ∃ bits, column.validity.Represents bits
  valueCount : ∀ values, column.values = some values → values.length = count

theorem grown_ofParts {spec : ColumnSpec} {values : Values} (bits : List Bool)
    (type : values.type = spec.type) (length : values.length = count) :
    Grown count spec (.ofParts spec.name (some values) (.ofList bits)) := by
  refine ⟨type, ⟨bits, Validity.represents_ofList bits⟩, ?_⟩
  rintro _ ⟨⟩
  exact length

theorem ColumnBuilder.Filled.grown {spec : ColumnSpec} {builder : ColumnBuilder}
    (filled : builder.Filled spec.type count) : Grown count spec (builder.toColumn spec.name) := by
  cases builder with
  | integers values validity =>
      exact grown_ofParts _ filled.1.symm (List.length_reverse.trans filled.2.1)
  | doubles values validity =>
      exact grown_ofParts _ filled.1.symm (List.length_reverse.trans filled.2.1)
  | strings values validity =>
      exact grown_ofParts _ filled.1.symm (List.length_reverse.trans filled.2.1)
  | skipped =>
      refine ⟨Eq.symm filled, ⟨[], Validity.represents_empty⟩, ?_⟩
      rintro _ ⟨⟩

theorem Aligned.grown {builders : List ColumnBuilder} (aligned : Aligned specs count builders) :
    List.Forall₂ (Grown count) specs
      ((specs.zip builders).map fun entry => entry.2.toColumn entry.1.name) := by
  induction aligned with
  | nil => exact .nil
  | cons filled _ ih => exact .cons filled.grown ih

theorem built_addColumns {relation : Relation} (built : relation.Built)
    (represents : ∀ column ∈ columns, ∃ bits, column.validity.Represents bits)
    (added : addColumns relation columns = .ok table) :
    table.Built ∧ table.columns = relation.columns ++ columns := by
  induction columns generalizing relation with
  | nil =>
      cases added
      exact ⟨built, (List.append_nil _).symm⟩
  | cons column rest ih =>
      rw [addColumns] at added
      split at added
      · rename_i extended here
        obtain ⟨bits, held⟩ := represents column List.mem_cons_self
        obtain ⟨whole, order⟩ := ih (.add column built held here)
          (fun other member => represents other (List.mem_cons_of_mem column member)) added
        refine ⟨whole, ?_⟩
        rw [order, Relation.columns_addColumn here, List.append_assoc, List.singleton_append]
      · contradiction

/-- Columns of one length make a relation. -/
theorem exists_addColumns {relation : Relation}
    (sized : relation.hasData = true → relation.tupleCount = count)
    (lengths : ∀ column ∈ columns, ∀ values, column.values = some values →
      values.length = count ∧ column.validity.length = count) :
    ∃ table, addColumns relation columns = .ok table := by
  induction columns generalizing relation with
  | nil => exact ⟨relation, rfl⟩
  | cons column rest ih =>
      have others : ∀ other ∈ rest, ∀ values, other.values = some values →
          values.length = count ∧ other.validity.length = count :=
        fun other member => lengths other (List.mem_cons_of_mem column member)
      suffices extended : ∃ next, relation.addColumn column = (.ok (), next) ∧
          (next.hasData = true → next.tupleCount = count) by
        obtain ⟨next, added, more⟩ := extended
        obtain ⟨table, whole⟩ := ih more others
        exact ⟨table, by rw [addColumns, added]; exact whole⟩
      cases held : column.values with
      | none =>
          refine ⟨{ relation with columns := relation.columns ++ [column] }, ?_, fun data => ?_⟩
          · simp only [Relation.addColumn, held]
          · have skip : column.type = .skip := by rw [Column.type, held]
            refine sized (Eq.trans ?_ data)
            simp [Relation.hasData, skip]
      | some values =>
          obtain ⟨valueCount, bitCount⟩ := lengths column List.mem_cons_self values held
          refine ⟨⟨relation.columns ++ [column], count⟩, ?_, fun _ => rfl⟩
          have fits : ¬ (relation.hasData = true ∧ count ≠ relation.tupleCount) :=
            fun differs => differs.2 (sized differs.1).symm
          simp only [Relation.addColumn, held, valueCount, if_neg fits, bitCount, ne_eq,
            not_true_eq_false, if_false]

end Columns

section Ingestion

theorem exists_related {α β : Type} {related : α → β → Prop} {left : List α} {right : List β}
    (all : List.Forall₂ related left right) {entry : α} (member : entry ∈ left) :
    ∃ other ∈ right, related entry other := by
  induction all with
  | nil => contradiction
  | cons first _ ih =>
      rcases List.mem_cons.mp member with rfl | later
      · exact ⟨_, List.mem_cons_self, first⟩
      · obtain ⟨other, inside, held⟩ := ih later
        exact ⟨other, List.mem_cons_of_mem _ inside, held⟩

variable {format : TextFormat} {specs : List ColumnSpec} {text : Bytes} {table : Relation}

/-- The columns of an ingested relation have taken the rows of the text. -/
theorem exists_taken (ingested : ingest format specs text = .ok table) :
    ∃ (added : List (List String)) (builders : List ColumnBuilder) (relation : Relation),
      rows format text = added.map .ok ∧ (∀ fields ∈ added, fields.length = specs.length) ∧
        Taken specs added builders ∧
        addColumns .empty ((specs.zip builders).map fun entry => entry.2.toColumn entry.1.name) =
          .ok relation ∧
        table = if specs.all fun spec => spec.type = .skip then
          { relation with tupleCount := added.length } else relation := by
  unfold ingest at ingested
  dsimp only at ingested
  split at ingested
  · contradiction
  rename_i count builders pushed
  obtain ⟨added, same, total, widths, taken⟩ := (taken_start specs).pushRows pushed
  rw [Nat.zero_add] at total
  rw [List.nil_append] at taken
  split at ingested
  · contradiction
  rename_i relation columns
  refine ⟨added, builders, relation, same, widths, taken, columns, ?_⟩
  rw [← total]
  split at ingested
  · rename_i skipped
    cases ingested
    rw [if_pos skipped]
  · rename_i kept
    cases ingested
    rw [if_neg kept]

theorem ingest_sound (ingested : ingest format specs text = .ok table) :
    table.Sound ∧ table.tupleCount = (rows format text).length := by
  obtain ⟨rowTexts, builders, relation, total, -, taken, added, rfl⟩ := exists_taken ingested
  rw [total, List.length_map]
  have grown := taken.aligned.grown
  have represents : ∀ column ∈ (specs.zip builders).map fun entry =>
      entry.2.toColumn entry.1.name, ∃ bits, column.validity.Represents bits := by
    intro column member
    obtain ⟨spec, -, same⟩ := exists_related grown.flip member
    exact same.represents
  obtain ⟨built, columns⟩ := built_addColumns .empty represents added
  have order : relation.columns = (specs.zip builders).map fun entry =>
      entry.2.toColumn entry.1.name := columns
  rw [← order] at grown
  split
  · rename_i skipped
    refine ⟨?_, rfl⟩
    -- No column has values, so any number of rows suits them all.
    intro column member values data
    obtain ⟨spec, declared, same⟩ := exists_related grown.flip member
    have skip : spec.type = .skip := of_decide_eq_true (List.all_eq_true.mp skipped spec declared)
    exact absurd (same.type.trans skip) (Column.type_ne_skip data)
  · rename_i kept
    refine ⟨built.sound, ?_⟩
    simp only [List.all_eq_true, decide_eq_true_eq, not_forall] at kept
    obtain ⟨spec, declared, data⟩ := kept
    obtain ⟨column, member, same⟩ := exists_related grown declared
    cases held : column.values with
    | none => exact absurd (same.type.symm.trans (by rw [Column.type, held])) data
    | some values =>
        obtain ⟨bits, filled⟩ := built.sound column member values held
        rw [← filled.valueCount, same.valueCount values held]

/-- Reads give no more rows than there are bytes. -/
theorem length_rowsFrom (position : Position) (delimiter : UInt8) (atStart : Bool) (text : Bytes) :
    (rowsFrom position (readRecords delimiter atStart text)).length ≤ text.length := by
  induction length : text.length using Nat.strongRecOn generalizing text atStart position with
  | ind size ih =>
      have whole := congrArg List.length (readRecord_whole delimiter atStart text)
      rw [List.length_append] at whole
      rw [readRecords_eq]
      cases found : (readRecord delimiter atStart text).fields with
      | none =>
          have blanks := countBlankLines_le position.afterReturn
            (readRecord delimiter atStart text).consumed
          simp only [rowsFrom, found, List.length_map, List.length_replicate]
          omega
      | some fields =>
          have shorter := readRecord_rest_shorter found
          obtain ⟨byte, member, noEnd⟩ := exists_mem_consumed_record found
          have blanks := @countBlankLines_lt position.afterReturn byte _ member noEnd
          have later := ih _ (by omega)
            (position.advance (readRecord delimiter atStart text)) false
            (readRecord delimiter atStart text).rest rfl
          simp only [rowsFrom, found]
          cases decodeFields position 0 fields with
          | error fault =>
              rw [List.length_singleton]
              omega
          | ok texts =>
              simp only [List.length_append, List.length_map, List.length_replicate,
                List.length_cons]
              omega

theorem length_rows (format : TextFormat) (text : Bytes) :
    (rows format text).length ≤ text.length := by
  rw [rows]
  split
  · rw [readRecords_eq]
    cases found : (readRecord format.delimiter true text).fields with
    | none => exact Nat.zero_le _
    | some fields =>
        have shorter := readRecord_rest_shorter found
        exact Nat.le_trans (length_rowsFrom ..) (Nat.le_of_lt shorter)
  · exact length_rowsFrom ..

end Ingestion

end Columnar.Tabular
