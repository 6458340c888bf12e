import Columnar.Proofs.Pack.Lines
import Columnar.Proofs.Tabular.Defects

namespace Columnar.Tabular

/-!
Integers that are written as text and read again.

Every row is one field on a line of its own: neither a number nor the word for null holds anything
that separates fields or lines.  The field of a number gives that number, and that of a null is
unset.
-/

section Records

variable {delimiter : UInt8} {state : FieldState} {progress : Progress} {field : Bytes}

/-- A byte that stands for itself in a field without quotes. -/
def IsPlain (delimiter byte : UInt8) : Prop :=
  byte ≠ quote ∧ byte ≠ delimiter ∧ endsLine byte = false

theorem readFields_outside (outside : state = .fieldStart ∨ state = .unquoted) {byte : UInt8}
    (noQuote : byte ≠ quote) (noDelimiter : byte ≠ delimiter) (rest : Bytes) :
    readFields delimiter state progress (byte :: rest) =
      if endsLine byte then (progress.skip byte).finish rest
      else readFields delimiter .unquoted (progress.keep byte) rest := by
  rcases outside with rfl | rfl
  · rw [readFields, if_neg fun opens => noQuote opens.2, if_neg fun doubles => noQuote doubles.2,
      if_neg noDelimiter]
    simp
  · rw [readFields, if_neg fun opens => noQuote opens.2, if_neg fun doubles => noQuote doubles.2,
      if_neg noDelimiter]
    simp

/-- Plain bytes up to a line feed are one field, the last of its record. -/
theorem readFields_plain (apart : delimiter ≠ lineFeed)
    (outside : state = .fieldStart ∨ state = .unquoted)
    (plain : ∀ byte ∈ field, IsPlain delimiter byte) (rest : Bytes) :
    readFields delimiter state progress (field ++ lineFeed :: rest) =
      ⟨some (((progress.field.reverse ++ field) :: progress.fields).reverse),
        progress.consumed.reverse ++ (field ++ [lineFeed]), rest⟩ := by
  induction field generalizing state progress with
  | nil =>
      have noQuote : lineFeed ≠ quote := by decide
      have ends : endsLine lineFeed = true := rfl
      rw [List.nil_append, readFields_outside outside noQuote apart.symm, if_pos ends]
      simp [Progress.skip, Progress.finish]
  | cons byte others ih =>
      obtain ⟨⟨noQuote, noDelimiter, noEnd⟩, later⟩ := List.forall_mem_cons.mp plain
      rw [List.cons_append, readFields_outside outside noQuote noDelimiter, noEnd,
        if_neg Bool.false_ne_true, ih (.inr rfl) later]
      simp [Progress.keep]

theorem takeRecord_plain (apart : delimiter ≠ lineFeed)
    (plain : ∀ byte ∈ field, IsPlain delimiter byte) (rest : Bytes) :
    takeRecord delimiter (field ++ lineFeed :: rest) = ([field], rest) := by
  have ends : ([] ++ (field ++ [lineFeed])).getLast? ≠ some carriageReturn := by
    rw [List.nil_append, List.getLast?_concat]
    decide
  simp only [takeRecord, readFields_plain apart (.inl rfl) plain, List.reverse_nil,
    Option.getD_some, if_neg ends]
  rfl

/-- Fields ended by line feeds are lines of one field each. -/
theorem lines_plain (apart : delimiter ≠ lineFeed) {fields : List Bytes}
    (plain : ∀ field ∈ fields, field ≠ [] ∧ ∀ byte ∈ field, IsPlain delimiter byte) :
    lines delimiter (fields.flatMap (· ++ [lineFeed])) =
      fields.map fun field => .record [field] := by
  induction fields with
  | nil =>
      rw [List.flatMap_nil, lines]
      rfl
  | cons field rest ih =>
      obtain ⟨⟨some, bytes⟩, later⟩ := List.forall_mem_cons.mp plain
      obtain ⟨first, others, rfl⟩ := List.exists_cons_of_ne_nil some
      have record :
          behindTerminator? (first :: (others ++ lineFeed :: rest.flatMap (· ++ [lineFeed]))) =
            none :=
        behindTerminator?_eq_none (bytes first List.mem_cons_self).2.2
      have taken := takeRecord_plain apart bytes (rest.flatMap (· ++ [lineFeed]))
      rw [List.cons_append] at taken
      rw [List.flatMap_cons, List.append_assoc, List.singleton_append, List.cons_append,
        lines_record record, taken, ih later, List.map_cons]

end Records

/-- The characters of whole numbers and of the word for null. -/
def plainAlphabet : List Char := nullLiteral.toList ++ Decimal.alphabet

section Texts

variable {entry : String} {entries : List String}

instance (delimiter byte : UInt8) : Decidable (IsPlain delimiter byte) :=
  inferInstanceAs (Decidable (_ ∧ _))

/-- A text that is some plain characters. -/
structure IsPlainText (entry : String) : Prop where
  some : entry ≠ ""
  chars : ∀ char ∈ entry.toList, char ∈ plainAlphabet

theorem encode_lines (entries : List String) :
    Text.encode (String.join (entries.map (· ++ "\n"))) =
      (entries.map Text.encode).flatMap (· ++ [lineFeed]) := by
  have feed : "\n".toList.flatMap String.utf8EncodeChar = [lineFeed] := rfl
  induction entries with
  | nil => rfl
  | cons entry rest ih =>
      rw [Text.join_line, Text.encode_eq_flatMap, String.toList_append, String.toList_append,
        List.flatMap_append, List.flatMap_append, feed, ← Text.encode_eq_flatMap,
        ← Text.encode_eq_flatMap, ih, List.map_cons, List.flatMap_cons]

theorem IsPlainText.encode (plain : IsPlainText entry) :
    Text.encode entry = entry.toList.map fun char => char.val.toUInt8 := by
  have single : ∀ char ∈ plainAlphabet, char.utf8Size = 1 :=
    List.all_iff_forall_prop.mp (by decide)
  rw [Text.encode_eq_flatMap, List.map_eq_flatMap]
  refine List.flatMap_congr fun char member => String.utf8EncodeChar_eq_singleton ?_
  exact single char (plain.chars char member)

theorem IsPlainText.bytes (plain : IsPlainText entry) :
    Text.encode entry ≠ [] ∧ ∀ byte ∈ Text.encode entry, IsPlain 0x2C byte ∧ byte < 0x80 := by
  have alphabet : ∀ char ∈ plainAlphabet,
      IsPlain 0x2C char.val.toUInt8 ∧ char.val.toUInt8 < 0x80 :=
    List.all_iff_forall_prop.mp (by decide)
  rw [plain.encode]
  constructor
  · intro none
    exact plain.some (String.toList_eq_nil_iff.mp (List.map_eq_nil_iff.mp none))
  · intro byte member
    obtain ⟨char, inside, rfl⟩ := List.mem_map.mp member
    exact alphabet char (plain.chars char inside)

theorem unmarked_lines (plain : ∀ entry ∈ entries, IsPlainText entry) :
    byteOrderMark.isPrefixOf ((entries.map Text.encode).flatMap (· ++ [lineFeed])) = false := by
  cases entries with
  | nil => rfl
  | cons entry rest =>
      obtain ⟨some, bytes⟩ := (plain entry List.mem_cons_self).bytes
      obtain ⟨first, others, held⟩ := List.exists_cons_of_ne_nil some
      have ascii := (bytes first (by simp [held])).2
      have other : (0xEF : UInt8) ≠ first := by
        rintro rfl
        contradiction
      rw [List.map_cons, List.flatMap_cons, held, List.cons_append, List.cons_append, byteOrderMark,
        List.isPrefixOf, beq_false_of_ne other, Bool.false_and]

/-- Plain texts on lines of their own are read as rows of one field. -/
theorem rows_lines (plain : ∀ entry ∈ entries, IsPlainText entry) :
    rows {} (Text.encode (String.join (entries.map (· ++ "\n")))) =
      (entries.map fun entry => [entry]).map .ok := by
  have same := toOption_rows {} (unmarked_lines plain)
  have all : linesIn {} ((entries.map Text.encode).flatMap (· ++ [lineFeed])) =
      entries.map fun entry => .record [Text.encode entry] := by
    have apart : (0x2C : UInt8) ≠ lineFeed := by decide
    refine (lines_plain apart fun field member => ?_).trans (List.map_map)
    obtain ⟨entry, inside, rfl⟩ := List.mem_map.mp member
    have bytes := (plain entry inside).bytes
    exact ⟨bytes.1, fun byte held => (bytes.2 byte held).1⟩
  have texts (entry : String) : (Line.record [Text.encode entry]).texts? = some [entry] := by
    rw [Line.texts?, List.mapM_cons, Text.decode_encode]
    rfl
  have readable : ∀ line ∈ entries.map fun entry => Line.record [Text.encode entry],
      line.texts?.isSome := by
    intro line member
    obtain ⟨entry, -, rfl⟩ := List.mem_map.mp member
    rw [texts]
    rfl
  rw [all, rowsOfLines_readable 0 readable] at same
  rw [encode_lines, eq_map_row ⟨0, 0, 0, 0, 0⟩ same readable, List.map_map, List.map_map]
  refine List.map_congr_left fun entry _ => ?_
  rw [Function.comp_apply, Line.row, texts]
  rfl

end Texts

section Numbers

variable {entry : String}

theorem IsPlainText.trim (plain : IsPlainText entry) : Text.trim entry = entry := by
  have blankless : ∀ char ∈ plainAlphabet, Text.isBlank char = false :=
    List.all_iff_forall_prop.mp (by decide)
  have kept {chars : List Char} (inside : ∀ char ∈ chars, char ∈ entry.toList) :
      chars.dropWhile Text.isBlank = chars := by
    cases chars with
    | nil => rfl
    | cons first rest =>
        have shown := blankless first (plain.chars first (inside first List.mem_cons_self))
        exact List.dropWhile_cons_of_neg (ne_true_of_eq_false shown)
  rw [Text.trim, Text.trimEnds, kept fun _ => id, kept fun _ => List.mem_reverse.mp,
    List.reverse_reverse, String.ofList_toList]

/-- A number, or null, as the field of its row. -/
def slotText (slot : Int32 × Bool) : String :=
  if slot.2 then Decimal.ofInt32 slot.1 else nullLiteral

/-- What the slot of a row holds once the row has been read. -/
def restore (slot : Int32 × Bool) : Int32 := if slot.2 then slot.1 else integerPlaceholder

/-- The text of a number is neither empty nor the word for null, which are no numbers. -/
theorem ofInt32_set (value : Int32) :
    Decimal.ofInt32 value ≠ "" ∧ Decimal.ofInt32 value ≠ nullLiteral := by
  have read := Decimal.readInt32_ofInt32 value
  constructor
  · intro empty
    rw [empty] at read
    contradiction
  · intro null
    rw [null] at read
    contradiction

theorem isPlainText_slotText (slot : Int32 × Bool) : IsPlainText (slotText slot) := by
  rw [slotText]
  split
  · exact ⟨(ofInt32_set slot.1).1, fun char member =>
      List.mem_append_right _ (Decimal.ofInt32_mem member)⟩
  · exact ⟨by decide, fun char member => List.mem_append_left _ member⟩

theorem isUnset_slotText (slot : Int32 × Bool) : isUnset .integer (slotText slot) = !slot.2 := by
  obtain ⟨value, present⟩ := slot
  rw [isUnset, (isPlainText_slotText _).trim]
  cases present with
  | false => rfl
  | true =>
      obtain ⟨some, number⟩ := ofInt32_set value
      simp [slotText, some, number]

theorem slot?_slotText (slot : Int32 × Bool) :
    slot? .integer (slotText slot) = some (.integer (restore slot)) := by
  rw [slot?, isUnset_slotText, (isPlainText_slotText slot).trim]
  obtain ⟨value, present⟩ := slot
  cases present with
  | false => rfl
  | true =>
      show (Decimal.readInt32 (Decimal.ofInt32 value)).toOption.map Cell.integer = _
      rw [Decimal.readInt32_ofInt32]
      rfl

theorem fieldFault?_slotText (slot : Int32 × Bool) :
    fieldFault? .integer (slotText slot) = none := by
  rw [fieldFault?, isUnset_slotText, (isPlainText_slotText slot).trim]
  obtain ⟨value, present⟩ := slot
  cases present with
  | false => rfl
  | true =>
      show error? (Decimal.readInt32 (Decimal.ofInt32 value)) = _
      rw [Decimal.readInt32_ofInt32]
      rfl

theorem held_slotTexts (slots : List (Int32 × Bool)) :
    Held .integer (slots.map slotText) (.integers (slots.map restore)) (slots.map Prod.snd) := by
  refine ⟨rfl, ?_, ?_⟩
  · rw [Values.cells, List.map_map, List.map_map, List.map_map]
    exact List.map_congr_left fun slot _ => (slot?_slotText slot).symm
  · rw [List.map_map]
    refine List.map_congr_left fun slot _ => ?_
    rw [Function.comp_apply, isUnset_slotText, Bool.not_not]

end Numbers

section Columns

/-- Fields leave no choice of slots and bits. -/
theorem Held.unique {type : ColumnType} {fields : List String} {values others : Values}
    {bits more : List Bool} (first : Held type fields values bits)
    (second : Held type fields others more) : values = others ∧ bits = more := by
  have cells : values.cells = others.cells :=
    List.map_injective_iff.mpr (Option.some_injective _) (first.slots.trans second.slots.symm)
  exact ⟨Values.eq_of_cells (first.typed.trans second.typed.symm) cells,
    first.bits.trans second.bits.symm⟩

/-- A text whose rows fit a schema of one column becomes that column. -/
theorem ingest_column {format : TextFormat} {spec : ColumnSpec} {text : Bytes}
    {table : List (List String)} (data : spec.type ≠ .skip)
    (same : rows format text = table.map .ok) (fits : ∀ fields ∈ table, RowFits [spec] fields) :
    ∃ column, ingest format [spec] text = .ok ⟨[column], table.length⟩ ∧
      ColumnHolds spec (fieldsAt table 0) column := by
  obtain ⟨builders, taken, pushed⟩ := (taken_start [spec]).pushRows_fit fits 0 []
  rw [List.nil_append] at taken
  rw [List.append_nil, Tabular.pushRows, Nat.zero_add] at pushed
  obtain ⟨builder, rfl⟩ := List.length_eq_one_iff.mp taken.count.symm
  have took : builder.Took spec.type (fieldsAt table 0) := @Taken.took _ _ _ taken 0 _ _ rfl rfl
  have holds := took.column
  obtain ⟨values, bits, held, -, -, valueCount, bitCount⟩ := holds.data data
  rw [fieldsAt, List.length_map] at valueCount bitCount
  have added : addColumns .empty [builder.toColumn spec.name] =
      .ok ⟨[builder.toColumn spec.name], table.length⟩ := by
    simp [addColumns, Relation.addColumn, held, valueCount, bitCount, Relation.hasData,
      Relation.empty]
  refine ⟨builder.toColumn spec.name, ?_, holds⟩
  rw [ingest_eq, same, ingestRows, pushed]
  simp [added, data]

end Columns

section Reingesting

variable {validity : Validity} {slots : List (Int32 × Bool)}

theorem exists_slots {list : List Int32} {bits : List Bool} (lengths : bits.length = list.length) :
    ∃ slots : List (Int32 × Bool), list = slots.map Prod.fst ∧ bits = slots.map Prod.snd :=
  ⟨list.zip bits, (List.map_fst_zip (Nat.le_of_eq lengths.symm)).symm,
    (List.map_snd_zip (Nat.le_of_eq lengths)).symm⟩

theorem rowsOf_slots (held : validity.toList = slots.map Prod.snd)
    (values : Int32 × Bool → Int32) :
    Column.rowsOf (.integers (slots.map values)) validity =
      slots.map fun slot => if slot.2 then .integer (values slot) else .null := by
  rw [Column.rowsOf, Values.cells, held, List.map_map, List.zip_map', List.map_map]
  rfl

theorem textOf_slots (held : validity.toList = slots.map Prod.snd) :
    textOf (Column.rowsOf (.integers (slots.map Prod.fst)) validity) =
      String.join ((slots.map slotText).map (· ++ "\n")) := by
  have texts : (Column.rowsOf (.integers (slots.map Prod.fst)) validity).map Cell.text =
      slots.map slotText := by
    rw [rowsOf_slots held, List.map_map]
    exact List.map_congr_left fun slot _ => apply_ite Cell.text ..
  rw [textOf, texts]

/-- What is read shows the same rows. -/
theorem rowsOf_restored (held : validity.toList = slots.map Prod.snd) :
    Column.rowsOf (.integers (slots.map restore)) (.ofList (slots.map Prod.snd)) =
      Column.rowsOf (.integers (slots.map Prod.fst)) validity := by
  rw [rowsOf_slots held, rowsOf_slots (Validity.represents_ofList _).toList]
  refine List.map_congr_left fun slot _ => ?_
  cases present : slot.2 with
  | false => rfl
  | true => simp [restore, present]

theorem getElem?_restored {row : Nat} {present : Bool}
    (bit : (slots.map Prod.snd)[row]? = some present) :
    (slots.map restore)[row]? =
      if present then (slots.map Prod.fst)[row]? else some integerPlaceholder := by
  rw [List.getElem?_map] at bit
  obtain ⟨slot, found, rfl⟩ := Option.map_eq_some_iff.mp bit
  rw [List.getElem?_map, List.getElem?_map, found]
  cases present : slot.2 <;> simp [restore, present]

/-- The texts of slots are read as one column. -/
theorem ingest_slotTexts (slots : List (Int32 × Bool)) (name : String) :
    ∃ column,
      ingest {} [⟨name, .integer⟩]
        (Text.encode (String.join ((slots.map slotText).map (· ++ "\n")))) =
          .ok ⟨[column], slots.length⟩ ∧
      ColumnHolds ⟨name, .integer⟩ (slots.map slotText) column := by
  have plain : ∀ entry ∈ slots.map slotText, IsPlainText entry := by
    intro entry member
    obtain ⟨slot, -, rfl⟩ := List.mem_map.mp member
    exact isPlainText_slotText slot
  have fits : ∀ fields ∈ (slots.map slotText).map fun entry => [entry],
      RowFits [⟨name, .integer⟩] fields := by
    intro fields member
    obtain ⟨entry, inside, rfl⟩ := List.mem_map.mp member
    obtain ⟨slot, -, rfl⟩ := List.mem_map.mp inside
    refine ⟨rfl, fun pair only => ?_⟩
    rw [List.mem_singleton.mp only]
    exact fieldFault?_slotText slot
  have kept : ColumnType.integer ≠ .skip := by decide
  obtain ⟨column, ingested, holds⟩ :=
    @ingest_column _ ⟨name, .integer⟩ _ _ kept (rows_lines plain) fits
  have fields : fieldsAt ((slots.map slotText).map fun entry => [entry]) 0 =
      slots.map slotText := by
    rw [fieldsAt, List.map_map]
    exact List.map_id _
  rw [List.length_map, List.length_map] at ingested
  rw [fields] at holds
  exact ⟨column, ingested, holds⟩

/-- A column of integers is written as a text that ingestion makes the same column of, up to the
slots of rows without a value. -/
theorem ingest_integer_texts {list : List Int32} {bits : List Bool}
    (represents : validity.Represents bits) (lengths : bits.length = list.length) (name : String) :
    ∃ text column restored,
      Sink.text.pushAll (Column.rowsOf (.integers list) validity) "" = .ok text ∧
      (∀ codec reader,
        ColumnReader.Reads codec reader (Column.rowsOf (.integers list) validity) →
          reader.materialize codec .text "" = .ok (list.length, text)) ∧
      (∀ options table before path report after index source, Pack.Made table →
        Pack.Sized (.cascade options.cascadeDepth) options table →
        Pack.relation (.cascade options.cascadeDepth) options before path table =
          (.ok report, after) →
        table.columns[index]? = some source → source.values = some (.integers list) →
        source.validity = validity →
          ∃ reader, ColumnReader.ofPath .standard after path index = .ok reader ∧
            reader.materialize .standard .text "" = .ok (list.length, text)) ∧
      ingest {} [⟨name, .integer⟩] (Text.encode text) = .ok ⟨[column], list.length⟩ ∧
      column.name = name ∧ column.values = some (.integers restored) ∧
      restored.length = list.length ∧ column.validity.toList = validity.toList ∧
      (∀ row, validity.get? row = some true → restored[row]? = list[row]?) ∧
      (∀ row, validity.get? row = some false → restored[row]? = some integerPlaceholder) ∧
      column.counts = (Column.ofParts name (some (.integers list)) validity).counts := by
  obtain ⟨slots, rfl, rfl⟩ := exists_slots lengths
  have held := represents.toList
  have rows : (Column.rowsOf (.integers (slots.map Prod.fst)) validity).length =
      (slots.map Prod.fst).length := Column.length_rowsOf held lengths
  obtain ⟨column, ingested, holds⟩ := ingest_slotTexts slots name
  have kept : ColumnType.integer ≠ .skip := by decide
  obtain ⟨values, bits, data, bitsHeld, took, -, -⟩ := holds.data kept
  have taken := held_slotTexts slots
  obtain ⟨rfl, rfl⟩ := took.unique taken
  refine ⟨textOf (Column.rowsOf (.integers (slots.map Prod.fst)) validity), column,
    slots.map restore, ?_, fun codec reader reads => ?_, ?_, ?_, holds.name, data, ?_, ?_,
    fun row present => ?_, fun row absent => ?_, ?_⟩
  · rw [Sink.pushAll_text, String.empty_append]
  · rw [← rows]
    exact reads.materialize_text
  · intro options table before path report after index source made sized done found integers same
    obtain ⟨-, reader, opened, reads⟩ := Pack.opens_packed made.sound sized done found integers
    rw [same] at reads
    refine ⟨reader, opened, ?_⟩
    rw [← rows]
    exact reads.materialize_text
  · rw [textOf_slots held, List.length_map]
    exact ingested
  · rw [List.length_map, List.length_map]
  · rw [bitsHeld.toList, held]
  · rw [represents.get?] at present
    exact getElem?_restored present
  · rw [represents.get?] at absent
    exact getElem?_restored absent
  · have nulls : column.counts.nulls = validity.zeros := by
      rw [holds.nulls, ← taken.nulls, represents.zeros, (Validity.represents_ofList _).zeros]
    have empties : column.counts.empties =
        (Column.rowsOf (.integers (slots.map Prod.fst)) validity).countP Cell.isEmpty := by
      rw [holds.empties, ← taken.empties, rowsOf_restored held]
    have counts : (Column.ofParts name (some (.integers (slots.map Prod.fst))) validity).counts =
        ⟨validity.zeros,
          (Column.rowsOf (.integers (slots.map Prod.fst)) validity).countP Cell.isEmpty⟩ := rfl
    rw [counts, ← nulls, ← empties]

/-- Two numbers around a null, packed and read again. -/
theorem ingest_integer_texts_threeRows :
    ∃ report after reader column restored,
      Pack.relation (.cascade 3) Pack.inPairs (.empty "") "memory://t" Pack.threeRows =
        (.ok report, after) ∧
      ColumnReader.ofPath .standard after "memory://t" 0 = .ok reader ∧
      reader.materialize .standard .text "" = .ok (3, "7\nnull\n-1\n") ∧
      ingest {} [⟨"n", .integer⟩] (Text.encode "7\nnull\n-1\n") = .ok ⟨[column], 3⟩ ∧
      column.values = some (.integers restored) ∧
      restored = [7, integerPlaceholder, -1] ∧ column.counts = ⟨1, 0⟩ := by
  obtain ⟨report, after, packed⟩ : ∃ report after, Pack.relation (.cascade 3) Pack.inPairs
      (.empty "") "memory://t" Pack.threeRows = (.ok report, after) :=
    Pack.exists_report_of_isOk (by decide +kernel)
  obtain ⟨text, column, restored, pushed, -, opens, ingested, -, data, length, -, present, absent,
    counts⟩ := @ingest_integer_texts (.ofList [true, false, true]) [7, integerPlaceholder, -1] _
      (Validity.represents_ofList [true, false, true]) rfl "n"
  have spelled : Sink.text.pushAll (Column.rowsOf (.integers [7, integerPlaceholder, -1])
      (.ofList [true, false, true])) "" = .ok "7\nnull\n-1\n" := by cbv
  obtain rfl : "7\nnull\n-1\n" = text := Except.ok.inj (spelled.symm.trans pushed)
  obtain ⟨reader, opened, read⟩ := opens Pack.inPairs Pack.threeRows _ _ report after 0 _
    (.inl Pack.built_threeRows) Pack.sized_threeRows packed rfl rfl rfl
  have slots : restored = [7, integerPlaceholder, -1] := by
    obtain ⟨first, second, third, rfl⟩ := List.length_eq_three.mp length
    rw [Option.some.inj (present 0 rfl), Option.some.inj (absent 1 rfl),
      Option.some.inj (present 2 rfl)]
  exact ⟨report, after, reader, column, restored, packed, opened, read, ingested, data, slots,
    counts⟩

end Reingesting

end Columnar.Tabular
