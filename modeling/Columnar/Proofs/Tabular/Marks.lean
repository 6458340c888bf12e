import Columnar.Proofs.Tabular.Filling
import Columnar.Proofs.Tabular.Rows

namespace Columnar

/-!
A byte order mark in front of a text.

The mark is consumed with the first record.  From the record on nothing changes but the positions in
faults, which count its bytes.  In front of the record they hide the empty lines: those at the start
of a text without a header are lost.
-/

/-- The fault as it is behind a mark, which the first record has in itself and not in front. -/
def RecordFault.behindMark (fault : RecordFault) : RecordFault :=
  if fault.record = 0 then fault
  else { fault with byte := fault.byte + Tabular.byteOrderMark.length }

def Error.behindMark : Error → Error
  | .record fault => .record fault.behindMark
  | error => error

namespace Tabular

def RecordRead.behindMark (read : RecordRead) : RecordRead :=
  { read with consumed := byteOrderMark ++ read.consumed }

def Position.behindMark (position : Position) : Position :=
  { position with bytes := position.bytes + byteOrderMark.length }

/-- How many empty lines at the start of a text are lost behind a mark.  A header keeps them, and a
record that cannot be read hides them with or without a mark. -/
def lostLines (format : TextFormat) (text : Bytes) : Nat :=
  let all := lines format.delimiter text
  if format.header then 0
  else if (all.dropWhile (· = .empty)).head?.all (·.texts?.isSome) then
    (all.takeWhile (· = .empty)).length
  else 0

/-- The lines of a text that are not lost behind a mark. -/
def linesBehindMark (format : TextFormat) (text : Bytes) : List Line :=
  if format.header then linesIn format text else (linesIn format text).dropWhile (· = .empty)

/-- A text without the mark in front of it. -/
def unmark (text : Bytes) : Bytes :=
  if byteOrderMark.isPrefixOf text then text.drop byteOrderMark.length else text

def linesRead (format : TextFormat) (text : Bytes) : List Line :=
  if byteOrderMark.isPrefixOf text then linesBehindMark format (unmark text)
  else linesIn format text

section Reads

variable {delimiter : UInt8} {text : Bytes} {position : Position}

/-- The reads that follow a read. -/
def readsBehind (delimiter : UInt8) (read : RecordRead) : List RecordRead :=
  match read.fields with
  | none => []
  | some _ => readRecords delimiter false read.rest

theorem readRecords_first (delimiter : UInt8) (text : Bytes) :
    readRecords delimiter false text =
      readFrom delimiter [] text :: readsBehind delimiter (readFrom delimiter [] text) := by
  cases found : (readFrom delimiter [] text).fields with
  | none => rw [readRecords_none found, readsBehind, found]
  | some fields => rw [readRecords_found found, readsBehind, found]

theorem readRecords_marked (delimiter : UInt8) (text : Bytes) :
    readRecords delimiter true (byteOrderMark ++ text) =
      (readFrom delimiter [] text).behindMark ::
        readsBehind delimiter (readFrom delimiter [] text) := by
  have first : readRecord delimiter true (byteOrderMark ++ text) =
      (readFrom delimiter [] text).behindMark := by
    have marked : byteOrderMark.isPrefixOf (byteOrderMark ++ text) = true :=
      List.isPrefixOf_iff_prefix.mpr (List.prefix_append _ _)
    rw [readRecord, if_pos ⟨rfl, marked⟩, readFrom_earlier, List.reverse_reverse]
    rfl
  rw [readRecords_eq, first, readsBehind]
  simp only [RecordRead.behindMark]
  cases (readFrom delimiter [] text).fields <;> rfl

theorem advance_behindMark {read : RecordRead} (some : read.consumed ≠ []) :
    position.advance read.behindMark = (position.advance read).behindMark := by
  have feeds : byteOrderMark.count lineFeed = 0 := by decide
  simp only [Position.advance, Position.behindMark, RecordRead.behindMark, List.count_append, feeds,
    Nat.zero_add, List.length_append, List.getLast?_append_of_ne_nil _ some, Position.mk.injEq,
    true_and, and_true]
  omega

theorem decodeFields_behindMark (later : position.records ≠ 0) (index : Nat)
    (fields : List Bytes) :
    decodeFields position.behindMark index fields =
      (decodeFields position index fields).mapError RecordFault.behindMark := by
  induction fields generalizing index with
  | nil => rfl
  | cons bytes rest ih =>
      rw [decodeFields, decodeFields, ih]
      cases Text.decode bytes with
      | error fault =>
          simp only [mapError_error, RecordFault.behindMark, if_neg later, Position.behindMark]
      | ok text => cases decodeFields position (index + 1) rest <;> rfl

theorem record_decodeFields {index : Nat} {fields : List Bytes} {fault : RecordFault}
    (failed : decodeFields position index fields = .error fault) :
    fault.record = position.records := by
  induction fields generalizing index with
  | nil => contradiction
  | cons bytes rest ih =>
      rw [decodeFields] at failed
      split at failed
      · cases failed
        rfl
      split at failed
      · rename_i later
        cases failed
        exact ih later
      · contradiction

/-- Rows behind the first record differ in the positions of faults. -/
theorem rowsFrom_behindMark {reads : List RecordRead} (later : position.records ≠ 0) :
    rowsFrom position.behindMark reads =
      (rowsFrom position reads).map (Except.mapError RecordFault.behindMark) := by
  induction reads generalizing position with
  | nil => rfl
  | cons read rest ih =>
      have next : position.behindMark.advance read = (position.advance read).behindMark := by
        simp only [Position.advance, Position.behindMark, Position.mk.injEq, true_and, and_true]
        omega
      have others := @ih (position.advance read) (Nat.succ_ne_zero _)
      rw [rowsFrom, rowsFrom, next, others]
      cases read.fields with
      | none =>
          simp only [List.map_replicate, mapError_ok]
          rfl
      | some fields =>
          dsimp only
          rw [decodeFields_behindMark later]
          cases decodeFields position 0 fields with
          | error fault => rfl
          | ok texts =>
              simp only [mapError_ok, List.map_append, List.map_replicate, List.map_cons]
              rfl

/-- The lines at the start of a text that a read counts, and the record behind them. -/
theorem lostLines_eq (format : TextFormat) (text : Bytes) :
    lostLines format text =
      if format.header then 0
      else if (readFrom format.delimiter [] text).fields.all fun fields =>
          (Line.record fields).texts?.isSome then
        countBlankLines false (readFrom format.delimiter [] text).consumed
      else 0 := by
  have whole := lines_resume format.delimiter false text
  rw [resume, if_neg Bool.false_ne_true] at whole
  rw [lostLines, whole]
  cases (readFrom format.delimiter [] text).fields with
  | none => simp
  | some fields => simp

/-- Behind a mark a text has the same rows, without the lines that are lost. -/
theorem rows_behindMark (format : TextFormat) (text : Bytes) :
    ∃ kept,
      rowsOfReads format (readRecords format.delimiter false text) =
        List.replicate (lostLines format text) (.ok blankRow) ++ kept ∧
      rows format (byteOrderMark ++ text) =
        kept.map (Except.mapError RecordFault.behindMark) := by
  rw [rows_eq, readRecords_first, readRecords_marked, lostLines_eq]
  unfold rowsOfReads
  by_cases header : format.header
  · simp only [if_pos header]
    refine ⟨_, (List.nil_append _).symm, ?_⟩
    cases found : (readFrom format.delimiter [] text).fields with
    | none =>
        simp only [readsBehind, found]
        rfl
    | some fields =>
        rw [advance_behindMark (consumed_readFrom_ne_nil found)]
        exact rowsFrom_behindMark (Nat.succ_ne_zero _)
  · simp only [if_neg header]
    have hidden : countBlankLines Position.start.afterReturn
        (readFrom format.delimiter [] text).behindMark.consumed = 0 := rfl
    have start : Position.start.afterReturn = false := rfl
    rw [rowsFrom, rowsFrom, hidden, start]
    have fields : (readFrom format.delimiter [] text).behindMark.fields =
        (readFrom format.delimiter [] text).fields := rfl
    rw [fields]
    cases found : (readFrom format.delimiter [] text).fields with
    | none => exact ⟨[], by simp, rfl⟩
    | some fields =>
        have decoded := toOption_decodeFields .start 0 fields
        rw [Option.all_some, ← decoded]
        dsimp only
        cases decodes : decodeFields .start 0 fields with
        | error fault =>
            -- The record stands at the start, with or without a mark.
            have first : fault.record = 0 := record_decodeFields decodes
            refine ⟨[.error fault], rfl, ?_⟩
            simp only [List.map_singleton, mapError_error, RecordFault.behindMark, if_pos first]
        | ok texts =>
            refine ⟨_, by rw [Except.toOption, Option.isSome_some, if_pos rfl, List.map_replicate],
              ?_⟩
            rw [advance_behindMark (consumed_readFrom_ne_nil found), List.map_cons, mapError_ok,
              ← rowsFrom_behindMark (Nat.succ_ne_zero _)]
            rfl

end Reads

theorem dropWhile_empties (count : Nat) (fields : List Bytes) (back : List Line) :
    (List.replicate count Line.empty ++ .record fields :: back).dropWhile (· = .empty) =
      .record fields :: back := by
  simp

/-- The lines of a text begin with those that are lost behind a mark. -/
theorem rowsOfLines_lost (format : TextFormat) (text : Bytes) :
    rowsOfLines 0 (linesIn format text) =
      List.replicate (lostLines format text) (some blankRow) ++
        rowsOfLines 0 (linesBehindMark format text) := by
  have whole := lines_resume format.delimiter false text
  rw [resume, if_neg Bool.false_ne_true] at whole
  rw [lostLines_eq, linesBehindMark]
  by_cases header : format.header
  · rw [if_pos header, if_pos header]
    rfl
  · rw [if_neg header, if_neg header, linesIn, if_neg header, whole, rowsOfLines_empties,
      Nat.zero_add]
    cases (readFrom format.delimiter [] text).fields with
    | none => simp [rowsOfLines]
    | some fields =>
        rw [Option.all_some, dropWhile_empties, rowsOfLines, rowsOfLines]
        cases (Line.record fields).texts? with
        | none => rfl
        | some texts => rfl

theorem toOption_rows_marked (format : TextFormat) (text : Bytes) :
    (rows format (byteOrderMark ++ text)).map Except.toOption =
      rowsOfLines 0 (linesBehindMark format text) := by
  obtain ⟨kept, plainRows, markedRows⟩ := rows_behindMark format text
  have same := toOption_rowsOfReads format text
  rw [plainRows, rowsOfLines_lost, List.map_append, List.map_replicate] at same
  have moved (row : Except RecordFault (List String)) :
      (row.mapError RecordFault.behindMark).toOption = row.toOption := by cases row <;> rfl
  rw [markedRows, List.map_map]
  refine Eq.trans (List.map_congr_left fun row _ => moved row) (List.append_cancel_left same)

theorem toOption_rows_read (format : TextFormat) (text : Bytes) :
    (rows format text).map Except.toOption = rowsOfLines 0 (linesRead format text) := by
  rw [linesRead, unmark]
  cases marked : byteOrderMark.isPrefixOf text with
  | false =>
      rw [if_neg Bool.false_ne_true]
      exact toOption_rows format marked
  | true =>
      obtain ⟨behind, rfl⟩ := List.isPrefixOf_iff_prefix.mp marked
      rw [if_pos rfl, if_pos rfl, List.drop_left]
      exact toOption_rows_marked format behind

section Ingestion

variable {format : TextFormat} {text : Bytes} {specs : List ColumnSpec}
  {rows : List (Except RecordFault (List String))}

theorem pushFields_error {row column : Nat} {builders : List ColumnBuilder} {fields : List String}
    {error : Error} (failed : pushFields row column specs builders fields = .error error) :
    ∃ fault, error = .malformedField fault := by
  induction specs generalizing column builders fields with
  | nil => contradiction
  | cons spec specs ih =>
      cases builders with
      | nil => contradiction
      | cons builder builders =>
          cases fields with
          | nil => contradiction
          | cons field fields =>
              rw [pushFields] at failed
              split at failed
              · cases failed
                exact ⟨_, rfl⟩
              split at failed
              · rename_i later
                cases failed
                exact ih later
              · contradiction

theorem pushRow_error {row : Nat} {builders : List ColumnBuilder} {fields : List String}
    {error : Error} (failed : pushRow specs row builders fields = .error error) :
    (∃ fault, error = .malformedField fault) ∨
      ∃ row expected actual, error = .fieldCount row expected actual := by
  unfold pushRow at failed
  split at failed
  · cases failed
    exact .inr ⟨_, _, _, rfl⟩
  · exact .inl (pushFields_error failed)

theorem pushRows_behindMark (specs : List ColumnSpec) (row : Nat) (builders : List ColumnBuilder)
    (rows : List (Except RecordFault (List String))) :
    pushRows specs row builders (rows.map (Except.mapError RecordFault.behindMark)) =
      (pushRows specs row builders rows).mapError Error.behindMark := by
  induction rows generalizing row builders with
  | nil => rfl
  | cons first rest ih =>
      cases first with
      | error fault => rfl
      | ok fields =>
          rw [List.map_cons, mapError_ok, pushRows, pushRows]
          cases pushed : pushRow specs row builders fields with
          | error error =>
              rcases pushRow_error pushed with ⟨fault, rfl⟩ | ⟨row, expected, actual, rfl⟩
              · rfl
              · rfl
          | ok next => exact ih (row + 1) next

theorem addColumns_error {relation : Relation} {columns : List Column} {error : Error}
    (failed : addColumns relation columns = .error error) : ∃ fault, error = .columnLength fault := by
  induction columns generalizing relation with
  | nil => contradiction
  | cons column rest ih =>
      rw [addColumns] at failed
      split at failed
      · exact ih failed
      · cases failed
        exact ⟨_, rfl⟩

theorem ingestRows_behindMark (specs : List ColumnSpec)
    (rows : List (Except RecordFault (List String))) :
    ingestRows specs (rows.map (Except.mapError RecordFault.behindMark)) =
      (ingestRows specs rows).mapError Error.behindMark := by
  rw [ingestRows, ingestRows, pushRows_behindMark]
  cases pushRows specs 0 (specs.map fun spec => ColumnBuilder.ofType spec.type) rows with
  | error error => rfl
  | ok pushed =>
      simp only [mapError_ok]
      cases added : addColumns .empty
          ((specs.zip pushed.2).map fun entry => entry.2.toColumn entry.1.name) with
      | error error =>
          obtain ⟨fault, rfl⟩ := addColumns_error added
          rfl
      | ok relation =>
          dsimp only
          split
          · rfl
          · rfl

/-- The rows of a text have no faults, when the delimiter is a character of its own. -/
theorem rows_of_text (utf8 : Text.IsUtf8 text) (ascii : format.delimiter < 0x80)
    (unmarked : byteOrderMark.isPrefixOf text = false) :
    ∀ row ∈ Tabular.rows format text, ∃ texts, row = .ok texts := by
  have readable : ∀ line ∈ linesIn format text, line.texts?.isSome := fun line member =>
    readable_lines ascii utf8 line (mem_lines_of_mem_linesIn member)
  have same := toOption_rows format unmarked
  rw [rowsOfLines_readable 0 readable, List.replicate_zero, List.nil_append] at same
  intro row member
  have held := List.mem_map_of_mem (f := Except.toOption) member
  rw [same] at held
  obtain ⟨line, inside, decoded⟩ := List.mem_map.mp held
  have isSome := readable line inside
  rw [decoded] at isSome
  cases row with
  | error fault => contradiction
  | ok texts => exact ⟨texts, rfl⟩

theorem lostLines_eq_zero (kept : format.header ∨ behindTerminator? text = none) :
    lostLines format text = 0 := by
  rw [lostLines]
  rcases kept with header | noEnd
  · rw [if_pos header]
  · have first : (lines format.delimiter text).takeWhile (· = .empty) = [] := by
      cases text with
      | nil => simp [lines]
      | cons byte rest => simp [lines_record noEnd]
    simp [first]

theorem lostLines_of_text (utf8 : Text.IsUtf8 text) (ascii : format.delimiter < 0x80) :
    lostLines format text =
      if format.header then 0
      else ((lines format.delimiter text).takeWhile (· = .empty)).length := by
  have readable : (((lines format.delimiter text).dropWhile (· = .empty)).head?.all
      (·.texts?.isSome)) = true := by
    rw [Option.all_eq_true]
    intro line first
    exact readable_lines ascii utf8 line
      ((List.dropWhile_sublist _).subset (List.mem_of_mem_head? first))
  rw [lostLines, if_pos readable]

theorem map_behindMark (read : ∀ row ∈ rows, ∃ texts, row = .ok texts) :
    rows.map (Except.mapError RecordFault.behindMark) = rows := by
  refine (List.map_congr_left fun row member => ?_).trans (List.map_id rows)
  obtain ⟨texts, rfl⟩ := read row member
  rfl

/-- Behind a mark a text is read into the same relation, or to the same error at its place in the
bytes that were given, unless it begins with empty lines: these are lost if the text has no
header. -/
theorem ingest_behind_mark (format : TextFormat)
    (unmarked : byteOrderMark.isPrefixOf text = false) :
    (∃ kept,
      Tabular.rows format text = List.replicate (lostLines format text) (.ok blankRow) ++ kept ∧
      ∀ specs, ingest format specs (byteOrderMark ++ text) =
        (ingestRows specs kept).mapError Error.behindMark) ∧
    (format.header ∨ behindTerminator? text = none →
      ∀ specs, ingest format specs (byteOrderMark ++ text) =
        (ingest format specs text).mapError Error.behindMark) ∧
    (Text.IsUtf8 text → format.delimiter < 0x80 →
      (format.header ∨ behindTerminator? text = none →
        ∀ specs, ingest format specs (byteOrderMark ++ text) = ingest format specs text) ∧
      ∀ specs plain marked, ingest format specs text = .ok plain →
        ingest format specs (byteOrderMark ++ text) = .ok marked →
        plain.tupleCount = marked.tupleCount +
          if format.header then 0
          else ((lines format.delimiter text).takeWhile (· = .empty)).length) := by
  obtain ⟨kept, plainRows, markedRows⟩ := rows_behindMark format text
  rw [← readRecords_unmarked format.delimiter unmarked, ← rows_eq] at plainRows
  have reading (specs : List ColumnSpec) : ingest format specs (byteOrderMark ++ text) =
      (ingestRows specs kept).mapError Error.behindMark := by
    rw [ingest_eq, markedRows, ingestRows_behindMark]
  have whole (keeps : format.header ∨ behindTerminator? text = none) :
      Tabular.rows format text = kept := by
    rw [plainRows, lostLines_eq_zero keeps]
    rfl
  refine ⟨⟨kept, plainRows, reading⟩, ?_, ?_⟩
  · intro keeps specs
    rw [reading, ingest_eq, whole keeps]
  · intro utf8 ascii
    have texts := rows_of_text utf8 ascii unmarked
    constructor
    · intro keeps specs
      rw [ingest_eq, ingest_eq, markedRows, whole keeps, map_behindMark (whole keeps ▸ texts)]
    · intro specs plain marked plainRead markedRead
      rw [(ingest_sound plainRead).2, (ingest_sound markedRead).2, plainRows, markedRows,
        List.length_append, List.length_replicate, List.length_map, Nat.add_comm,
        lostLines_of_text utf8 ascii]

theorem ingest_behind_mark_emptyLine :
    byteOrderMark.isPrefixOf (Text.encode "\n1\n") = false ∧
      ∃ plain marked, ingest {} [⟨"a", .integer⟩] (Text.encode "\n1\n") = .ok plain ∧
        ingest {} [⟨"a", .integer⟩] (byteOrderMark ++ Text.encode "\n1\n") = .ok marked ∧
        plain.tupleCount = marked.tupleCount + 1 := by
  have unmarked : byteOrderMark.isPrefixOf (Text.encode "\n1\n") = false := by decide
  have first : ((lines ({} : TextFormat).delimiter (Text.encode "\n1\n")).takeWhile
      (· = .empty)).length = 1 := by cbv
  have plainRead : (ingest {} [⟨"a", .integer⟩] (Text.encode "\n1\n")).isOk = true := by cbv
  have markedRead : (ingest {} [⟨"a", .integer⟩]
      (byteOrderMark ++ Text.encode "\n1\n")).isOk = true := by cbv
  obtain ⟨-, -, texts⟩ := ingest_behind_mark {} unmarked
  have lost := (texts ⟨"\n1\n", rfl⟩ (by decide)).2 [⟨"a", .integer⟩]
  rw [first] at lost
  cases plain : ingest {} [⟨"a", .integer⟩] (Text.encode "\n1\n") with
  | error error =>
      rw [plain] at plainRead
      contradiction
  | ok whole =>
      cases marked : ingest {} [⟨"a", .integer⟩] (byteOrderMark ++ Text.encode "\n1\n") with
      | error error =>
          rw [marked] at markedRead
          contradiction
      | ok kept => exact ⟨unmarked, whole, kept, rfl, rfl, lost whole kept plain marked⟩

/-- A mark in front of an empty line hides it. -/
theorem not_ingest_ignores_mark :
    ¬ ∀ (format : TextFormat) (specs : List ColumnSpec) (text : String),
      byteOrderMark.isPrefixOf (Text.encode text) = false →
      ingest format specs (byteOrderMark ++ Text.encode text) =
        ingest format specs (Text.encode text) := by
  intro ignores
  have same := congrArg (Except.map Relation.tupleCount)
    (ignores {} [⟨"a", .integer⟩] "\n1\n" (by decide))
  have marked : (ingest {} [⟨"a", .integer⟩] (byteOrderMark ++ Text.encode "\n1\n")).map
      Relation.tupleCount = .ok 1 := by cbv
  have plain : (ingest {} [⟨"a", .integer⟩] (Text.encode "\n1\n")).map
      Relation.tupleCount = .ok 2 := by cbv
  rw [marked, plain] at same
  cases same

end Ingestion

end Tabular

end Columnar
