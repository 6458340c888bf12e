import Columnar.Proofs.Tabular.Lines
import Mathlib

namespace Columnar.Tabular

/-!
The rows that ingestion adds are the lines of the text.

The one difference shows when a record holds a field that is not UTF-8, which in a text takes a
delimiter that cuts characters in two.  Reading ends there, and the empty lines directly in front of
that record are lost with it.
-/

/-- Adds rows to the columns of a schema one after another, up to the first that fails. -/
def ingestRows (specs : List ColumnSpec) (rows : List (Except RecordFault (List String))) :
    Except Error Relation :=
  match pushRows specs 0 (specs.map fun spec => ColumnBuilder.ofType spec.type) rows with
  | .error error => .error error
  | .ok (count, builders) =>
      match addColumns .empty ((specs.zip builders).map fun entry => entry.2.toColumn entry.1.name) with
      | .error error => .error error
      | .ok relation =>
          if specs.all fun spec => spec.type = .skip then .ok { relation with tupleCount := count }
          else .ok relation

theorem ingest_eq (format : TextFormat) (specs : List ColumnSpec) (text : Bytes) :
    ingest format specs text = ingestRows specs (rows format text) := rfl

/-- Lines as rows, in which a fault stands as `none`: the empty lines that wait in front of a record
are given out with it, or not at all. -/
def rowsOfLines : Nat → List Line → List (Option (List String))
  | waiting, [] => List.replicate waiting (some blankRow)
  | waiting, .empty :: rest => rowsOfLines (waiting + 1) rest
  | waiting, .record fields :: rest =>
      match (Line.record fields).texts? with
      | none => [none]
      | some texts =>
          List.replicate waiting (some blankRow) ++ some texts :: rowsOfLines 0 rest

section Lines

variable {all front back : List Line} {fields : List Bytes}

theorem rowsOfLines_empties (waiting count : Nat) (rest : List Line) :
    rowsOfLines waiting (List.replicate count .empty ++ rest) =
      rowsOfLines (waiting + count) rest := by
  induction count generalizing waiting with
  | zero => rfl
  | succ count ih =>
      rw [List.replicate_succ, List.cons_append, rowsOfLines, ih, Nat.add_assoc, Nat.add_comm 1]

/-- The waiting lines come first as long as some record behind them can be read. -/
theorem rowsOfLines_append (waiting : Nat) (readable : ∀ line ∈ front, line.texts?.isSome)
    (closed : front.getLast? ≠ some .empty) (nonempty : front ≠ []) :
    rowsOfLines waiting (front ++ back) =
      List.replicate waiting (some blankRow) ++ front.map Line.texts? ++ rowsOfLines 0 back := by
  induction front generalizing waiting with
  | nil => exact absurd rfl nonempty
  | cons line rest ih =>
      have others : ∀ other ∈ rest, other.texts?.isSome :=
        fun other member => readable other (List.mem_cons_of_mem line member)
      have last : rest ≠ [] → rest.getLast? ≠ some .empty := by
        intro more
        rwa [List.getLast?_cons_of_ne_nil more] at closed
      cases line with
      | empty =>
          have more : rest ≠ [] := by
            rintro rfl
            exact closed rfl
          rw [List.cons_append, rowsOfLines, ih (waiting + 1) others (last more) more,
            List.replicate_succ']
          simp [Line.texts?]
      | record fields =>
          obtain ⟨texts, held⟩ := Option.isSome_iff_exists.mp (readable _ List.mem_cons_self)
          rw [List.cons_append, rowsOfLines, held]
          simp only [List.map_cons, held, List.append_assoc, List.cons_append]
          congr 2
          by_cases more : rest = []
          · rw [more]
            rfl
          · rw [ih 0 others (last more) more]
            rfl

theorem rowsOfLines_readable (waiting : Nat) (readable : ∀ line ∈ all, line.texts?.isSome) :
    rowsOfLines waiting all =
      List.replicate waiting (some blankRow) ++ all.map Line.texts? := by
  induction all generalizing waiting with
  | nil => simp [rowsOfLines]
  | cons line rest ih =>
      have others : ∀ other ∈ rest, other.texts?.isSome :=
        fun other member => readable other (List.mem_cons_of_mem line member)
      cases line with
      | empty =>
          rw [rowsOfLines, ih (waiting + 1) others, List.replicate_succ']
          simp [Line.texts?]
      | record fields =>
          obtain ⟨texts, held⟩ := Option.isSome_iff_exists.mp (readable _ List.mem_cons_self)
          rw [rowsOfLines, held, ih 0 others]
          simp [held]

theorem rowsOfLines_fault (readable : ∀ line ∈ front, line.texts?.isSome)
    (closed : front.getLast? ≠ some .empty) (count : Nat)
    (unreadable : (Line.record fields).texts? = none) :
    rowsOfLines 0 (front ++ List.replicate count .empty ++ .record fields :: back) =
      front.map Line.texts? ++ [none] := by
  have fault : rowsOfLines 0 (List.replicate count .empty ++ .record fields :: back) = [none] := by
    rw [rowsOfLines_empties, rowsOfLines, unreadable]
  by_cases nonempty : front = []
  · rw [nonempty, List.nil_append, fault]
    rfl
  · -- No empty line is left waiting, so those that wait for the fault are the `count` ones.
    rw [List.append_assoc, rowsOfLines_append 0 readable closed nonempty, fault]
    rfl

end Lines

section Reads

variable {delimiter : UInt8} {position : Position} {text : Bytes}

theorem toOption_decodeFields (position : Position) (index : Nat) (fields : List Bytes) :
    (decodeFields position index fields).toOption = (Line.record fields).texts? := by
  induction fields generalizing index with
  | nil => rfl
  | cons bytes rest ih =>
      have later := ih (index + 1)
      rw [Line.texts?] at later ⊢
      rw [decodeFields, List.mapM_cons, ← later]
      cases Text.decode bytes with
      | error fault => rfl
      | ok text => cases decodeFields position (index + 1) rest <;> rfl

theorem readRecords_found {fields : List Bytes}
    (found : (readFrom delimiter [] text).fields = some fields) :
    readRecords delimiter false text = readFrom delimiter [] text ::
      readRecords delimiter false (readFrom delimiter [] text).rest := by
  rw [readRecords_eq, readRecord_later, found]

theorem readRecords_none (none : (readFrom delimiter [] text).fields = none) :
    readRecords delimiter false text = [readFrom delimiter [] text] := by
  rw [readRecords_eq, readRecord_later, none]

theorem readRecords_unmarked (delimiter : UInt8) (unmarked : byteOrderMark.isPrefixOf text = false) :
    readRecords delimiter true text = readRecords delimiter false text := by
  have same : readRecord delimiter true text = readRecord delimiter false text := by
    simp [readRecord, unmarked]
  rw [readRecords_eq delimiter true, readRecords_eq delimiter false text, same]

/-- What reads give, from any position on, are the lines of the text that is left. -/
theorem toOption_rowsFrom (position : Position) (text : Bytes) :
    (rowsFrom position (readRecords delimiter false text)).map Except.toOption =
      rowsOfLines 0 (lines delimiter (resume position.afterReturn text)) := by
  -- A read leaves a shorter text, and its last byte says where the next one goes on.
  induction length : text.length using Nat.strongRecOn generalizing text position with
  | ind size ih =>
      rw [lines_resume, rowsOfLines_empties, Nat.zero_add]
      cases found : (readFrom delimiter [] text).fields with
      | none =>
          rw [readRecords_none found]
          simp only [rowsFrom, found, rowsOfLines, List.map_replicate, Except.toOption]
      | some fields =>
          have shorter := readFrom_rest_shorter found
          have later := ih _ (by omega) (position.advance (readFrom delimiter [] text))
            (readFrom delimiter [] text).rest rfl
          have decoded := toOption_decodeFields position 0 fields
          rw [readRecords_found found]
          cases decodes : decodeFields position 0 fields with
          | error fault =>
              rw [decodes] at decoded
              simp only [rowsFrom, found, decodes, rowsOfLines, ← decoded, List.map_cons,
                List.map_nil, Except.toOption]
          | ok texts =>
              rw [decodes] at decoded
              simp only [rowsFrom, found, decodes, rowsOfLines, ← decoded, List.map_append,
                List.map_replicate, List.map_cons, Except.toOption]
              exact congrArg _ (congrArg _ later)

/-- The rows of reads behind a header, if there is one. -/
def rowsOfReads (format : TextFormat) (reads : List RecordRead) :
    List (Except RecordFault (List String)) :=
  if format.header then
    match reads with
    | [] => []
    | header :: rest => rowsFrom (Position.start.advance header) rest
  else rowsFrom .start reads

theorem rows_eq (format : TextFormat) (text : Bytes) :
    rows format text = rowsOfReads format (readRecords format.delimiter true text) := rfl

theorem toOption_rowsOfReads (format : TextFormat) (text : Bytes) :
    (rowsOfReads format (readRecords format.delimiter false text)).map Except.toOption =
      rowsOfLines 0 (linesIn format text) := by
  have whole := lines_resume format.delimiter false text
  rw [resume, if_neg Bool.false_ne_true] at whole
  unfold rowsOfReads
  rw [linesIn]
  by_cases header : format.header
  · rw [if_pos header, if_pos header, whole]
    cases found : (readFrom format.delimiter [] text).fields with
    | none =>
        rw [readRecords_none found]
        simp [rowsFrom, rowsOfLines]
    | some fields =>
        rw [readRecords_found found]
        simp only [List.dropWhile_append, List.dropWhile_replicate]
        exact toOption_rowsFrom (Position.start.advance (readFrom format.delimiter [] text)) _
  · rw [if_neg header, if_neg header]
    exact toOption_rowsFrom .start text

theorem toOption_rows (format : TextFormat) (unmarked : byteOrderMark.isPrefixOf text = false) :
    (rows format text).map Except.toOption = rowsOfLines 0 (linesIn format text) := by
  rw [rows_eq, readRecords_unmarked format.delimiter unmarked]
  exact toOption_rowsOfReads format text

end Reads

section Texts

variable {delimiter : UInt8} {text : Bytes}

theorem isUtf8_dropLineFeed (utf8 : Text.IsUtf8 text) : Text.IsUtf8 (dropLineFeed text) := by
  cases text with
  | nil => exact utf8
  | cons byte rest =>
      rw [dropLineFeed]
      split
      · rename_i feed
        exact Text.isUtf8_of_cons (by rw [feed]; decide) utf8
      · exact utf8

theorem isUtf8_behindTerminator? {rest : Bytes} (ended : behindTerminator? text = some rest)
    (utf8 : Text.IsUtf8 text) : Text.IsUtf8 rest := by
  cases text with
  | nil => contradiction
  | cons byte others =>
      rw [behindTerminator?] at ended
      split at ended
      · rename_i isReturn
        cases ended
        exact isUtf8_dropLineFeed (Text.isUtf8_of_cons (by rw [isReturn]; decide) utf8)
      split at ended
      · rename_i feed
        cases ended
        exact Text.isUtf8_of_cons (by rw [feed]; decide) utf8
      · contradiction

theorem isUtf8_takeRecord (ascii : delimiter < 0x80) (utf8 : Text.IsUtf8 text) :
    (∀ field ∈ (takeRecord delimiter text).1, Text.IsUtf8 field) ∧
      Text.IsUtf8 (takeRecord delimiter text).2 := by
  have none : ∀ field ∈ ([] : List Bytes), Text.IsUtf8 field := by simp
  obtain ⟨fields, behind⟩ :=
    @isUtf8_readFields delimiter ascii .fieldStart ⟨[], [], []⟩ text utf8 none
  obtain ⟨read, found⟩ := Option.isSome_iff_exists.mp
    (@isSome_readFields delimiter .fieldStart ⟨[], [], []⟩ text)
  constructor
  · simp only [takeRecord, found, Option.getD_some]
    exact fields read found
  · simp only [takeRecord]
    split
    · exact isUtf8_dropLineFeed behind
    · exact behind

theorem isSome_texts? {fields : List Bytes} (utf8 : ∀ field ∈ fields, Text.IsUtf8 field) :
    (Line.record fields).texts?.isSome := by
  induction fields with
  | nil => rfl
  | cons bytes rest ih =>
      obtain ⟨text, decoded⟩ := Text.isUtf8_iff_decode.mp (utf8 bytes List.mem_cons_self)
      obtain ⟨texts, later⟩ := Option.isSome_iff_exists.mp
        (ih fun field member => utf8 field (List.mem_cons_of_mem bytes member))
      rw [Line.texts?] at later ⊢
      rw [List.mapM_cons, decoded, later]
      rfl

/-- A text has lines of texts, when the delimiter is a character of its own. -/
theorem readable_lines (ascii : delimiter < 0x80) (utf8 : Text.IsUtf8 text) :
    ∀ line ∈ lines delimiter text, line.texts?.isSome := by
  fun_induction lines delimiter text with
  | case1 => simp
  | case2 byte text rest ended ih =>
      intro line member
      rcases List.mem_cons.mp member with rfl | later
      · rfl
      · exact ih (isUtf8_behindTerminator? ended utf8) line later
  | case3 byte text holds ih =>
      obtain ⟨fields, behind⟩ := isUtf8_takeRecord ascii utf8
      intro line member
      rcases List.mem_cons.mp member with rfl | later
      · exact isSome_texts? fields
      · exact ih behind line later

theorem mem_lines_of_mem_linesIn {format : TextFormat} {line : Line}
    (member : line ∈ linesIn format text) : line ∈ lines format.delimiter text := by
  rw [linesIn] at member
  split at member
  · exact List.dropWhile_sublist _ |>.subset (List.mem_of_mem_drop member)
  · exact member

end Texts

section Ingestion

variable {front all : List Line}

/-- The row of a line, with the given fault if its fields are no texts. -/
def Line.row (fault : RecordFault) (line : Line) : Except RecordFault (List String) :=
  line.texts?.elim (.error fault) .ok

theorem eq_map_row (fault : RecordFault) {found : List (Except RecordFault (List String))}
    (same : found.map Except.toOption = front.map Line.texts?)
    (readable : ∀ line ∈ front, line.texts?.isSome) : found = front.map (Line.row fault) := by
  induction front generalizing found with
  | nil => exact List.map_eq_nil_iff.mp same
  | cons line rest ih =>
      obtain ⟨row, others, rfl, first, later⟩ := List.map_eq_cons_iff.mp same
      obtain ⟨texts, held⟩ := Option.isSome_iff_exists.mp (readable line List.mem_cons_self)
      rw [List.map_cons, ← ih later fun other member =>
        readable other (List.mem_cons_of_mem line member)]
      rw [held] at first
      cases row with
      | error fault => contradiction
      | ok fields =>
          cases first
          rw [Line.row, held]
          rfl

/-- All entries of a list have a property, or there is a first one without it. -/
theorem all_or_first {α : Type} (holds : α → Prop) [DecidablePred holds] (entries : List α) :
    (∀ entry ∈ entries, holds entry) ∨
      ∃ before entry after, entries = before ++ entry :: after ∧
        (∀ earlier ∈ before, holds earlier) ∧ ¬ holds entry := by
  induction entries with
  | nil => exact .inl (by simp)
  | cons first rest ih =>
      by_cases here : holds first
      · refine ih.imp (fun all => List.forall_mem_cons.mpr ⟨here, all⟩) ?_
        rintro ⟨before, entry, after, rfl, others, fails⟩
        exact ⟨first :: before, entry, after, rfl, List.forall_mem_cons.mpr ⟨here, others⟩, fails⟩
      · exact .inr ⟨[], first, rest, rfl, by simp, here⟩

/-- The first line that is not made of texts is a record. -/
theorem readable_or_split (all : List Line) :
    (∀ line ∈ all, line.texts?.isSome) ∨
      ∃ front fields back, all = front ++ .record fields :: back ∧
        (∀ line ∈ front, line.texts?.isSome) ∧ (Line.record fields).texts? = none := by
  refine (all_or_first (fun line : Line => line.texts?.isSome) all).imp_right ?_
  rintro ⟨front, line, back, split, readable, unreadable⟩
  cases line with
  | empty => exact absurd rfl unreadable
  | record fields =>
      exact ⟨front, fields, back, split, readable, Option.not_isSome_iff_eq_none.mp unreadable⟩

theorem exists_closed (front : List Line) :
    ∃ closed count, front = closed ++ List.replicate count .empty ∧
      closed.getLast? ≠ some .empty := by
  induction front using List.reverseRecOn with
  | nil => exact ⟨[], 0, rfl, by simp⟩
  | append_singleton rest line ih =>
      cases line with
      | empty =>
          obtain ⟨closed, count, rfl, last⟩ := ih
          exact ⟨closed, count + 1, by rw [List.replicate_succ', List.append_assoc], last⟩
      | record fields => exact ⟨rest ++ [.record fields], 0, by simp, by simp⟩

/-- Ingestion adds the lines of a text, in order, each once.  Only where the delimiter cuts
characters can a record be no text, and then it is the last row, in place of the empty lines in
front of it as well. -/
theorem ingest_adds_lines (format : TextFormat) (text : String)
    (unmarked : byteOrderMark.isPrefixOf (Text.encode text) = false) :
    ((∀ line ∈ linesIn format (Text.encode text), line.texts?.isSome) ∧
      ∀ fault,
        rows format (Text.encode text) =
          (linesIn format (Text.encode text)).map (Line.row fault) ∧
        ∀ specs, ingest format specs (Text.encode text) =
          ingestRows specs ((linesIn format (Text.encode text)).map (Line.row fault))) ∨
    (0x80 ≤ format.delimiter ∧ ∃ front count fields back fault,
      linesIn format (Text.encode text) =
        front ++ List.replicate count .empty ++ .record fields :: back ∧
      front.getLast? ≠ some .empty ∧ (∀ line ∈ front, line.texts?.isSome) ∧
      (Line.record fields).texts? = none ∧
      rows format (Text.encode text) = front.map (Line.row fault) ++ [.error fault] ∧
      ∀ specs, ingest format specs (Text.encode text) =
        ingestRows specs (front.map (Line.row fault) ++ [.error fault])) := by
  have same := toOption_rows format unmarked
  rcases readable_or_split (linesIn format (Text.encode text)) with
    readable | ⟨front, fields, back, split, readable, unreadable⟩
  · refine .inl ⟨readable, fun fault => ?_⟩
    rw [rowsOfLines_readable 0 readable] at same
    have added := eq_map_row fault same readable
    exact ⟨added, fun specs => by rw [ingest_eq, added]⟩
  · right
    constructor
    · refine UInt8.not_lt.mp fun low => ?_
      have isSome := readable_lines low ⟨text, rfl⟩ _
        (mem_lines_of_mem_linesIn (split ▸ List.mem_append_right front List.mem_cons_self))
      rw [unreadable] at isSome
      contradiction
    · obtain ⟨closed, count, rfl, last⟩ := exists_closed front
      have within : ∀ line ∈ closed, line.texts?.isSome :=
        fun line member => readable line (List.mem_append_left _ member)
      rw [split, rowsOfLines_fault within last count unreadable] at same
      obtain ⟨before, others, found, ahead, ended⟩ := List.map_eq_append_iff.mp same
      obtain ⟨row, rfl, failed⟩ := List.map_eq_singleton_iff.mp ended
      cases row with
      | ok texts => contradiction
      | error fault =>
          rw [eq_map_row fault ahead within] at found
          exact ⟨closed, count, fields, back, fault, split, last, within, unreadable, found,
            fun specs => by rw [ingest_eq, found]⟩

/-- A text in which lines end in all three ways, also inside of quotes. -/
def mixedEnds : String := "\r\na,\"x\ny\"\r\r\n\n1,2"

theorem ingest_adds_lines_mixedEnds :
    byteOrderMark.isPrefixOf (Text.encode mixedEnds) = false ∧
      ∀ specs, ingest {} specs (Text.encode mixedEnds) = ingestRows specs
        [.ok [""], .ok ["a", "x\ny"], .ok [""], .ok [""], .ok ["1", "2"]] := by
  have unmarked : byteOrderMark.isPrefixOf (Text.encode mixedEnds) = false := by decide
  have found : (linesIn {} (Text.encode mixedEnds)).map (Line.row ⟨0, 0, 0, 0, 0⟩) =
      [.ok [""], .ok ["a", "x\ny"], .ok [""], .ok [""], .ok ["1", "2"]] := by cbv
  refine ⟨unmarked, fun specs => ?_⟩
  rcases ingest_adds_lines {} mixedEnds unmarked with ⟨-, same⟩ | ⟨cuts, -⟩
  · rw [(same ⟨0, 0, 0, 0, 0⟩).2 specs, found]
  · exact absurd cuts (by decide)

/-- With the last byte of a character as delimiter, a record of a text need be no text, and the
empty line in front of it is not added. -/
theorem not_ingest_adds_all_lines :
    ¬ ∀ (format : TextFormat) (text : String),
      format.delimiter ≠ carriageReturn → format.delimiter ≠ lineFeed → format.delimiter ≠ quote →
      byteOrderMark.isPrefixOf (Text.encode text) = false →
      ∃ fault, ∀ specs, ingest format specs (Text.encode text) =
        ingestRows specs ((linesIn format (Text.encode text)).map (Line.row fault)) := by
  intro adds
  obtain ⟨fault, same⟩ := adds { delimiter := 0xA9 } "\né\n" (by decide) (by decide) (by decide)
    (by decide)
  let specs : List ColumnSpec := [⟨"a", .integer⟩, ⟨"b", .integer⟩]
  have stops : ingest { delimiter := 0xA9 } specs (Text.encode "\né\n") =
      .error (.record ⟨0, 1, 0, 0, 0⟩) := by cbv
  have found : linesIn { delimiter := 0xA9 } (Text.encode "\né\n") =
      [.empty, .record [[0xC3], []]] := by cbv
  have refused (row : Except RecordFault (List String)) :
      ingestRows specs [.ok [""], row] = .error (.fieldCount 0 2 1) := rfl
  have added := same specs
  rw [stops, found, List.map_cons, List.map_singleton] at added
  rw [show Line.row fault .empty = .ok [""] from rfl, refused] at added
  cases added

end Ingestion

end Columnar.Tabular
