import Columnar.Proofs.Text.Utf8
import Columnar.Tabular.Record

namespace Columnar.Tabular

/-!
What one read of a record does.

`readFields_step` lists all that a reader does with a byte; everything else about a record follows
from it by induction on the text.  Behind the bytes that end lines, a read takes the bytes of one
record and loses none.
-/

/-- A byte is a quote that is passed over, belongs to the field, closes the field, or ends the
record. -/
theorem readFields_step (delimiter : UInt8) (state : FieldState) (byte : UInt8) (rest : Bytes) :
    (byte = quote ∧ ∃ next, ∀ progress, readFields delimiter state progress (byte :: rest) =
      readFields delimiter next (progress.skip byte) rest) ∨
    (∃ next, ∀ progress, readFields delimiter state progress (byte :: rest) =
      readFields delimiter next (progress.keep byte) rest) ∨
    (byte = delimiter ∧ ∀ progress, readFields delimiter state progress (byte :: rest) =
      readFields delimiter .fieldStart (progress.close byte) rest) ∨
    (endsLine byte = true ∧ ∀ progress, readFields delimiter state progress (byte :: rest) =
      (progress.skip byte).finish rest) := by
  by_cases quoted : state = .quoted
  · subst quoted
    by_cases isQuote : byte = quote
    · exact .inl ⟨isQuote, .afterQuote, fun progress => by rw [readFields, if_pos isQuote]⟩
    · exact .inr (.inl ⟨.quoted, fun progress => by rw [readFields, if_neg isQuote]⟩)
  have unfolded (progress : Progress) : readFields delimiter state progress (byte :: rest) =
      if state = .fieldStart ∧ byte = quote then
        readFields delimiter .quoted (progress.skip byte) rest
      else if state = .afterQuote ∧ byte = quote then
        readFields delimiter .quoted (progress.keep byte) rest
      else if byte = delimiter then readFields delimiter .fieldStart (progress.close byte) rest
      else if endsLine byte then (progress.skip byte).finish rest
      else readFields delimiter .unquoted (progress.keep byte) rest := by
    cases state with
    | quoted => exact absurd rfl quoted
    | fieldStart => rw [readFields]; simp
    | unquoted => rw [readFields]; simp
    | afterQuote => rw [readFields]; simp
  simp only [unfolded]
  by_cases opens : state = .fieldStart ∧ byte = quote
  · exact .inl ⟨opens.2, .quoted, fun progress => if_pos opens⟩
  by_cases doubles : state = .afterQuote ∧ byte = quote
  · exact .inr (.inl ⟨.quoted, fun progress => by rw [if_neg opens, if_pos doubles]⟩)
  by_cases closes : byte = delimiter
  · refine .inr (.inr (.inl ⟨closes, fun progress => ?_⟩))
    rw [if_neg opens, if_neg doubles, if_pos closes]
  by_cases ends : endsLine byte = true
  · refine .inr (.inr (.inr ⟨ends, fun progress => ?_⟩))
    rw [if_neg opens, if_neg doubles, if_neg closes, if_pos ends]
  · refine .inr (.inl ⟨.unquoted, fun progress => ?_⟩)
    rw [if_neg opens, if_neg doubles, if_neg closes, if_neg ends]

theorem readFields_nil (delimiter : UInt8) (state : FieldState) (progress : Progress) :
    readFields delimiter state progress [] = progress.finish [] := by
  cases state <;> rfl

section Fields

variable {delimiter : UInt8} {text : Bytes}

/-- What was consumed before a record only stands in front of what the record consumes. -/
theorem readFields_earlier (state : FieldState) (field : Bytes) (fields : List Bytes)
    (earlier : Bytes) (text : Bytes) :
    readFields delimiter state ⟨field, fields, earlier⟩ text =
      { readFields delimiter state ⟨field, fields, []⟩ text with
        consumed := earlier.reverse ++
          (readFields delimiter state ⟨field, fields, []⟩ text).consumed } := by
  induction text generalizing state field fields earlier with
  | nil => simp [readFields_nil, Progress.finish]
  | cons byte rest ih =>
      have further (next : FieldState) (field : Bytes) (fields : List Bytes) :
          readFields delimiter next ⟨field, fields, byte :: earlier⟩ rest =
            { readFields delimiter next ⟨field, fields, [byte]⟩ rest with
              consumed := earlier.reverse ++
                (readFields delimiter next ⟨field, fields, [byte]⟩ rest).consumed } := by
        rw [ih next field fields (byte :: earlier), ih next field fields [byte]]
        simp
      rcases readFields_step delimiter state byte rest with
        ⟨-, next, step⟩ | ⟨next, step⟩ | ⟨-, step⟩ | ⟨-, step⟩
      · simp only [step, Progress.skip]
        exact further next field fields
      · simp only [step, Progress.keep]
        exact further next (byte :: field) fields
      · simp only [step, Progress.close]
        exact further .fieldStart [] (field.reverse :: fields)
      · simp [step, Progress.skip, Progress.finish]

theorem readFields_whole (state : FieldState) (progress : Progress) (text : Bytes) :
    (readFields delimiter state progress text).consumed ++
      (readFields delimiter state progress text).rest = progress.consumed.reverse ++ text := by
  induction text generalizing state progress with
  | nil => simp [readFields_nil, Progress.finish]
  | cons byte rest ih =>
      rcases readFields_step delimiter state byte rest with
        ⟨-, next, step⟩ | ⟨next, step⟩ | ⟨-, step⟩ | ⟨-, step⟩
      · rw [step, ih]
        simp [Progress.skip]
      · rw [step, ih]
        simp [Progress.keep]
      · rw [step, ih]
        simp [Progress.close]
      · simp [step, Progress.skip, Progress.finish]

theorem isSome_readFields (state : FieldState) (progress : Progress) (text : Bytes) :
    (readFields delimiter state progress text).fields.isSome := by
  induction text generalizing state progress with
  | nil => simp [readFields_nil, Progress.finish]
  | cons byte rest ih =>
      rcases readFields_step delimiter state byte rest with
        ⟨-, next, step⟩ | ⟨next, step⟩ | ⟨-, step⟩ | ⟨-, step⟩
      · rw [step]
        exact ih _ _
      · rw [step]
        exact ih _ _
      · rw [step]
        exact ih _ _
      · simp [step, Progress.finish]

/-- A record that has not begun takes at least the first byte. -/
theorem consumed_readFields_cons (state : FieldState) (field : Bytes) (fields : List Bytes)
    (byte : UInt8) (rest : Bytes) :
    ∃ more, (readFields delimiter state ⟨field, fields, []⟩ (byte :: rest)).consumed =
      byte :: more := by
  have whole := @readFields_whole delimiter state ⟨field, fields, []⟩ (byte :: rest)
  have shorter := readFields_rest_length delimiter state ⟨field, fields, []⟩ (byte :: rest)
  cases taken : (readFields delimiter state ⟨field, fields, []⟩ (byte :: rest)).consumed with
  | nil =>
      have length := congrArg List.length whole
      simp only [taken, List.nil_append, List.reverse_nil, List.length_cons] at length shorter
      omega
  | cons first more =>
      rw [taken, List.reverse_nil, List.nil_append, List.cons_append, List.cons.injEq] at whole
      exact ⟨more, by rw [whole.1]⟩

end Fields

section Texts

variable {delimiter : UInt8}

theorem ascii_of_endsLine {byte : UInt8} (ends : endsLine byte = true) : byte < 0x80 := by
  simp only [endsLine, Bool.or_eq_true, decide_eq_true_eq] at ends
  rcases ends with rfl | rfl <;> decide

/-- A record of a text is made of texts, when the delimiter is a character of its own.  The bytes of
the open field and the text behind them are a text at each step. -/
theorem isUtf8_readFields (ascii : delimiter < 0x80) {state : FieldState} {progress : Progress}
    {text : Bytes} (open_ : Text.IsUtf8 (progress.field.reverse ++ text))
    (closed : ∀ field ∈ progress.fields, Text.IsUtf8 field) :
    (∀ fields, (readFields delimiter state progress text).fields = some fields →
        ∀ field ∈ fields, Text.IsUtf8 field) ∧
      Text.IsUtf8 (readFields delimiter state progress text).rest := by
  have ended {progress : Progress} {rest : Bytes} (last : Text.IsUtf8 progress.field.reverse)
      (closed : ∀ field ∈ progress.fields, Text.IsUtf8 field) (behind : Text.IsUtf8 rest) :
      (∀ fields, (progress.finish rest).fields = some fields →
        ∀ field ∈ fields, Text.IsUtf8 field) ∧ Text.IsUtf8 (progress.finish rest).rest := by
    refine ⟨fun fields found field member => ?_, behind⟩
    cases found
    rw [List.mem_reverse, List.mem_cons] at member
    rcases member with rfl | before
    · exact last
    · exact closed field before
  -- A quote and a delimiter are characters, so taking one out of a text leaves texts.
  induction text generalizing state progress with
  | nil =>
      rw [readFields_nil]
      rw [List.append_nil] at open_
      exact ended open_ closed ⟨"", rfl⟩
  | cons byte rest ih =>
      rcases readFields_step delimiter state byte rest with
        ⟨isQuote, next, step⟩ | ⟨next, step⟩ | ⟨closes, step⟩ | ⟨ends, step⟩
      · rw [step]
        have parts := Text.isUtf8_split (by rw [isQuote]; decide) open_
        exact ih (Text.isUtf8_append parts.1 parts.2) closed
      · rw [step]
        refine ih ?_ closed
        simpa [Progress.keep] using open_
      · rw [step]
        have parts := Text.isUtf8_split (by rw [closes]; exact ascii) open_
        refine ih parts.2 fun field member => ?_
        rcases List.mem_cons.mp member with rfl | before
        · exact parts.1
        · exact closed field before
      · rw [step]
        have parts := Text.isUtf8_split (ascii_of_endsLine ends) open_
        exact ended parts.1 closed parts.2

end Texts

section Reads

variable {delimiter : UInt8} {text : Bytes}

theorem readFrom_earlier (delimiter : UInt8) (earlier text : Bytes) :
    readFrom delimiter earlier text =
      { readFrom delimiter [] text with
        consumed := earlier.reverse ++ (readFrom delimiter [] text).consumed } := by
  induction text generalizing earlier with
  | nil => simp [readFrom]
  | cons byte rest ih =>
      by_cases ends : endsLine byte = true
      · simp only [readFrom, if_pos ends]
        rw [ih (byte :: earlier), ih [byte]]
        simp
      · simp only [readFrom, if_neg ends]
        exact readFields_earlier .fieldStart [] [] earlier (byte :: rest)

theorem readFrom_whole (delimiter : UInt8) (earlier text : Bytes) :
    (readFrom delimiter earlier text).consumed ++ (readFrom delimiter earlier text).rest =
      earlier.reverse ++ text := by
  induction text generalizing earlier with
  | nil => simp [readFrom]
  | cons byte rest ih =>
      by_cases ends : endsLine byte = true
      · simp only [readFrom, if_pos ends]
        rw [ih]
        simp
      · simp only [readFrom, if_neg ends]
        exact readFields_whole .fieldStart ⟨[], [], earlier⟩ (byte :: rest)

/-- A read consumes the text in front of what it leaves. -/
theorem readRecord_whole (delimiter : UInt8) (atStart : Bool) (text : Bytes) :
    (readRecord delimiter atStart text).consumed ++ (readRecord delimiter atStart text).rest =
      text := by
  unfold readRecord
  split
  · rename_i marked
    obtain ⟨rest, rfl⟩ := List.isPrefixOf_iff_prefix.mp marked.2
    rw [readFrom_whole, List.reverse_reverse]
    rfl
  · rw [readFrom_whole, List.reverse_nil, List.nil_append]

/-- A record that is found begins with a byte that ends no line. -/
theorem exists_mem_consumed {earlier : Bytes} {fields : List Bytes}
    (found : (readFrom delimiter earlier text).fields = some fields) :
    ∃ byte ∈ (readFrom delimiter earlier text).consumed, endsLine byte = false := by
  induction text generalizing earlier with
  | nil => simp [readFrom] at found
  | cons byte rest ih =>
      cases ends : endsLine byte with
      | true =>
          rw [readFrom, if_pos ends] at found ⊢
          exact ih found
      | false =>
          obtain ⟨more, consumed⟩ := @consumed_readFields_cons delimiter .fieldStart [] [] byte rest
          rw [readFrom, if_neg (by simp [ends]), readFields_earlier, consumed]
          exact ⟨byte, by simp, ends⟩

theorem exists_mem_consumed_record {atStart : Bool} {fields : List Bytes}
    (found : (readRecord delimiter atStart text).fields = some fields) :
    ∃ byte ∈ (readRecord delimiter atStart text).consumed, endsLine byte = false := by
  unfold readRecord at found ⊢
  split at found <;> rename_i marked
  · rw [if_pos marked]
    exact exists_mem_consumed found
  · rw [if_neg marked]
    exact exists_mem_consumed found

theorem consumed_readFrom_ne_nil {fields : List Bytes}
    (found : (readFrom delimiter [] text).fields = some fields) :
    (readFrom delimiter [] text).consumed ≠ [] := by
  obtain ⟨byte, member, -⟩ := exists_mem_consumed found
  exact List.ne_nil_of_mem member

theorem readRecords_eq (delimiter : UInt8) (atStart : Bool) (text : Bytes) :
    readRecords delimiter atStart text =
      match (readRecord delimiter atStart text).fields with
      | none => [readRecord delimiter atStart text]
      | some _ => readRecord delimiter atStart text ::
          readRecords delimiter false (readRecord delimiter atStart text).rest := by
  rw [readRecords]
  split <;> rename_i found <;> rw [found]

theorem readRecord_later (delimiter : UInt8) (text : Bytes) :
    readRecord delimiter false text = readFrom delimiter [] text := by
  simp [readRecord]

theorem countBlankLines_le (afterReturn : Bool) (bytes : Bytes) :
    countBlankLines afterReturn bytes ≤ bytes.length := by
  induction bytes generalizing afterReturn with
  | nil => exact Nat.le_refl 0
  | cons byte rest ih =>
      have unmarked := ih false
      have marked := ih true
      rw [countBlankLines, List.length_cons]
      split
      · split <;> omega
      · split <;> omega

theorem countBlankLines_lt {afterReturn : Bool} {byte : UInt8} {bytes : Bytes}
    (member : byte ∈ bytes) (noEnd : endsLine byte = false) :
    countBlankLines afterReturn bytes < bytes.length := by
  induction bytes generalizing afterReturn with
  | nil => contradiction
  | cons first rest ih =>
      rw [countBlankLines, List.length_cons]
      rcases List.mem_cons.mp member with rfl | later
      · simp only [endsLine, Bool.or_eq_false_iff, decide_eq_false_iff_not] at noEnd
        rw [if_neg noEnd.2, if_neg noEnd.1]
        exact Nat.succ_pos _
      · have unmarked := @ih false later
        have marked := @ih true later
        split
        · split <;> omega
        · split <;> omega

end Reads

end Columnar.Tabular
