import Columnar.Proofs.Tabular.Records
import Columnar.Tabular.Ingest

namespace Columnar.Tabular

/-!
Text as a sequence of lines.

`lines` reads a text in one pass: where a line terminator stands at the start of a line the line is
empty, and everywhere else a record is taken together with its terminator.  Reading records and
counting the empty lines in front of each gives the same lines, in the same order.
-/

inductive Line where
  | empty
  | record (fields : List Bytes)
deriving DecidableEq

def dropLineFeed : Bytes → Bytes
  | [] => []
  | byte :: rest => if byte = lineFeed then rest else byte :: rest

/-- What is behind the line terminator at the start of a text: a carriage return, a line feed, or
both in this order. -/
def behindTerminator? : Bytes → Option Bytes
  | [] => none
  | byte :: rest =>
      if byte = carriageReturn then some (dropLineFeed rest)
      else if byte = lineFeed then some rest
      else none

/-- The record at the start of a text, and what is behind its terminator. -/
def takeRecord (delimiter : UInt8) (text : Bytes) : List Bytes × Bytes :=
  let read := readFields delimiter .fieldStart ⟨[], [], []⟩ text
  (read.fields.getD [],
    if read.consumed.getLast? = some carriageReturn then dropLineFeed read.rest else read.rest)

theorem length_dropLineFeed (text : Bytes) : (dropLineFeed text).length ≤ text.length := by
  cases text with
  | nil => exact Nat.le_refl 0
  | cons byte rest =>
      rw [dropLineFeed]
      split
      · exact Nat.le_succ _
      · exact Nat.le_refl _

theorem behindTerminator?_shorter {text rest : Bytes} (found : behindTerminator? text = some rest) :
    rest.length < text.length := by
  cases text with
  | nil => contradiction
  | cons byte others =>
      rw [behindTerminator?] at found
      split at found
      · cases found
        exact Nat.lt_succ_of_le (length_dropLineFeed others)
      split at found
      · cases found
        exact Nat.lt_succ_self _
      · contradiction

theorem takeRecord_shorter (delimiter byte : UInt8) (rest : Bytes) :
    (takeRecord delimiter (byte :: rest)).2.length < (byte :: rest).length := by
  have bound := readFields_rest_length delimiter .fieldStart ⟨[], [], []⟩ (byte :: rest)
  have dropped := length_dropLineFeed
    (readFields delimiter .fieldStart ⟨[], [], []⟩ (byte :: rest)).rest
  simp only [List.length_cons, takeRecord] at bound ⊢
  split <;> omega

def lines (delimiter : UInt8) : Bytes → List Line
  | [] => []
  | byte :: text =>
      match _ended : behindTerminator? (byte :: text) with
      | some rest => .empty :: lines delimiter rest
      | none =>
          .record (takeRecord delimiter (byte :: text)).1 ::
            lines delimiter (takeRecord delimiter (byte :: text)).2
termination_by text => text.length
decreasing_by
  · exact behindTerminator?_shorter _ended
  · exact takeRecord_shorter delimiter byte text

/-- The lines of a text behind its header, if it has one: the header is the first line that is not
empty. -/
def linesIn (format : TextFormat) (text : Bytes) : List Line :=
  let all := lines format.delimiter text
  if format.header then (all.dropWhile (· = .empty)).drop 1 else all

/-- The row of a line, if its fields are texts. -/
def Line.texts? : Line → Option (List String)
  | .empty => some blankRow
  | .record fields => fields.mapM fun bytes => (Text.decode bytes).toOption

section Reading

variable {delimiter byte : UInt8} {rest : Bytes}

theorem lines_terminated {text behind : Bytes} (ended : behindTerminator? text = some behind) :
    lines delimiter text = .empty :: lines delimiter behind := by
  cases text with
  | nil => contradiction
  | cons byte rest =>
      rw [lines]
      split
      · rename_i found
        rw [ended] at found
        cases found
        rfl
      · rename_i found
        rw [ended] at found
        contradiction

theorem lines_record (holds : behindTerminator? (byte :: rest) = none) :
    lines delimiter (byte :: rest) = .record (takeRecord delimiter (byte :: rest)).1 ::
      lines delimiter (takeRecord delimiter (byte :: rest)).2 := by
  rw [lines]
  split
  · rename_i found
    rw [holds] at found
    contradiction
  · rfl

theorem behindTerminator?_eq_none (noEnd : endsLine byte = false) :
    behindTerminator? (byte :: rest) = none := by
  simp only [endsLine, Bool.or_eq_false_iff, decide_eq_false_iff_not] at noEnd
  rw [behindTerminator?, if_neg noEnd.1, if_neg noEnd.2]

/-- Where a text goes on after what has been read: behind a line feed that completes a carriage
return. -/
def resume (afterReturn : Bool) (text : Bytes) : Bytes :=
  if afterReturn then dropLineFeed text else text

theorem resume_cons (afterReturn : Bool) (differs : byte ≠ lineFeed) (rest : Bytes) :
    resume afterReturn (byte :: rest) = byte :: rest := by
  cases afterReturn with
  | false => rfl
  | true => simp only [resume, if_true, dropLineFeed, if_neg differs]

def endsReturn (read : RecordRead) : Bool := read.consumed.getLast? = some carriageReturn

theorem readFrom_record (noEnd : endsLine byte = false) (rest : Bytes) :
    readFrom delimiter [] (byte :: rest) =
      readFields delimiter .fieldStart ⟨[], [], []⟩ (byte :: rest) := by
  rw [readFrom, if_neg (by simp [noEnd])]

theorem readFrom_terminator (ends : endsLine byte = true) (rest : Bytes) :
    readFrom delimiter [] (byte :: rest) =
      { readFrom delimiter [] rest with consumed := byte :: (readFrom delimiter [] rest).consumed } := by
  rw [readFrom, if_pos ends, readFrom_earlier]
  rfl

theorem takeRecord_eq {fields : List Bytes} (noEnd : endsLine byte = false)
    (found : (readFrom delimiter [] (byte :: rest)).fields = some fields) :
    takeRecord delimiter (byte :: rest) = (fields,
      resume (endsReturn (readFrom delimiter [] (byte :: rest)))
        (readFrom delimiter [] (byte :: rest)).rest) := by
  rw [readFrom_record noEnd] at found ⊢
  simp only [takeRecord, found, Option.getD_some, endsReturn, resume, decide_eq_true_eq]

theorem endsReturn_cons {fields : List Bytes}
    (found : (readFrom delimiter [] rest).fields = some fields) :
    endsReturn { readFrom delimiter [] rest with
        consumed := byte :: (readFrom delimiter [] rest).consumed } =
      endsReturn (readFrom delimiter [] rest) := by
  have some := consumed_readFrom_ne_nil found
  simp only [endsReturn, List.getLast?_cons]
  cases last : (readFrom delimiter [] rest).consumed.getLast? with
  | none => exact absurd (List.getLast?_eq_none_iff.mp last) some
  | some byte => rfl

/-- A read finds the empty lines that it counts, then its record if there is one. -/
theorem lines_resume (delimiter : UInt8) (afterReturn : Bool) (text : Bytes) :
    lines delimiter (resume afterReturn text) =
      List.replicate (countBlankLines afterReturn (readFrom delimiter [] text).consumed) .empty ++
        match (readFrom delimiter [] text).fields with
        | none => []
        | some fields => .record fields :: lines delimiter
            (resume (endsReturn (readFrom delimiter [] text)) (readFrom delimiter [] text).rest) := by
  induction text generalizing afterReturn with
  | nil => cases afterReturn <;> simp [resume, dropLineFeed, lines, readFrom, countBlankLines]
  | cons byte rest ih =>
      cases ends : endsLine byte with
      | false =>
          have noFeed : byte ≠ lineFeed := by
            rintro rfl
            contradiction
          have noReturn : byte ≠ carriageReturn := by
            rintro rfl
            contradiction
          have isSome := @isSome_readFields delimiter .fieldStart ⟨[], [], []⟩ (byte :: rest)
          obtain ⟨more, consumed⟩ := @consumed_readFields_cons delimiter .fieldStart [] [] byte rest
          rw [← readFrom_record ends] at isSome consumed
          obtain ⟨fields, found⟩ := Option.isSome_iff_exists.mp isSome
          rw [resume_cons afterReturn noFeed, lines_record (behindTerminator?_eq_none ends),
            takeRecord_eq ends found, found, consumed, countBlankLines, if_neg noFeed,
            if_neg noReturn]
          rfl
      | true =>
          have step := @readFrom_terminator delimiter byte ends rest
          have later (afterReturn : Bool) : lines delimiter (resume afterReturn rest) =
              List.replicate (countBlankLines afterReturn (readFrom delimiter [] rest).consumed)
                .empty ++
              match (readFrom delimiter [] (byte :: rest)).fields with
              | none => []
              | some fields => .record fields :: lines delimiter
                  (resume (endsReturn (readFrom delimiter [] (byte :: rest)))
                    (readFrom delimiter [] (byte :: rest)).rest) := by
            rw [ih afterReturn, step]
            cases found : (readFrom delimiter [] rest).fields with
            | none => rfl
            | some fields => simp only [endsReturn_cons found]
          have consumed : (readFrom delimiter [] (byte :: rest)).consumed =
              byte :: (readFrom delimiter [] rest).consumed := by rw [step]
          rw [consumed]
          by_cases feed : byte = lineFeed
          · cases afterReturn with
            | true =>
                -- The line feed completes the terminator in front of the text.
                have resumed : resume true (byte :: rest) = resume false rest := by
                  simp only [resume, if_true, dropLineFeed, if_pos feed, Bool.false_eq_true,
                    if_false]
                rw [resumed, later false, countBlankLines, if_pos feed, if_pos rfl]
            | false =>
                have behind : behindTerminator? (byte :: rest) = some (resume false rest) := by
                  rw [behindTerminator?, if_neg (by rw [feed]; decide), if_pos feed]
                  rfl
                rw [resume, if_neg Bool.false_ne_true, lines_terminated behind, later false,
                  countBlankLines, if_pos feed, if_neg Bool.false_ne_true, List.replicate_succ]
                rfl
          · have isReturn : byte = carriageReturn := by
              simp only [endsLine, Bool.or_eq_true, decide_eq_true_eq] at ends
              exact ends.resolve_right feed
            have behind : behindTerminator? (byte :: rest) = some (resume true rest) := by
              rw [behindTerminator?, if_pos isReturn]
              rfl
            rw [resume_cons afterReturn feed, lines_terminated behind, later true, countBlankLines,
              if_neg feed, if_pos isReturn, List.replicate_succ]
            rfl

end Reading

end Columnar.Tabular
