import Columnar.Bytes

namespace Columnar.Tabular

/-!
Records of delimited text.

A record is a list of fields, each a byte string.  Fields end at the delimiter, records at a
carriage return or a line feed; a field that begins with a quote may hold both, and a quote
written twice.  `readRecord` reads one record and keeps the bytes that it consumed, so that
nothing of the text is lost: they and the rest make up the input again.
-/

def carriageReturn : UInt8 := 0x0D

def lineFeed : UInt8 := 0x0A

def quote : UInt8 := 0x22

def endsLine (byte : UInt8) : Bool := byte = carriageReturn || byte = lineFeed

/-- Where a reader stands inside a record. -/
inductive FieldState where
  | fieldStart
  | unquoted
  | quoted
  | afterQuote
deriving DecidableEq, Repr

/-- The fields of a record, the bytes consumed for it and those left. -/
structure RecordRead where
  fields : Option (List Bytes)
  consumed : Bytes
  rest : Bytes

/-- The fields found so far and the bytes consumed so far, all in reverse. -/
structure Progress where
  field : Bytes
  fields : List Bytes
  consumed : Bytes

namespace Progress

/-- Consumes a byte without keeping it. -/
def skip (progress : Progress) (byte : UInt8) : Progress :=
  { progress with consumed := byte :: progress.consumed }

/-- Consumes a byte into the field. -/
def keep (progress : Progress) (byte : UInt8) : Progress :=
  { progress with field := byte :: progress.field, consumed := byte :: progress.consumed }

/-- Consumes a byte that closes the field. -/
def close (progress : Progress) (byte : UInt8) : Progress :=
  ⟨[], progress.field.reverse :: progress.fields, byte :: progress.consumed⟩

/-- The record that ends with the current field. -/
def finish (progress : Progress) (rest : Bytes) : RecordRead :=
  ⟨some (progress.field.reverse :: progress.fields).reverse, progress.consumed.reverse, rest⟩

end Progress

/-- Reads the rest of a record that has begun.  The end of the text ends the record. -/
def readFields (delimiter : UInt8) : FieldState → Progress → Bytes → RecordRead
  | _, progress, [] => progress.finish []
  | .quoted, progress, byte :: rest =>
      if byte = quote then readFields delimiter .afterQuote (progress.skip byte) rest
      else readFields delimiter .quoted (progress.keep byte) rest
  | state, progress, byte :: rest =>
      if state = .fieldStart ∧ byte = quote then
        readFields delimiter .quoted (progress.skip byte) rest
      else if state = .afterQuote ∧ byte = quote then
        readFields delimiter .quoted (progress.keep byte) rest
      else if byte = delimiter then readFields delimiter .fieldStart (progress.close byte) rest
      else if endsLine byte then (progress.skip byte).finish rest
      else readFields delimiter .unquoted (progress.keep byte) rest

/-- Reads a record after `skipped` bytes that end lines and hold none; there may be no record
left. -/
def readFrom (delimiter : UInt8) (skipped : Bytes) : Bytes → RecordRead
  | [] => ⟨none, skipped.reverse, []⟩
  | byte :: rest =>
      if endsLine byte then readFrom delimiter (byte :: skipped) rest
      else readFields delimiter .fieldStart ⟨[], [], skipped⟩ (byte :: rest)

theorem readFields_rest_length (delimiter : UInt8) (state : FieldState) (progress : Progress)
    (text : Bytes) :
    (readFields delimiter state progress text).rest.length ≤ text.length - 1 := by
  induction text generalizing state progress with
  | nil => cases state <;> simp [readFields, Progress.finish]
  | cons byte rest ih =>
      have shorter (state : FieldState) (progress : Progress) :
          (readFields delimiter state progress rest).rest.length ≤ rest.length :=
        Nat.le_trans (ih state progress) (Nat.sub_le _ _)
      cases state <;> simp only [readFields, List.length_cons, Nat.add_sub_cancel] <;>
        repeat' split
      all_goals first
        | exact shorter _ _
        | simp [Progress.finish]

theorem readFrom_rest_shorter {delimiter : UInt8} {skipped text : Bytes} {fields : List Bytes}
    (found : (readFrom delimiter skipped text).fields = some fields) :
    (readFrom delimiter skipped text).rest.length < text.length := by
  induction text generalizing skipped with
  | nil => simp [readFrom] at found
  | cons byte rest ih =>
      unfold readFrom at found ⊢
      split at found <;> rename_i line
      · rw [if_pos line]
        exact Nat.lt_succ_of_lt (ih found)
      · rw [if_neg line]
        have bound := readFields_rest_length delimiter .fieldStart ⟨[], [], skipped⟩ (byte :: rest)
        simp only [List.length_cons] at bound ⊢
        omega

/-- The byte order mark that may stand at the very start of a text. -/
def byteOrderMark : Bytes := [0xEF, 0xBB, 0xBF]

/-- Reads the next record; at the start of the text a byte order mark is consumed with it. -/
def readRecord (delimiter : UInt8) (atStart : Bool) (text : Bytes) : RecordRead :=
  if atStart ∧ byteOrderMark.isPrefixOf text then
    readFrom delimiter byteOrderMark.reverse (text.drop 3)
  else readFrom delimiter [] text

theorem readRecord_rest_shorter {delimiter : UInt8} {atStart : Bool} {text : Bytes}
    {fields : List Bytes} (found : (readRecord delimiter atStart text).fields = some fields) :
    (readRecord delimiter atStart text).rest.length < text.length := by
  unfold readRecord at found ⊢
  split at found <;> rename_i marked
  · rw [if_pos marked]
    have bound := readFrom_rest_shorter found
    rw [List.length_drop] at bound
    omega
  · rw [if_neg marked]
    exact readFrom_rest_shorter found

/-- All reads of a text up to the one that finds no record. -/
def readRecords (delimiter : UInt8) (atStart : Bool) (text : Bytes) : List RecordRead :=
  let read := readRecord delimiter atStart text
  match _found : read.fields with
  | none => [read]
  | some _ => read :: readRecords delimiter false read.rest
termination_by text.length
decreasing_by exact readRecord_rest_shorter _found

/-- The number of empty lines at the start of a stretch of text.  A line feed behind a carriage
return belongs to it and ends no line of its own; `afterReturn` says whether one stands in
front. -/
def countBlankLines (afterReturn : Bool) : Bytes → Nat
  | [] => 0
  | byte :: rest =>
      if byte = lineFeed then
        if afterReturn then countBlankLines false rest else countBlankLines false rest + 1
      else if byte = carriageReturn then countBlankLines true rest + 1
      else 0

end Columnar.Tabular
