import Columnar.Proofs.Decimal.Numerals
import Columnar.Proofs.Read.Arrays
import Columnar.Proofs.Text.Splitting

namespace Columnar

/-!
Columns as text.

The text sink writes each row and a line feed.  Numbers and the word for null hold no line feed, so
a row takes several lines only where its value is a text that does.
-/

section Texts

variable {cell : Cell} {cells : List Cell}

/-- Rows as text, with a line feed behind each. -/
def textOf (cells : List Cell) : String := String.join ((cells.map Cell.text).map (· ++ "\n"))

theorem Sink.pushAll_text (cells : List Cell) (written : String) :
    Sink.text.pushAll cells written = .ok (written ++ textOf cells) := by
  induction cells generalizing written with
  | nil => simp [Sink.pushAll, textOf]
  | cons cell rest ih =>
      have step : Sink.text.push cell written = .ok (written ++ cell.text ++ "\n") := rfl
      rw [Sink.pushAll, step]
      dsimp only
      rw [ih, textOf, textOf, List.map_cons, Text.join_line, String.append_assoc,
        String.append_assoc, String.append_assoc]

theorem Sink.run_text (type : ColumnType) (cells : List Cell) :
    Sink.text.run type cells "" = .ok (cells.length, textOf cells) := by
  have start : Sink.text.start type cells.length "" = .ok "" := rfl
  simp only [run, start, pushAll_text, String.empty_append, bind, Except.bind]
  rfl

/-- Only a text can bring a line feed into a row. -/
theorem Cell.feed_mem_text (cell : Cell) :
    '\n' ∈ cell.text.toList ↔ ∃ value, cell = .string value ∧ '\n' ∈ value.toList := by
  have outside : '\n' ∉ Decimal.alphabet := by decide
  cases cell with
  | null =>
      have plain : '\n' ∉ "null".toList := by decide
      exact iff_of_false plain fun ⟨_, same, _⟩ => by contradiction
  | integer value =>
      have plain : '\n' ∉ (Decimal.ofInt32 value).toList := fun feed =>
        outside (Decimal.ofInt32_mem feed)
      exact iff_of_false plain fun ⟨_, same, _⟩ => by contradiction
  | double value =>
      have plain : '\n' ∉ value.text.toList := fun feed => outside (Decimal.double_mem feed)
      exact iff_of_false plain fun ⟨_, same, _⟩ => by contradiction
  | string value => simp [Cell.text]

theorem feedless_iff : (∀ entry ∈ cells.map Cell.text, '\n' ∉ entry.toList) ↔
    ∀ value, Cell.string value ∈ cells → '\n' ∉ value.toList := by
  constructor
  · intro plain value member
    exact plain _ (List.mem_map_of_mem member)
  · intro plain entry member feed
    obtain ⟨cell, inside, rfl⟩ := List.mem_map.mp member
    obtain ⟨value, rfl, held⟩ := cell.feed_mem_text.mp feed
    exact plain value inside held

end Texts

section Reading

variable {codec : Codec} {reader : ColumnReader} {cells : List Cell}

theorem ColumnReader.Reads.materialize_text (reads : reader.Reads codec cells) :
    reader.materialize codec .text "" = .ok (cells.length, textOf cells) := by
  rw [reads.materialize, Sink.run_text]

/-- The rows of a column are written to any place that takes objects. -/
theorem Read.Hands.intoFile {stores : Stores} {path output : String} {index : Nat}
    {type : ColumnType} {target : Place} (hands : Hands stores path index type cells)
    (resolved : stores.resolve output = .ok target)
    (accepted : stores.refusal? target.store target.location = none) :
    Read.intoFile stores path index output =
      .ok (cells.length, stores.put target (Text.encode (textOf cells))) := by
  rw [Read.intoFile, hands, Sink.run_text]
  simp only [writePath, resolved, Stores.write, accepted, mapError_ok, bind, Except.bind]
  rfl

end Reading

end Columnar
