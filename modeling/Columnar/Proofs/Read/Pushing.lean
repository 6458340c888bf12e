import Columnar.Read.Column

namespace Columnar

/-!
Pushing the rows of chunks into a sink.

What a chunk holds does not depend on the sink: `PartChunk.cells` reads its rows by themselves.
Pushing a chunk succeeds when all rows can be read and the sink takes each of them; otherwise the
chunk is at fault, or the sink is, in a state that the rows before have brought it to.
-/

namespace Sink

variable {σ : Type} (sink : Sink σ)

def pushAll : List Cell → σ → Except Error σ
  | [], state => .ok state
  | cell :: rest, state =>
      match sink.push cell state with
      | .error error => .error error
      | .ok next => pushAll rest next

/-- All that a sink does with a column: it starts, takes each row, and ends. -/
def run (type : ColumnType) (cells : List Cell) (state : σ) : Except Error (Nat × σ) := do
  let started ← sink.start type cells.length state
  let filled ← sink.pushAll cells started
  let finished ← sink.finish filled
  return (cells.length, finished)

/-- The sink that lists the rows it is handed. -/
def list : Sink (List Cell) where
  start _ _ taken := .ok taken
  push cell taken := .ok (taken ++ [cell])
  finish taken := .ok taken

theorem pushAll_list (taken cells : List Cell) :
    list.pushAll cells taken = .ok (taken ++ cells) := by
  induction cells generalizing taken with
  | nil => rw [pushAll, List.append_nil]
  | cons cell rest ih =>
      have later := ih (taken ++ [cell])
      rwa [List.append_assoc] at later

theorem run_list (type : ColumnType) (cells : List Cell) :
    list.run type cells [] = .ok (cells.length, cells) := by
  have start : list.start type cells.length [] = .ok [] := rfl
  simp only [run, start, pushAll_list, List.nil_append, bind, Except.bind]
  rfl

/-- The sink refuses some cell after it took others. -/
def Refuses (state : σ) (error : Error) : Prop :=
  ∃ taken cell reached, sink.pushAll taken state = .ok reached ∧
    sink.push cell reached = .error error

variable {sink} {front back : List Cell} {state reached final : σ} {error : Error}

theorem pushAll_append (front back : List Cell) (state : σ) :
    sink.pushAll (front ++ back) state = (sink.pushAll front state).bind (sink.pushAll back) := by
  induction front generalizing state with
  | nil => rfl
  | cons cell rest ih =>
      simp only [List.cons_append, pushAll]
      cases sink.push cell state with
      | error error => rfl
      | ok next => exact ih next

theorem pushAll_append_ok (taken : sink.pushAll front state = .ok reached) :
    sink.pushAll (front ++ back) state = sink.pushAll back reached := by
  rw [pushAll_append, taken, Except.bind]

theorem refuses_of_pushAll {cells : List Cell} (refused : sink.pushAll cells state = .error error) :
    sink.Refuses state error := by
  induction cells generalizing state with
  | nil => contradiction
  | cons cell rest ih =>
      rw [pushAll] at refused
      cases step : sink.push cell state with
      | error cause =>
          rw [step] at refused
          cases refused
          exact ⟨[], cell, state, rfl, step⟩
      | ok next =>
          rw [step] at refused
          obtain ⟨taken, other, reached, before, here⟩ := ih refused
          exact ⟨cell :: taken, other, reached, by rw [pushAll, step]; exact before, here⟩

/-- What is refused later is refused after more cells. -/
theorem Refuses.after (taken : sink.pushAll front state = .ok reached)
    (refused : sink.Refuses reached error) : sink.Refuses state error := by
  obtain ⟨others, cell, last, before, here⟩ := refused
  exact ⟨front ++ others, cell, last, by rw [pushAll_append_ok taken, before], here⟩

end Sink

def RowReader.cells (rows : RowReader) (bitmap : Bitmap) : Nat → Nat → Except Corruption (List Cell)
  | 0, _ => .ok []
  | count + 1, row =>
      match rows.cell bitmap row with
      | .error cause => .error cause
      | .ok cell =>
          match RowReader.cells rows bitmap count (row + 1) with
          | .error cause => .error cause
          | .ok rest => .ok (cell :: rest)

theorem RowReader.length_cells {rows : RowReader} {bitmap : Bitmap} {count row : Nat}
    {cells : List Cell} (read : rows.cells bitmap count row = .ok cells) :
    cells.length = count := by
  induction count generalizing row cells with
  | zero => cases read; rfl
  | succ count ih =>
      rw [RowReader.cells] at read
      split at read
      · contradiction
      split at read
      · contradiction
      · rename_i later
        cases read
        rw [List.length_cons, ih later]

def PartChunk.cells (codec : Codec) (type : ColumnType) (chunk : PartChunk) :
    Except ChunkError (List Cell) := do
  let decoded ← codec.decompress chunk.bytes
  let rows ← RowReader.ofDecoded type chunk.header.tupleCount.toNat decoded
  (rows.cells chunk.header.bitmap chunk.header.tupleCount.toNat 0).mapError .corrupt

theorem PartChunk.length_cells {codec : Codec} {type : ColumnType} {chunk : PartChunk}
    {cells : List Cell} (read : chunk.cells codec type = .ok cells) :
    cells.length = chunk.header.tupleCount.toNat := by
  simp only [PartChunk.cells, bind, Except.bind] at read
  split at read
  · contradiction
  split at read
  · contradiction
  rename_i rows _
  cases found : rows.cells chunk.header.bitmap chunk.header.tupleCount.toNat 0 with
  | error cause => rw [found] at read; contradiction
  | ok others =>
      rw [found] at read
      cases read
      exact RowReader.length_cells found

namespace ColumnReader

variable {σ : Type} {sink : Sink σ} {codec : Codec} {type : ColumnType} {chunk : PartChunk}
  {rows : RowReader} {bitmap : Bitmap} {state : σ}

theorem pushRows_of_cells {count row : Nat} {cells : List Cell}
    (read : rows.cells bitmap count row = .ok cells) :
    pushRows sink rows bitmap count row state = sink.pushAll cells state := by
  induction count generalizing row cells state with
  | zero => cases read; rfl
  | succ count ih =>
      rw [RowReader.cells] at read
      split at read
      · contradiction
      rename_i cell here
      split at read
      · contradiction
      rename_i rest later
      cases read
      simp only [pushRows, here, Sink.pushAll]
      cases sink.push cell state with
      | error error => rfl
      | ok next => exact ih later

/-- Pushing unreadable rows fails, if not earlier through the sink. -/
theorem pushRows_of_corrupt {count row : Nat} {cause : Corruption}
    (unread : rows.cells bitmap count row = .error cause) :
    pushRows sink rows bitmap count row state = .error (.chunk (.corrupt cause)) ∨
      ∃ error, pushRows sink rows bitmap count row state = .error error ∧
        sink.Refuses state error := by
  induction count generalizing row state with
  | zero => contradiction
  | succ count ih =>
      rw [RowReader.cells] at unread
      rw [pushRows]
      cases here : rows.cell bitmap row with
      | error reason =>
          simp only [here, Except.error.injEq] at unread
          simp only [unread, true_or]
      | ok cell =>
          cases later : rows.cells bitmap count (row + 1) with
          | ok rest => simp [here, later] at unread
          | error reason =>
              simp only [here, later, Except.error.injEq] at unread
              rw [unread] at later
              simp only []
              cases step : sink.push cell state with
              | error error => exact .inr ⟨error, rfl, [], cell, state, rfl, step⟩
              | ok next =>
                  have taken : sink.pushAll [cell] state = .ok next := by
                    simp only [Sink.pushAll, step]
                  rcases @ih next _ later with corrupt | ⟨error, failed, refused⟩
                  · exact .inl corrupt
                  · exact .inr ⟨error, failed, refused.after taken⟩

theorem pushChunk_of_cells {cells : List Cell} (read : chunk.cells codec type = .ok cells) :
    pushChunk codec type sink chunk state = sink.pushAll cells state := by
  simp only [PartChunk.cells, bind, Except.bind] at read
  split at read
  · contradiction
  rename_i decoded expanded
  split at read
  · contradiction
  rename_i rows opened
  cases found : rows.cells chunk.header.bitmap chunk.header.tupleCount.toNat 0 with
  | error cause => rw [found] at read; contradiction
  | ok others =>
      rw [found] at read
      cases read
      simp only [pushChunk, expanded, opened]
      exact pushRows_of_cells found

/-- A chunk whose rows cannot be read fails, if not earlier through the sink. -/
theorem pushChunk_of_error (sink : Sink σ) (state : σ) {error : ChunkError}
    (unread : chunk.cells codec type = .error error) :
    pushChunk codec type sink chunk state = .error (.chunk error) ∨
      ∃ cause, pushChunk codec type sink chunk state = .error cause ∧ sink.Refuses state cause := by
  simp only [PartChunk.cells, bind, Except.bind] at unread
  split at unread
  · rename_i failed
    cases unread
    exact .inl (by simp only [pushChunk, failed])
  rename_i decoded expanded
  split at unread
  · rename_i failed
    cases unread
    exact .inl (by simp only [pushChunk, expanded, failed])
  rename_i rows opened
  simp only [pushChunk, expanded, opened]
  cases found : rows.cells chunk.header.bitmap chunk.header.tupleCount.toNat 0 with
  | error cause =>
      rw [found] at unread
      cases unread
      exact pushRows_of_corrupt found
  | ok others => rw [found] at unread; contradiction

end ColumnReader

end Columnar
