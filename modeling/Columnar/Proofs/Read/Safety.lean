import Columnar.Proofs.Chunk.Inspection
import Columnar.Proofs.Read.Guarded

namespace Columnar

/-!
Reading whatever a store holds.

A column that opens can be materialized without any access going wrong.  The only fault left to
find is a chunk that does not decode, and without one the sink takes every row of every chunk.
-/

theorem RowReader.ofDecoded_error {type : ColumnType} {count : Nat} {decoded : Decoded}
    {error : ChunkError} (data : type ≠ .skip)
    (failed : RowReader.ofDecoded type count decoded = .error error) :
    ∃ cause, error = .corrupt cause := by
  cases type with
  | integer => contradiction
  | double => contradiction
  | skip => contradiction
  | string =>
      rw [RowReader.ofDecoded] at failed
      split at failed
      · contradiction
      · cases failed
        exact ⟨_, rfl⟩

/-- An inspected chunk that cannot be read is corrupt. -/
theorem PartChunk.Inspected.cells_error {type : ColumnType} {chunk : PartChunk} {error : ChunkError}
    (inspected : chunk.Inspected .standard type) (data : type ≠ .skip)
    (unread : chunk.cells .standard type = .error error) : ∃ cause, error = .corrupt cause := by
  obtain ⟨stored, archive, header⟩ := Cascade.inspect_ok inspected.header
  have tag : stored.typeTag = type.tag := by
    rw [← inspected.tag, header]
  simp only [PartChunk.cells, bind, Except.bind] at unread
  split at unread
  · rename_i cause failed
    cases unread
    exact Cascade.decompress_error archive tag data failed
  split at unread
  · rename_i cause failed
    cases unread
    exact RowReader.ofDecoded_error data failed
  rename_i rows _
  cases read : rows.cells chunk.header.bitmap chunk.header.tupleCount.toNat 0 with
  | error cause =>
      rw [read] at unread
      cases unread
      exact ⟨cause, rfl⟩
  | ok cells => rw [read] at unread; contradiction

section Sinks

variable {σ : Type}

/-- A sink raises an error of its own: at the start, at a cell, or at the end. -/
inductive Sink.Raises (sink : Sink σ) (type : ColumnType) (rows : Nat) (state : σ)
    (error : Error) : Prop
  | start (failed : sink.start type rows state = .error error)
  | push {started : σ} (begun : sink.start type rows state = .ok started)
      (refused : sink.Refuses started error)
  | finish {started filled : σ} {cells : List Cell}
      (begun : sink.start type rows state = .ok started)
      (taken : sink.pushAll cells started = .ok filled) (failed : sink.finish filled = .error error)

namespace ColumnReader

/-- A run over chunks at the given places: each of them is found there, its rows are read, as many
as its header says, and the sink takes them. -/
inductive Visits (reader : ColumnReader) (sink : Sink σ) :
    List (Nat × Nat) → List Cell → σ → σ → Prop
  | nil {state : σ} : Visits reader sink [] [] state state
  | cons {part index : Nat} {places : List (Nat × Nat)} {held : PartReader} {chunk : PartChunk}
      {cells others : List Cell} {before middle after : σ}
      (found : reader.parts[part]? = some held) (inside : held.chunks[index]? = some chunk)
      (read : chunk.cells .standard reader.type = .ok cells)
      (count : cells.length = chunk.header.tupleCount.toNat)
      (taken : sink.pushAll cells before = .ok middle)
      (later : Visits reader sink places others middle after) :
      Visits reader sink ((part, index) :: places) (cells ++ others) before after

variable {reader : ColumnReader} {sink : Sink σ}

theorem Visits.pushAll {places : List (Nat × Nat)} {cells : List Cell} {before after : σ}
    (visits : Visits reader sink places cells before after) :
    sink.pushAll cells before = .ok after := by
  induction visits with
  | nil => rfl
  | cons found inside read count taken later ih => rw [Sink.pushAll_append_ok taken, ih]

/-- Without a corrupt chunk the run takes in all chunks; otherwise it ends there, or earlier through
the sink. -/
theorem pushAllChunks_visits (sink : Sink σ) {places : List (Nat × Nat)} {chunks : List PartChunk}
    (data : reader.type ≠ .skip)
    (inspected : ∀ chunk ∈ chunks, chunk.Inspected .standard reader.type)
    (reached : places.map (fun position => reader.chunkAt position.1 position.2) = chunks.map .ok)
    (state : σ) :
    (∀ filled, pushAllChunks .standard reader.type sink chunks state = .ok filled →
        ∃ cells, Visits reader sink places cells state filled ∧
          cells.length = total (chunks.map fun chunk => chunk.header.tupleCount.toNat)) ∧
      ∀ error, pushAllChunks .standard reader.type sink chunks state = .error error →
        (∃ cause, error = .chunk (.corrupt cause)) ∨ sink.Refuses state error := by
  induction chunks generalizing places state with
  | nil =>
      have none : places = [] := by simpa using reached
      subst none
      refine ⟨?_, by simp [pushAllChunks]⟩
      intro filled done
      cases done
      exact ⟨[], .nil, rfl⟩
  | cons chunk rest ih =>
      cases places with
      | nil => contradiction
      | cons position others =>
          obtain ⟨part, index⟩ := position
          rw [List.map_cons, List.map_cons, List.cons.injEq] at reached
          obtain ⟨held, found, inside⟩ := chunkAt_ok reached.1
          have here := inspected chunk (by simp)
          have later := ih (fun other member => inspected other (by simp [member])) reached.2
          rw [pushAllChunks]
          cases read : chunk.cells .standard reader.type with
          | error cause =>
              rcases pushChunk_of_error sink state read with failed | ⟨error, failed, refused⟩
              · obtain ⟨reason, rfl⟩ := here.cells_error data read
                simp [failed]
              · simp only [failed]
                refine ⟨by simp, ?_⟩
                intro other same
                cases same
                exact .inr refused
          | ok cells =>
              rw [pushChunk_of_cells read]
              cases taken : sink.pushAll cells state with
              | error error =>
                  refine ⟨by simp, ?_⟩
                  intro other same
                  cases same
                  exact .inr (Sink.refuses_of_pushAll taken)
              | ok middle =>
                  obtain ⟨success, failure⟩ := later middle
                  refine ⟨?_, ?_⟩
                  · intro filled done
                    obtain ⟨more, visits, length⟩ := success filled done
                    have count := PartChunk.length_cells read
                    refine ⟨cells ++ more, .cons found ?_ read count taken visits, ?_⟩
                    · exact PartReader.chunk_ok inside
                    · rw [List.length_append, List.map_cons, total_cons, count, length]
                  · intro error failed
                    rcases failure error failed with corrupt | refused
                    · exact .inl corrupt
                    · exact .inr (refused.after taken)

theorem Opened.error_of_materialize (opened : Opened .standard reader) {state : σ} {error : Error}
    (failed : reader.materialize .standard sink state = .error error) :
    (∃ cause, error = .chunk (.corrupt cause)) ∨
      sink.Raises reader.type reader.tupleCount state error := by
  simp only [opened.materialize_eq, bind, Except.bind] at failed
  split at failed
  · rename_i cause refused
    cases failed
    exact .inr (.start refused)
  rename_i started begun
  obtain ⟨success, failure⟩ := pushAllChunks_visits sink opened.data
    opened.inspected_chunks (map_chunkAt_positions reader) started
  split at failed
  · rename_i cause stopped
    cases failed
    rcases failure _ stopped with corrupt | refused
    · exact .inl corrupt
    · exact .inr (.push begun refused)
  rename_i filled pushed
  split at failed
  · rename_i cause refused
    cases failed
    obtain ⟨cells, visits, -⟩ := success filled pushed
    exact .inr (.finish begun visits.pushAll refused)
  · contradiction

theorem Opened.visits_of_materialize (opened : Opened .standard reader) {state final : σ}
    {rows : Nat} (done : reader.materialize .standard sink state = .ok (rows, final)) :
    rows = reader.tupleCount ∧
      ∃ cells started filled, sink.start reader.type reader.tupleCount state = .ok started ∧
        Visits reader sink reader.positions cells started filled ∧
        sink.finish filled = .ok final ∧ cells.length = reader.tupleCount := by
  simp only [opened.materialize_eq, bind, Except.bind] at done
  split at done
  · contradiction
  rename_i started begun
  split at done
  · contradiction
  rename_i filled pushed
  split at done
  · contradiction
  rename_i finished ended
  cases done
  obtain ⟨success, -⟩ := pushAllChunks_visits sink opened.data
    opened.inspected_chunks (map_chunkAt_positions reader) started
  obtain ⟨cells, visits, length⟩ := success filled pushed
  rw [← tupleCount_eq] at length
  exact ⟨rfl, cells, started, filled, begun, visits, ended, length⟩

/-- Whatever the stores hold, a column that opens is materialized without an access going wrong.
It fails through a corrupt chunk or through the sink; otherwise it visits every chunk of every part
once, in order, and the sink takes as many rows as the headers announce. -/
theorem materialize_safe {stores : Stores} {path : String} {column : Nat}
    (opening : ofPath .standard stores path column = .ok reader) (sink : Sink σ) (state : σ) :
    Guarded.materialize? sink reader state = some (reader.materialize .standard sink state) ∧
      (∀ error, reader.materialize .standard sink state = .error error →
        (∃ cause, error = .chunk (.corrupt cause)) ∨
          sink.Raises reader.type reader.tupleCount state error) ∧
      ∀ rows final, reader.materialize .standard sink state = .ok (rows, final) →
        ∃ places cells started filled,
          sink.start reader.type reader.tupleCount state = .ok started ∧
            Visits reader sink places cells started filled ∧ sink.finish filled = .ok final ∧
            places.Pairwise ChunkCursor.Before ∧
            (∀ place, place ∈ places ↔
              ∃ part, reader.parts[place.1]? = some part ∧ place.2 < part.chunkCount) ∧
            cells.length = rows ∧ rows = reader.tupleCount ∧
            reader.tupleCount =
              total (reader.chunks.map fun chunk => chunk.header.tupleCount.toNat) := by
  have opened := opened_of_ofPath opening
  refine ⟨Guarded.materialize_eq opened sink state, ?_, ?_⟩
  · intro error failed
    exact opened.error_of_materialize failed
  · intro rows final done
    obtain ⟨all, cells, started, filled, begun, visits, ended, length⟩ :=
      opened.visits_of_materialize done
    exact ⟨reader.positions, cells, started, filled, begun, visits, ended,
      ChunkCursor.pairwise_positionsFrom _ _ _, fun _ => mem_positions, length.trans all.symm, all,
      tupleCount_eq reader⟩

end ColumnReader

end Sinks

namespace ColumnReader

/-- A chunk of one integer, which is null. -/
def nullChunk : Bytes := StoredChunk.encode ⟨0, 1, .allZeros, 0, false, [0, 0, 0, 0]⟩

/-- Stores with a directory of one column, whose one part holds that chunk. -/
def nullStores : Stores :=
  ⟨"", ⟨[(⟨["t", "metadata"]⟩, Catalog.encode ⟨1, [⟨0, 1⟩]⟩),
    (⟨["t", "column0_part0"]⟩, StoredPart.encode ⟨1, 0, [nullChunk]⟩)]⟩, .empty⟩

theorem materialize_safe_nullStores :
    ∃ reader, ofPath .standard nullStores "memory://t" 0 = .ok reader ∧
      Guarded.materialize? Sink.text reader "" = some (.ok (1, "null\n")) := by
  have directory : Place.ofPath "" "memory://t" = .ok ⟨.memory, ⟨["t"]⟩⟩ := rfl
  have resolved : nullStores.resolve "memory://t" = .ok ⟨.memory, ⟨["t"]⟩⟩ := directory
  have catalog : loadCatalog nullStores ⟨.memory, ⟨["t"]⟩⟩ = .ok ⟨1, [⟨0, 1⟩]⟩ := rfl
  have opened : ofPath .standard nullStores "memory://t" 0 =
      .ok ⟨0, .integer, 1, #[⟨0, "t/column0_part0", .integer,
        #[⟨⟨0, 1, .allZeros⟩, nullChunk⟩]⟩]⟩ := by
    simp only [ofPath, resolved, mapError_ok, bind, Except.bind, catalog]
    rfl
  obtain ⟨guarded, -, -⟩ := materialize_safe opened Sink.text ""
  refine ⟨_, opened, ?_⟩
  rw [guarded, (opened_of_ofPath opened).materialize_eq]
  rfl

end ColumnReader

end Columnar
