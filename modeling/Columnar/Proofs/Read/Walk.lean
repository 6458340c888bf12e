import Columnar.Proofs.Errors
import Columnar.Proofs.Read.Opening

namespace Columnar

/-!
Walking over the chunks of an opened column.

`pushChunks` follows a cursor; `pushAllChunks` goes down the list of all chunks.  For an opened
column the two agree, so a materialized column is the concatenation of its chunks.
-/

theorem PartReader.chunk_ok {part : PartReader} {index : Nat} {chunk : PartChunk}
    (found : part.chunk index = .ok chunk) : part.chunks[index]? = some chunk := by
  unfold PartReader.chunk at found
  split at found
  · rename_i here
    cases found
    exact here
  · contradiction

namespace ColumnReader

variable {σ : Type} {codec : Codec} {reader : ColumnReader} {sink : Sink σ}

def chunks (reader : ColumnReader) : List PartChunk :=
  reader.parts.toList.flatMap fun part => part.chunks.toList

/-- Part and place of each chunk in the order in which a cursor comes to them. -/
def positions (reader : ColumnReader) : List (Nat × Nat) :=
  ChunkCursor.ahead reader.partCounts .start

theorem mem_positions {position : Nat × Nat} :
    position ∈ reader.positions ↔
      ∃ part, reader.parts[position.1]? = some part ∧ position.2 < part.chunkCount := by
  rw [positions, ChunkCursor.mem_ahead_start, partCounts]
  simp only [Array.getElem?_map, Option.map_eq_some_iff]
  constructor
  · rintro ⟨count, ⟨part, found, rfl⟩, inside⟩
    exact ⟨part, found, inside⟩
  · rintro ⟨part, found, inside⟩
    exact ⟨part.chunkCount, ⟨part, found, rfl⟩, inside⟩

/-- Hands the rows of chunks to a sink, one chunk after another. -/
def pushAllChunks (codec : Codec) (type : ColumnType) (sink : Sink σ) :
    List PartChunk → σ → Except Error σ
  | [], state => .ok state
  | chunk :: rest, state =>
      match pushChunk codec type sink chunk state with
      | .error error => .error error
      | .ok next => pushAllChunks codec type sink rest next

theorem tupleCount_eq (reader : ColumnReader) :
    reader.tupleCount = total (reader.chunks.map fun chunk => chunk.header.tupleCount.toNat) := by
  have parts : PartReader.totalTuples =
      fun part => total (part.chunks.toList.map fun chunk => chunk.header.tupleCount.toNat) := rfl
  rw [chunks, List.map_flatMap, total_flatMap, ← parts, tupleCount]

theorem chunkAt_ok {part inPart : Nat} {chunk : PartChunk}
    (found : reader.chunkAt part inPart = .ok chunk) :
    ∃ held, reader.parts[part]? = some held ∧ held.chunk inPart = .ok chunk := by
  unfold chunkAt at found
  split at found
  · contradiction
  · rename_i held here
    refine ⟨held, here, ?_⟩
    cases inside : held.chunk inPart with
    | error fault => rw [inside] at found; contradiction
    | ok other =>
        rw [inside] at found
        cases found
        rfl

theorem chunkAt_part {front rest : List PartReader} {part : PartReader} {index : Nat}
    {chunk : PartChunk} (split : reader.parts.toList = front ++ part :: rest)
    (held : part.chunks[index]? = some chunk) : reader.chunkAt front.length index = .ok chunk := by
  have found : reader.parts[front.length]? = some part := by
    rw [← Array.getElem?_toList, split, List.getElem?_append_right (Nat.le_refl _), Nat.sub_self,
      List.getElem?_cons_zero]
  simp only [chunkAt, found, PartReader.chunk, held, mapError_ok]

theorem map_chunkAt_part {front rest : List PartReader} {part : PartReader}
    (split : reader.parts.toList = front ++ part :: rest) :
    (List.range' 0 part.chunkCount).map (fun index => reader.chunkAt front.length index) =
      part.chunks.toList.map .ok := by
  apply List.ext_getElem
  · simp [PartReader.chunkCount]
  · intro index _ inside
    have bound : index < part.chunks.size := by simpa using inside
    have held : part.chunks[index]? = some part.chunks[index] := Array.getElem?_eq_getElem bound
    simp only [List.getElem_map, List.getElem_range', Nat.zero_add, Nat.one_mul,
      chunkAt_part split held, Array.getElem_toList]

theorem map_chunkAt_positionsFrom {front rest : List PartReader}
    (split : reader.parts.toList = front ++ rest) :
    (ChunkCursor.positionsFrom front.length 0 (rest.map PartReader.chunkCount)).map
        (fun position => reader.chunkAt position.1 position.2) =
      (rest.flatMap fun part => part.chunks.toList).map .ok := by
  induction rest generalizing front with
  | nil => rfl
  | cons part rest ih =>
      have later := @ih (front ++ [part]) (by rw [split, List.append_assoc]; rfl)
      rw [List.length_append, List.length_singleton] at later
      simp only [List.map_cons, ChunkCursor.positionsFrom, List.map_append, List.map_map,
        List.flatMap_cons, later, Nat.sub_zero]
      rw [← map_chunkAt_part split]
      rfl

/-- The chunks at the cursor's positions are all chunks, in order. -/
theorem map_chunkAt_positions (reader : ColumnReader) :
    reader.positions.map (fun position => reader.chunkAt position.1 position.2) =
      reader.chunks.map .ok := by
  have whole := @map_chunkAt_positionsFrom reader [] reader.parts.toList rfl
  simpa [positions, ChunkCursor.ahead, ChunkCursor.start, partCounts, chunks] using whole

theorem length_chunks (reader : ColumnReader) :
    reader.chunks.length = total reader.partCounts.toList := by
  have lengths := congrArg List.length (map_chunkAt_positions reader)
  rw [List.length_map, List.length_map] at lengths
  rw [← lengths, positions, ChunkCursor.length_ahead_start]

/-- Following a cursor over all that is ahead of it goes down the list of those chunks. -/
theorem pushChunks_ahead {cursor : ChunkCursor} {chunks : List PartChunk}
    (reached : (cursor.ahead reader.partCounts).map
      (fun position => reader.chunkAt position.1 position.2) = chunks.map .ok)
    (index rows : Nat) (state : σ) :
    pushChunks codec reader sink chunks.length index cursor rows state =
      (pushAllChunks codec reader.type sink chunks state).map fun final =>
        (rows + total (chunks.map fun chunk => chunk.header.tupleCount.toNat), final) := by
  induction chunks generalizing cursor index rows state with
  | nil => rfl
  | cons chunk rest ih =>
      cases ahead : cursor.ahead reader.partCounts with
      | nil => rw [ahead] at reached; contradiction
      | cons position later =>
          obtain ⟨next, step, behind⟩ := ChunkCursor.advance_of_ahead ahead
          rw [ahead, List.map_cons, List.map_cons, List.cons.injEq] at reached
          obtain ⟨here, others⟩ := reached
          simp only [List.length_cons, pushChunks, pushAllChunks, step, here]
          cases pushed : pushChunk codec reader.type sink chunk state with
          | error error => rfl
          | ok middle =>
              have tail := @ih next (by rw [behind]; exact others)
                (index + 1) (rows + chunk.header.tupleCount.toNat) middle
              simp only [tail, List.map_cons, total_cons, Nat.add_assoc]

theorem Opened.inspected_chunks (opened : Opened codec reader) :
    ∀ chunk ∈ reader.chunks, chunk.Inspected codec reader.type := by
  intro chunk member
  obtain ⟨part, held, inside⟩ := List.mem_flatMap.mp member
  exact opened.inspected part (Array.mem_toList_iff.mp held) chunk (Array.mem_toList_iff.mp inside)

/-- Materializing an opened column hands over all chunks in order, and counts all rows. -/
theorem Opened.materialize_eq (opened : Opened codec reader) (sink : Sink σ) (state : σ) :
    materialize codec reader sink state = (do
      let started ← sink.start reader.type reader.tupleCount state
      let filled ← pushAllChunks codec reader.type sink reader.chunks started
      let finished ← sink.finish filled
      return (reader.tupleCount, finished)) := by
  have count : reader.chunkCount = reader.chunks.length := by
    rw [opened.counted, length_chunks]
  rw [materialize, count, tupleCount_eq]
  simp only [bind, Except.bind]
  cases sink.start reader.type _ state with
  | error error => rfl
  | ok started =>
      simp only [pushChunks_ahead (map_chunkAt_positions reader), Nat.zero_add]
      cases pushAllChunks codec reader.type sink reader.chunks started <;> rfl

end ColumnReader

end Columnar
