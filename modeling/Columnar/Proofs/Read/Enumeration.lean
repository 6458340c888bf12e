import Columnar.Proofs.Read.Cursor
import Columnar.Proofs.Read.Guarded

namespace Columnar.ChunkCursor

/-!
A cursor as an enumeration of chunks.

The chunks ahead of a cursor lose their first with each advance, so what the cursor gives after so
many advances is a place in their list.  From the start the place of a chunk is its `rank`; from
anywhere the first of the list is the next chunk that a part holds.
-/

/-- The cursor after so many advances. -/
def after (counts : Array Nat) : Nat → ChunkCursor → ChunkCursor
  | 0, cursor => cursor
  | steps + 1, cursor => after counts steps (advance counts cursor).2

/-- Some part holds a chunk at a position. -/
def Held (counts : Array Nat) (position : Nat × Nat) : Prop :=
  ∃ count, counts[position.1]? = some count ∧ position.2 < count

/-- How many chunks stand in front of a position. -/
def rank (counts : Array Nat) (position : Nat × Nat) : Nat :=
  total (counts.toList.take position.1) + position.2

/-- The first chunk that is not before a cursor. -/
structure Next (counts : Array Nat) (cursor : ChunkCursor) (position : Nat × Nat) : Prop where
  held : Held counts position
  reached : ¬ Before position (cursor.part, cursor.chunk)
  least : ∀ other, Held counts other → ¬ Before other (cursor.part, cursor.chunk) →
    ¬ Before other position

section Runs

variable {counts : Array Nat} {cursor : ChunkCursor} {position : Nat × Nat}

theorem ahead_after (counts : Array Nat) (steps : Nat) (cursor : ChunkCursor) :
    ahead counts (after counts steps cursor) = (ahead counts cursor).drop steps := by
  induction steps generalizing cursor with
  | zero => rfl
  | succ steps ih => rw [after, ih, (advance_ahead counts cursor).2, List.drop_tail]

/-- What a cursor gives after so many advances is in that place among the chunks ahead. -/
theorem advance_after (counts : Array Nat) (steps : Nat) (cursor : ChunkCursor) :
    (advance counts (after counts steps cursor)).1 = (ahead counts cursor)[steps]? := by
  rw [(advance_ahead counts _).1, ahead_after, List.head?_drop]

theorem mem_ahead :
    position ∈ ahead counts cursor ↔
      Held counts position ∧ ¬ Before position (cursor.part, cursor.chunk) := by
  simp only [ahead, mem_positionsFrom, Held, Before, List.getElem?_drop, Array.getElem?_toList]
  constructor
  · intro member
    obtain ⟨part, chunk, count, found, inside⟩ := member
    rw [Nat.add_sub_cancel' part] at found
    exact ⟨⟨count, found, inside⟩, by omega⟩
  · intro member
    obtain ⟨⟨count, found, inside⟩, reached⟩ := member
    have part : cursor.part ≤ position.1 := by omega
    exact ⟨part, by omega, count, by rwa [Nat.add_sub_cancel' part], inside⟩

/-- The place of a chunk in the list is the number of chunks in front of it. -/
theorem place_positionsFrom {part index : Nat} {counts : List Nat}
    (found : (positionsFrom part 0 counts)[index]? = some position) :
    total (counts.take (position.1 - part)) + position.2 = index := by
  induction counts generalizing part index with
  | nil => simp [positionsFrom] at found
  | cons count rest ih =>
      rw [positionsFrom, Nat.sub_zero, List.getElem?_append] at found
      split at found
      · rename_i inside
        rw [List.length_map, List.length_range'] at inside
        simp only [List.getElem?_map, List.getElem?_range' inside, Option.map_some,
          Option.some.injEq] at found
        subst found
        simp
      · rename_i outside
        rw [List.length_map, List.length_range'] at outside found
        have behind := (mem_positionsFrom.mp (List.mem_of_getElem? found)).1
        have later := ih found
        have step : position.1 - part = position.1 - (part + 1) + 1 := by omega
        rw [step, List.take_succ_cons, total_cons]
        omega

theorem rank_of_ahead {index : Nat} (found : (ahead counts .start)[index]? = some position) :
    rank counts position = index := by
  simpa [rank] using
    place_positionsFrom (show (positionsFrom 0 0 counts.toList)[index]? = _ from found)

/-- A chunk stands in the list at its rank. -/
theorem ahead_rank (held : Held counts position) :
    (ahead counts .start)[rank counts position]? = some position := by
  have member : position ∈ ahead counts .start := mem_ahead_start.mpr held
  obtain ⟨index, found⟩ := List.mem_iff_getElem?.mp member
  rw [rank_of_ahead found]
  exact found

theorem positionsFrom_shifted (front part chunk : Nat) (counts : List Nat) :
    positionsFrom (front + part) chunk counts =
      (positionsFrom part chunk counts).map fun position => (front + position.1, position.2) := by
  induction counts generalizing part chunk with
  | nil => rfl
  | cons count rest ih =>
      simp only [positionsFrom, List.map_append, List.map_map, Nat.add_assoc, ih]
      rfl

/-- Behind the last part, the chunks of parts that are appended are all that is ahead. -/
theorem ahead_appended (counts more : Array Nat) :
    ahead (counts ++ more) ⟨counts.size, 0⟩ =
      (ahead more .start).map fun position => (counts.size + position.1, position.2) := by
  have behind : (counts.toList ++ more.toList).drop counts.size = more.toList := by
    rw [← Array.length_toList, List.drop_left]
  rw [ahead, ahead, Array.toList_append, behind]
  exact positionsFrom_shifted counts.size 0 0 more.toList

/-- A cursor in front of a part, or just behind the last one. -/
def Within (counts : Array Nat) (cursor : ChunkCursor) : Prop :=
  cursor.part < counts.size ∨ cursor = ⟨counts.size, 0⟩

theorem within_start (counts : Array Nat) : Within counts .start := by
  by_cases some : 0 < counts.size
  · exact .inl some
  · have none : counts.size = 0 := by omega
    exact .inr (by rw [none]; rfl)

/-- A cursor within the parts stays there, and stands behind the last one when it gives nothing. -/
theorem Within.advance (within : Within counts cursor) :
    Within counts (advance counts cursor).2 ∧
      ((advance counts cursor).1 = none → (advance counts cursor).2 = ⟨counts.size, 0⟩) := by
  fun_induction ChunkCursor.advance counts cursor with
  | case1 cursor missing =>
      have outside := Array.getElem?_eq_none_iff.mp missing
      obtain rfl : cursor = ⟨counts.size, 0⟩ := within.resolve_left (by omega)
      exact ⟨within, fun _ => rfl⟩
  | case2 cursor count found inside =>
      exact ⟨.inl (Array.getElem?_eq_some_iff.mp found).1,
        fun given => absurd given (Option.some_ne_none _)⟩
  | case3 cursor count found outside ih =>
      have inside := (Array.getElem?_eq_some_iff.mp found).1
      apply ih
      by_cases last : cursor.part + 1 = counts.size
      · exact .inr (by rw [last])
      · exact .inl (by dsimp only; omega)

theorem Within.after (within : Within counts cursor) (steps : Nat) :
    Within counts (after counts steps cursor) := by
  induction steps generalizing cursor with
  | zero => exact within
  | succ steps ih => exact ih within.advance.1

theorem advance_eq_some_iff :
    (advance counts cursor).1 = some position ↔ Next counts cursor position := by
  have ordered : (ahead counts cursor).Pairwise Before := pairwise_positionsFrom _ _ _
  rw [(advance_ahead counts cursor).1]
  constructor
  · intro first
    obtain ⟨later, list⟩ := List.head?_eq_some_iff.mp first
    obtain ⟨held, reached⟩ := mem_ahead.mp (List.mem_of_mem_head? first)
    refine ⟨held, reached, fun other there behind before => ?_⟩
    have member := mem_ahead.mpr ⟨there, behind⟩
    rw [list] at member ordered
    rcases List.mem_cons.mp member with rfl | after
    · unfold Before at before
      omega
    · have order := List.rel_of_pairwise_cons ordered after
      unfold Before at before order
      omega
  · intro next
    have member := mem_ahead.mpr ⟨next.held, next.reached⟩
    cases list : ahead counts cursor with
    | nil => simp [list] at member
    | cons first later =>
        rw [list] at member ordered
        rcases List.mem_cons.mp member with rfl | after
        · rfl
        · obtain ⟨there, behind⟩ := mem_ahead.mp (by rw [list]; exact List.mem_cons_self)
          exact absurd (List.rel_of_pairwise_cons ordered after) (next.least first there behind)

theorem advance_eq_none_iff :
    (advance counts cursor).1 = none ↔
      ∀ position, Held counts position → Before position (cursor.part, cursor.chunk) := by
  rw [(advance_ahead counts cursor).1, List.head?_eq_none_iff, List.eq_nil_iff_forall_not_mem]
  refine forall_congr' fun position => ?_
  rw [mem_ahead, not_and, Classical.not_not]

end Runs

theorem pushChunks_past_end {σ : Type} {codec : Codec} {reader : ColumnReader} {sink : Sink σ}
    {cursor : ChunkCursor} (nothing : (advance reader.partCounts cursor).1 = none)
    (count index rows : Nat) (state : σ) :
    ColumnReader.pushChunks codec reader sink (count + 1) index cursor rows state =
      .error (.cursorPastEnd reader.column index reader.partCounts.size) := by
  have size : reader.partCounts.size = reader.parts.size := Array.size_map
  cases step : advance reader.partCounts cursor with
  | mk given later =>
      rw [step] at nothing
      subst nothing
      rw [ColumnReader.pushChunks, step, size]

/-- What a cursor gives over parts of the given numbers of chunks. -/
structure Enumerates (counts : Array Nat) : Prop where
  /-- From the start, each advance gives the one chunk that has as many in front of it. -/
  each : ∀ steps < total counts.toList, ∃ position,
    (advance counts (after counts steps .start)).1 = some position ∧
    ∀ other, Held counts other ∧ rank counts other = steps ↔ other = position
  /-- Once all chunks are given, every advance leaves the cursor behind the last part. -/
  exhausted : ∀ steps, total counts.toList ≤ steps →
    advance counts (after counts steps .start) = (none, ⟨counts.size, 0⟩)
  /-- From there, it gives over appended parts what it gives over these alone from the start. -/
  appended : ∀ more steps,
    (advance (counts ++ more) (after (counts ++ more) steps ⟨counts.size, 0⟩)).1 =
      (advance more (after more steps .start)).1.map
        fun position => (counts.size + position.1, position.2)
  next : ∀ cursor position, (advance counts cursor).1 = some position ↔ Next counts cursor position
  nothing : ∀ cursor, (advance counts cursor).1 = none ↔
    ∀ position, Held counts position → Before position (cursor.part, cursor.chunk)
  /-- Parts are counted in 64-bit words and chunks in 32-bit words, and none overflows. -/
  guarded : ∀ cursor, ColumnReader.Guarded.advance? counts cursor = some (advance counts cursor)
  /-- A walk that is given nothing fails for the chunk that it wanted. -/
  reported : ∀ {σ : Type} (codec : Codec) (reader : ColumnReader) (sink : Sink σ)
    (cursor : ChunkCursor) (count index rows : Nat) (state : σ), reader.partCounts = counts →
    (advance counts cursor).1 = none →
    ColumnReader.pushChunks codec reader sink (count + 1) index cursor rows state =
      .error (.cursorPastEnd reader.column index counts.size)

/-- From the start a cursor gives every chunk once, in order, whatever parts are empty, and then
nothing until parts are appended.  From any place it gives the first chunk that is not before it. -/
theorem cursor_enumerates {counts : Array Nat}
    (few : counts.size < Payload.Guarded.addressable)
    (words : ∀ count ∈ counts, count ≤ maxWord) : Enumerates counts where
  each steps inside := by
    rw [advance_after]
    rw [← length_ahead_start] at inside
    have given := List.getElem?_eq_getElem inside
    refine ⟨_, given, fun other => ⟨fun there => ?_, fun same => ?_⟩⟩
    · obtain ⟨held, place⟩ := there
      have found := ahead_rank held
      rw [place, given] at found
      exact (Option.some.inj found).symm
    · subst same
      exact ⟨mem_ahead_start.mp (List.getElem_mem inside), rank_of_ahead given⟩
  exhausted steps beyond := by
    have none : (advance counts (after counts steps .start)).1 = none := by
      rw [advance_after, List.getElem?_eq_none (by rwa [length_ahead_start])]
    exact Prod.ext none (((within_start counts).after steps).advance.2 none)
  appended more steps := by
    rw [advance_after, ahead_appended, List.getElem?_map, advance_after]
  next cursor position := advance_eq_some_iff
  nothing cursor := advance_eq_none_iff
  guarded := ColumnReader.Guarded.advance?_eq few words
  reported codec reader sink cursor count index rows state same nothing := by
    subst same
    exact pushChunks_past_end nothing count index rows state

theorem cursor_enumerates_emptyParts :
    (advance #[0, 2, 0, 0, 1, 0] (after #[0, 2, 0, 0, 1, 0] 2 .start)).1 = some (4, 0) ∧
      advance #[0, 2, 0, 0, 1, 0] (after #[0, 2, 0, 0, 1, 0] 7 .start) = (none, ⟨6, 0⟩) ∧
      (advance #[0, 2, 0, 0, 1, 0, 0, 3] (after #[0, 2, 0, 0, 1, 0, 0, 3] 1 ⟨6, 0⟩)).1 =
        some (7, 1) := by
  have parts : Enumerates #[0, 2, 0, 0, 1, 0] := cursor_enumerates (by decide) (by decide)
  have more : Enumerates #[0, 3] := cursor_enumerates (by decide) (by decide)
  obtain ⟨third, given, only⟩ := parts.each 2 (by decide)
  obtain ⟨second, next, same⟩ := more.each 1 (by decide)
  obtain rfl := (only (4, 0)).mp ⟨⟨1, rfl, by decide⟩, rfl⟩
  obtain rfl := (same (1, 1)).mp ⟨⟨3, rfl, by decide⟩, rfl⟩
  refine ⟨given, parts.exhausted 7 (by decide), ?_⟩
  have appended := parts.appended #[0, 3] 1
  rwa [next] at appended

end Columnar.ChunkCursor
