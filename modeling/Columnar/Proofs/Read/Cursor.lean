import Columnar.Read.Cursor
import Columnar.Total

namespace Columnar.ChunkCursor

/-!
The chunks that a cursor has ahead of it.

`ahead` lists them, and `advance` takes the first off the list.  From the start the list holds every
chunk of every part once, in the order of parts and then of chunks.
-/

/-- The chunks from one chunk of a part on, where the list begins with the count of that part. -/
def positionsFrom (part chunk : Nat) : List Nat → List (Nat × Nat)
  | [] => []
  | count :: rest =>
      (List.range' chunk (count - chunk)).map (fun index => (part, index)) ++
        positionsFrom (part + 1) 0 rest

/-- The chunks at or behind a cursor. -/
def ahead (counts : Array Nat) (cursor : ChunkCursor) : List (Nat × Nat) :=
  positionsFrom cursor.part cursor.chunk (counts.toList.drop cursor.part)

section Steps

variable {counts : Array Nat} {part chunk count : Nat}

theorem drop_part (found : counts[part]? = some count) :
    counts.toList.drop part = count :: counts.toList.drop (part + 1) := by
  obtain ⟨inside, rfl⟩ := Array.getElem?_eq_some_iff.mp found
  rw [List.drop_eq_getElem_cons (by simpa using inside), Array.getElem_toList]

theorem ahead_behind (chunk : Nat) (missing : counts[part]? = none) :
    ahead counts ⟨part, chunk⟩ = [] := by
  rw [Array.getElem?_eq_none_iff] at missing
  rw [ahead, List.drop_of_length_le (by simpa using missing), positionsFrom]

theorem ahead_inside (found : counts[part]? = some count) (inside : chunk < count) :
    ahead counts ⟨part, chunk⟩ = (part, chunk) :: ahead counts ⟨part, chunk + 1⟩ := by
  have size : count - chunk = count - (chunk + 1) + 1 := by omega
  simp only [ahead, drop_part found, positionsFrom]
  rw [size, List.range'_succ, List.map_cons, List.cons_append]

theorem ahead_exhausted (found : counts[part]? = some count) (outside : ¬ chunk < count) :
    ahead counts ⟨part, chunk⟩ = ahead counts ⟨part + 1, 0⟩ := by
  have size : count - chunk = 0 := by omega
  simp only [ahead, drop_part found, positionsFrom, size, List.range'_zero, List.map_nil,
    List.nil_append]

end Steps

/-- Advancing takes the first chunk off those ahead. -/
theorem advance_ahead (counts : Array Nat) (cursor : ChunkCursor) :
    (advance counts cursor).1 = (ahead counts cursor).head? ∧
      ahead counts (advance counts cursor).2 = (ahead counts cursor).tail := by
  fun_induction advance counts cursor with
  | case1 cursor missing =>
      have nothing := ahead_behind cursor.chunk missing
      exact ⟨by rw [nothing]; rfl, by rw [nothing]; rfl⟩
  | case2 cursor count found inside =>
      have first := ahead_inside found inside
      exact ⟨by rw [first]; rfl, by rw [first]; rfl⟩
  | case3 cursor count found outside ih =>
      rw [ahead_exhausted found outside]
      exact ih

theorem advance_of_ahead {counts : Array Nat} {cursor : ChunkCursor} {position : Nat × Nat}
    {later : List (Nat × Nat)} (ahead_eq : ahead counts cursor = position :: later) :
    ∃ next, advance counts cursor = (some position, next) ∧ ahead counts next = later := by
  obtain ⟨first, behind⟩ := advance_ahead counts cursor
  rw [ahead_eq] at first behind
  exact ⟨(advance counts cursor).2, Prod.ext first rfl, behind⟩

theorem mem_positionsFrom {part chunk : Nat} {counts : List Nat} {position : Nat × Nat} :
    position ∈ positionsFrom part chunk counts ↔
      part ≤ position.1 ∧ (position.1 = part → chunk ≤ position.2) ∧
        ∃ count, counts[position.1 - part]? = some count ∧ position.2 < count := by
  induction counts generalizing part chunk with
  | nil => simp [positionsFrom]
  | cons count rest ih =>
      obtain ⟨place, index⟩ := position
      rw [positionsFrom, List.mem_append, ih]
      simp only [List.mem_map, List.mem_range'_1, Prod.mk.injEq]
      constructor
      · rintro (⟨index, bounds, rfl, rfl⟩ | ⟨later, -, count, found, inside⟩)
        · exact ⟨Nat.le_refl _, fun _ => bounds.1, count, by simp, by omega⟩
        · have step : place - part = place - (part + 1) + 1 := by omega
          exact ⟨by omega, fun same => by omega, count, by rw [step]; exact found, inside⟩
      · rintro ⟨reached, start, held, found, inside⟩
        by_cases same : place = part
        · subst same
          simp only [Nat.sub_self, List.getElem?_cons_zero, Option.some.injEq] at found
          subst found
          exact .inl ⟨index, ⟨start rfl, by omega⟩, rfl, rfl⟩
        · have step : place - part = place - (part + 1) + 1 := by omega
          rw [step] at found
          exact .inr ⟨by omega, fun _ => Nat.zero_le _, held, found, inside⟩

/-- The order of chunks: by part, then by place in the part. -/
def Before (left right : Nat × Nat) : Prop :=
  left.1 < right.1 ∨ left.1 = right.1 ∧ left.2 < right.2

theorem pairwise_positionsFrom (part chunk : Nat) (counts : List Nat) :
    (positionsFrom part chunk counts).Pairwise Before := by
  induction counts generalizing part chunk with
  | nil => exact .nil
  | cons count rest ih =>
      rw [positionsFrom, List.pairwise_append]
      refine ⟨?_, ih (part + 1) 0, ?_⟩
      · rw [List.pairwise_map]
        exact (List.pairwise_lt_range' 1).imp fun later => .inr ⟨rfl, later⟩
      · intro here member there later
        obtain ⟨index, -, rfl⟩ := List.mem_map.mp member
        exact .inl (mem_positionsFrom.mp later).1

theorem length_positionsFrom_zero (part : Nat) (counts : List Nat) :
    (positionsFrom part 0 counts).length = total counts := by
  induction counts generalizing part with
  | nil => rfl
  | cons count rest ih =>
      rw [positionsFrom, List.length_append, List.length_map, List.length_range', ih, total_cons,
        Nat.sub_zero]

theorem mem_ahead_start {counts : Array Nat} {position : Nat × Nat} :
    position ∈ ahead counts .start ↔
      ∃ count, counts[position.1]? = some count ∧ position.2 < count := by
  simp [ahead, start, mem_positionsFrom]

theorem length_ahead_start (counts : Array Nat) :
    (ahead counts .start).length = total counts.toList := by
  simp [ahead, start, length_positionsFrom_zero]

end Columnar.ChunkCursor
