import Columnar.Proofs.Relation.Building

namespace Columnar

/-!
Row ranges as a partition of the rows.

`Tiles` says that ranges follow each other from one row to another.  `rowRanges` adds the rows per
chunk to a start before it cuts the sum off, and the sum is to be a 64-bit word: there are ranges,
which then partition the rows, exactly when the last sum is one.
-/

/-- Ranges that follow each other from one row to another, none of them empty: each has the rows
of a chunk, and the last one has what is left. -/
inductive Tiles (chunkRows : Nat) : Nat → List RowRange → Nat → Prop
  | last {start stop : Nat} (some : start < stop) (fits : stop ≤ start + chunkRows) :
      Tiles chunkRows start [⟨start, stop⟩] stop
  | more {start stop : Nat} {rest : List RowRange} (some : 0 < chunkRows)
      (later : Tiles chunkRows (start + chunkRows) rest stop) :
      Tiles chunkRows start (⟨start, start + chunkRows⟩ :: rest) stop

/-- Ranges that partition the rows, and whose ends do not overflow before they are cut off. -/
structure Partitions (tupleCount chunkRows : Nat) (ranges : List RowRange) : Prop where
  tiles : Tiles chunkRows 0 ranges tupleCount
  count : ranges.length = rangeCount tupleCount chunkRows
  ends : ∀ range ∈ ranges, range.start + chunkRows < rowModulus

section Ranges

variable {tupleCount chunkRows : Nat} {ranges : List RowRange}

theorem rowRanges_noRows_iff (rows perChunk : Nat) :
    rowRanges tupleCount chunkRows = .error (.noRows rows perChunk) ↔
      (tupleCount = 0 ∨ chunkRows = 0) ∧ tupleCount = rows ∧ chunkRows = perChunk := by
  by_cases none : tupleCount = 0 ∨ chunkRows = 0
  · rw [rowRanges, if_pos none, Except.error.injEq, RangeFault.noRows.injEq]
    exact ⟨fun same => ⟨none, same⟩, fun same => same.2⟩
  · obtain ⟨some, positive⟩ := not_or.mp none
    refine iff_of_false (fun refused => ?_) fun refused => none refused.1
    rcases Nat.lt_or_ge (rangeCount tupleCount chunkRows * chunkRows) rowModulus with reach | beyond
    · rw [rowRanges_of_reach some positive reach] at refused
      contradiction
    · rw [rowRanges_overflow some positive beyond] at refused
      cases refused

/-- The ranges from one on tile the rows behind it, when there are rows for the last of them. -/
theorem tiles_from (perChunk : 0 < chunkRows) (tupleCount index count : Nat)
    (some : (index + count) * chunkRows < tupleCount)
    (enough : tupleCount ≤ (index + count + 1) * chunkRows) :
    Tiles chunkRows (index * chunkRows)
      ((List.range' index (count + 1)).map fun index =>
        ⟨index * chunkRows, min (index * chunkRows + chunkRows) tupleCount⟩) tupleCount := by
  induction count generalizing index with
  | zero =>
      rw [Nat.add_zero] at some enough
      rw [Nat.add_mul, Nat.one_mul] at enough
      simp only [List.range'_succ, List.range'_zero, List.map_cons, List.map_nil,
        Nat.min_eq_right enough]
      exact .last some enough
  | succ count ih =>
      have step : index + (count + 1) = index + 1 + count := by omega
      rw [step] at some enough
      have later := ih (index + 1) some enough
      have whole : index * chunkRows + chunkRows ≤ tupleCount := by
        have front : (index + 1) * chunkRows ≤ (index + 1 + count) * chunkRows :=
          Nat.mul_le_mul_right _ (by omega)
        rw [Nat.add_mul index, Nat.one_mul] at front
        omega
      rw [List.range'_succ, List.map_cons, Nat.min_eq_left whole]
      rw [Nat.add_mul, Nat.one_mul] at later
      exact .more perChunk later

theorem partitions_plainRanges (rows : 0 < tupleCount) (perChunk : 0 < chunkRows)
    (reach : rangeCount tupleCount chunkRows * chunkRows < rowModulus) :
    Partitions tupleCount chunkRows
      (plainRanges tupleCount chunkRows (rangeCount tupleCount chunkRows)) := by
  obtain ⟨enough, close⟩ := rangeCount_bounds tupleCount perChunk
  refine ⟨?_, by rw [plainRanges, List.length_map, List.length_range], ?_⟩
  · obtain ⟨count, more⟩ : ∃ count, rangeCount tupleCount chunkRows = count + 1 :=
      Nat.exists_eq_succ_of_ne_zero fun none => by
        rw [none, Nat.zero_mul] at enough
        omega
    rw [more] at enough close ⊢
    rw [Nat.add_mul, Nat.one_mul] at close
    have tiles := tiles_from perChunk tupleCount 0 count (by rw [Nat.zero_add]; omega)
      (by rwa [Nat.zero_add])
    rwa [Nat.zero_mul, ← List.range_eq_range'] at tiles
  · intro range member
    obtain ⟨index, inside, rfl⟩ := List.mem_map.mp member
    have bound : (index + 1) * chunkRows ≤ rangeCount tupleCount chunkRows * chunkRows :=
      Nat.mul_le_mul_right _ (List.mem_range.mp inside)
    rw [Nat.add_mul, Nat.one_mul] at bound
    exact Nat.lt_of_le_of_lt bound reach

/-- Ranges are refused exactly when there are no rows, or none per chunk.  Otherwise they partition
the rows exactly when the last of them, before it is cut off, ends at a word, and the sum overflows
when it does not. -/
theorem rowRanges_partition_iff (tupleCount chunkRows : Nat) :
    (∀ rows perChunk, rowRanges tupleCount chunkRows = .error (.noRows rows perChunk) ↔
      (tupleCount = 0 ∨ chunkRows = 0) ∧ tupleCount = rows ∧ chunkRows = perChunk) ∧
    (0 < tupleCount → 0 < chunkRows →
      ((∃ ranges, rowRanges tupleCount chunkRows = .ok ranges ∧
          Partitions tupleCount chunkRows ranges) ↔
        rangeCount tupleCount chunkRows * chunkRows < rowModulus) ∧
      (rowRanges tupleCount chunkRows = .error (.overflow .rangeEnd) ↔
        rowModulus ≤ rangeCount tupleCount chunkRows * chunkRows)) := by
  refine ⟨rowRanges_noRows_iff, fun rows perChunk => ?_⟩
  rcases Nat.lt_or_ge (rangeCount tupleCount chunkRows * chunkRows) rowModulus with reach | beyond
  · have cut := rowRanges_of_reach (Nat.ne_of_gt rows) (Nat.ne_of_gt perChunk) reach
    have parts := partitions_plainRanges rows perChunk reach
    exact ⟨iff_of_true ⟨_, cut, parts⟩ reach,
      iff_of_false (by rw [cut]; exact nofun) (Nat.not_le.mpr reach)⟩
  · have failed := rowRanges_overflow (Nat.ne_of_gt rows) (Nat.ne_of_gt perChunk) beyond
    refine ⟨iff_of_false ?_ (Nat.not_lt.mpr beyond), iff_of_true failed beyond⟩
    rintro ⟨ranges, cut, -⟩
    rw [failed] at cut
    contradiction

/-- Three ranges that end at the largest word. -/
theorem rowRanges_partition_iff_largest :
    ∃ ranges, rowRanges 0xFFFFFFFFFFFFFFFF 0x5555555555555555 = .ok ranges ∧
      Partitions 0xFFFFFFFFFFFFFFFF 0x5555555555555555 ranges :=
  ((rowRanges_partition_iff 0xFFFFFFFFFFFFFFFF 0x5555555555555555).2 (by decide) (by decide)).1.mpr
    (by decide)

/-- The second range of so many rows begins at half of all words, and its end is none. -/
theorem not_rowRanges_partition :
    ¬ ∀ tupleCount chunkRows : Nat, tupleCount < rowModulus → chunkRows < rowModulus →
      0 < tupleCount → 0 < chunkRows →
      ∃ ranges, rowRanges tupleCount chunkRows = .ok ranges ∧
        Partitions tupleCount chunkRows ranges := by
  intro always
  obtain ⟨ranges, cut, -⟩ := always 0xFFFFFFFFFFFFFFFF 0x8000000000000000 (by decide) (by decide)
    (by decide) (by decide)
  have failed : rowRanges 0xFFFFFFFFFFFFFFFF 0x8000000000000000 =
      .error (.overflow .rangeEnd) := by rfl
  rw [failed] at cut
  contradiction

end Ranges

end Columnar
