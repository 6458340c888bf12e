import Columnar.Proofs.Pack.Directory
import Mathlib.Data.List.Infix
import Mathlib.Data.List.TakeWhile

namespace Columnar.Pack

/-!
What packing leaves behind when columns fail.

A column that fails has written the parts that were full by then, and nothing of the chunk that
failed or of those behind it.  Parts of other columns and the catalog have names of their own, so
every other object of the stores is as it was.
-/

section Columns

variable {codec : Codec} {verify : Bool} {options : PackOptions} {relation : Relation}
  {column : Column} {directory : Location} {index : Nat} {type : ColumnType}
  {groups : List (List Bytes)} {progress : Progress} {ranges : List RowRange} {error : Error}

/-- Where a column failed: at a chunk behind others that were packed, of which some fill whole
parts. -/
structure FailsAt (codec : Codec) (verify : Bool) (relation : Relation) (column : Column)
    (index chunkIndex : Nat) (ranges : List RowRange) (error : Error) (before : List Bytes)
    (groups : List (List Bytes)) : Prop where
  nonempty : ∀ group ∈ groups, group ≠ []
  chunks : ∃ packed failing rest entries, ranges = packed ++ failing :: rest ∧
    packedRanges codec verify relation column index chunkIndex packed = .ok entries ∧
    packRange codec verify relation column index (chunkIndex + packed.length) failing =
      .error error ∧
    groups.flatten <+: before ++ entries.map (·.2)

theorem FailsAt.mono {chunkIndex : Nat} {before : List Bytes} {front : List (List Bytes)}
    (fails : FailsAt codec verify relation column index chunkIndex ranges error before groups)
    (within : front <+: groups) :
    FailsAt codec verify relation column index chunkIndex ranges error before front := by
  obtain ⟨nonempty, packed, failing, rest, entries, split, all, stop, order⟩ := fails
  exact ⟨fun group member => nonempty group (within.subset member), packed, failing, rest, entries,
    split, all, stop, within.flatten.trans order⟩

theorem packRanges_error {chunkIndex : Nat}
    (failed : (packRanges codec verify relation column directory chunkIndex ranges
      progress).result = .error error)
    (gathers : progress.Gathers directory index type groups) :
    ∃ closed, (packRanges codec verify relation column directory chunkIndex ranges
        progress).writes = partWrites directory index type closed ∧
      FailsAt codec verify relation column index chunkIndex ranges error
        (groups.flatten ++ progress.part.chunks.toList) closed := by
  -- At each range `Gathers` says which of the chunks so far have been written.
  induction ranges generalizing chunkIndex groups progress with
  | nil => contradiction
  | cons range rest ih =>
      rw [packRanges, gathers.ofColumn] at failed ⊢
      cases here : packRange codec verify relation column index chunkIndex range with
      | error reason =>
          rw [here] at failed
          cases failed
          refine ⟨groups, gathers.written, gathers.filled, [], range, rest, [], rfl, rfl, here, ?_⟩
          exact (List.prefix_append ..).trans (List.prefix_append ..)
      | ok entry =>
          rw [here] at failed
          obtain ⟨size, bytes⟩ := entry
          obtain ⟨closed, added, order⟩ := gathers.add size bytes
          obtain ⟨final, writes, nonempty, packed, failing, others, entries, split, all, stop,
            front⟩ := ih failed added
          refine ⟨final, writes, nonempty, range :: packed, failing, others,
            (size, bytes) :: entries, ?_, ?_, ?_, ?_⟩
          · rw [split, List.cons_append]
          · simp only [packedRanges, here, all]
          · rw [List.length_cons, Nat.add_comm packed.length, ← Nat.add_assoc]
            exact stop
          · rw [order, List.append_assoc] at front
            exact front

theorem column_failed
    (failed : (Pack.column codec options relation directory ranges index column).result =
      .error error) :
    ∃ groups, (Pack.column codec options relation directory ranges index column).writes =
        partWrites directory index column.type groups ∧
      FailsAt codec options.verify relation column index 0 ranges error [] groups := by
  by_cases skipped : column.type = .skip
  · rw [Pack.column, if_pos skipped] at failed
    contradiction
  · rw [Pack.column, if_neg skipped] at failed ⊢
    exact packRanges_error failed
      (gathers_start directory index column.name column.type options.partMaxBytes)

theorem column_writes (codec : Codec) (options : PackOptions) (relation : Relation)
    (directory : Location) (ranges : List RowRange) (index : Nat) (column : Column) :
    ∃ groups, (Pack.column codec options relation directory ranges index column).writes =
      partWrites directory index column.type groups := by
  cases done : (Pack.column codec options relation directory ranges index column).result with
  | error error =>
      obtain ⟨groups, writes, -⟩ := column_failed done
      exact ⟨groups, writes⟩
  | ok stats =>
      obtain ⟨groups, finished⟩ := exists_finished ⟨stats, done⟩
      exact ⟨groups, finished.writes⟩

end Columns

section Runs

variable {refusal? : Location → Option AccessFault} {run : ColumnRun} {directory : Location}
  {index : Nat} {type : ColumnType} {groups : List (List Bytes)}

theorem ColumnRun.writes_within (run : ColumnRun) (refusal? : Location → Option AccessFault) :
    (run.within refusal?).writes <+: run.writes ∧
      ∀ write ∈ (run.within refusal?).writes, refusal? write.1 = none := by
  unfold ColumnRun.within
  split
  · rename_i accepted
    exact ⟨List.prefix_rfl, List.findSome?_eq_none_iff.mp accepted⟩
  · refine ⟨List.takeWhile_prefix _, fun write member => ?_⟩
    have accepted : (refusal? write.1).isNone = true :=
      @List.mem_takeWhile_imp (Location × Bytes) (fun write => (refusal? write.1).isNone) _ _ member
    exact Option.isNone_iff_eq_none.mp accepted

theorem ColumnRun.error_of_within {error : Error}
    (failed : (run.within refusal?).result = .error error) :
    run.result = .error error ∨
      (∃ fault, error = .access fault) ∧ ∃ write ∈ run.writes, refusal? write.1 ≠ none := by
  unfold ColumnRun.within at failed
  split at failed
  · exact .inl failed
  · rename_i fault found
    cases failed
    obtain ⟨write, member, refused⟩ := List.exists_of_findSome?_eq_some found
    exact .inr ⟨⟨fault, rfl⟩, write, member, by simp [refused]⟩

theorem partWrites_take (count : Nat) :
    (partWrites directory index type groups).take count =
      partWrites directory index type (groups.take count) := by
  apply List.ext_getElem?
  intro part
  simp only [partWrites, List.getElem?_take, List.getElem?_map, List.getElem?_zipIdx]
  split <;> rfl

theorem exists_groups_within (written : run.writes = partWrites directory index type groups) :
    ∃ front, front <+: groups ∧
      (run.within refusal?).writes = partWrites directory index type front := by
  obtain ⟨before, -⟩ := run.writes_within refusal?
  rw [List.prefix_iff_eq_take, written, partWrites_take] at before
  exact ⟨_, List.take_prefix .., before⟩

theorem mem_failures {start : Nat} {runs : List ColumnRun} {failure : ColumnFailure}
    (member : failure ∈ failures start runs) :
    ∃ index run, runs[index]? = some run ∧ failure.column = start + index ∧
      run.result = .error failure.error := by
  induction runs generalizing start with
  | nil => contradiction
  | cons run rest ih =>
      have later (among : failure ∈ failures (start + 1) rest) :
          ∃ index other, (run :: rest)[index]? = some other ∧ failure.column = start + index ∧
            other.result = .error failure.error := by
        obtain ⟨index, other, found, column, failed⟩ := ih among
        exact ⟨index + 1, other, found, by omega, failed⟩
      rw [failures] at member
      split at member
      · exact later member
      · rename_i error failed
        rcases List.mem_cons.mp member with rfl | among
        · exact ⟨0, run, rfl, rfl, failed⟩
        · exact later among

end Runs

section Stores

variable {codec : Codec} {options : PackOptions} {table : Relation} {before after : Stores}
  {path : String} {place : Place} {ranges : List RowRange}

theorem relation_failed {failed : List ColumnFailure}
    (done : relation codec options before path table = (.error (.columns failed), after)) :
    ∃ place ranges, before.resolve path = .ok place ∧ plan options table = .ok ranges ∧
      failed = failures 0 (runsAt codec options table before place ranges) ∧
      after = before.putAll place.store
        ((runsAt codec options table before place ranges).flatMap (·.writes)) := by
  rcases relation_cases codec options before path table with
    ⟨error, refused⟩ | ⟨place, ranges, resolved, planned⟩
  · rw [refused] at done
    simp at done
  · rw [relation_of_plan planned resolved] at done
    dsimp only at done
    split at done
    · split at done <;> simp at done
    · simp only [Prod.mk.injEq, Except.error.injEq, RunError.columns.injEq] at done
      exact ⟨place, ranges, resolved, planned, done.1.symm, done.2.symm⟩

variable {column : Column} {index : Nat} {groups : List (List Bytes)}

theorem getElem?_runsAt (codec : Codec) (options : PackOptions) (table : Relation)
    (stores : Stores) (place : Place) (ranges : List RowRange) (index : Nat) :
    (runsAt codec options table stores place ranges)[index]? =
      table.columns[index]?.map fun column =>
        (Pack.column codec options table place.location ranges index column).within
          (stores.refusal? place.store) := by
  rw [runsAt, List.getElem?_map, getElem?_columns, Option.map_map]
  rfl

/-- A write is the write of a part of a data column, in a store that takes it. -/
theorem mem_writesAt {write : Location × Bytes}
    (member : write ∈ (runsAt codec options table before place ranges).flatMap (·.writes)) :
    ∃ index column part, table.columns[index]? = some column ∧ column.type ≠ .skip ∧
      write ∈ ((Pack.column codec options table place.location ranges index column).within
        (before.refusal? place.store)).writes ∧
      write.1 = place.location.child (StoredFile.part index part).name := by
  obtain ⟨run, among, inside⟩ := List.mem_flatMap.mp member
  obtain ⟨index, here⟩ := List.mem_iff_getElem?.mp among
  rw [getElem?_runsAt] at here
  obtain ⟨column, found, rfl⟩ := Option.map_eq_some_iff.mp here
  obtain ⟨groups, writes⟩ :=
    column_writes codec options table place.location ranges index column
  have whole := (ColumnRun.writes_within _ _).1.subset inside
  have data : column.type ≠ .skip := by
    intro skipped
    rw [(column_skip skipped).writes] at whole
    contradiction
  rw [writes] at whole
  obtain ⟨part, group, -, rfl⟩ := mem_partWrites.mp whole
  exact ⟨index, column, part, found, data, inside, rfl⟩

/-- A part file holds what its column wrote there, and what it held before otherwise. -/
theorem object?_part (found : table.columns[index]? = some column)
    (written : ((Pack.column codec options table place.location ranges index column).within
      (before.refusal? place.store)).writes =
        partWrites place.location index column.type groups) (part : Nat) :
    (before.putAll place.store
        ((runsAt codec options table before place ranges).flatMap (·.writes))).object?
      (place.child (StoredFile.part index part).name) =
      match groups[part]? with
      | some group => some (partWrite place.location index column.type group part).2
      | none => before.object? (place.child (StoredFile.part index part).name) := by
  -- Only the column itself writes to its parts, and to each of them once.
  have here : ∀ write ∈ (runsAt codec options table before place ranges).flatMap (·.writes),
      write.1 = place.location.child (StoredFile.part index part).name →
        ∃ group, groups[part]? = some group ∧
          write = partWrite place.location index column.type group part := by
    intro write member same
    obtain ⟨otherIndex, otherColumn, otherPart, otherFound, -, inside, location⟩ :=
      mem_writesAt member
    obtain ⟨rfl, -⟩ := StoredFile.part.inj (StoredFile.child_injective (location.symm.trans same))
    rw [found] at otherFound
    cases otherFound
    rw [written] at inside
    obtain ⟨position, group, held, rfl⟩ := mem_partWrites.mp inside
    obtain ⟨-, rfl⟩ := StoredFile.part.inj (StoredFile.child_injective same)
    exact ⟨group, held, rfl⟩
  cases held : groups[part]? with
  | none =>
      apply Stores.object?_putAll_of_ne
      intro write member same
      obtain ⟨group, stands, -⟩ := here write member (congrArg Place.location same)
      rw [held] at stands
      contradiction
  | some group =>
      have own : partWrite place.location index column.type group part ∈
          ((Pack.column codec options table place.location ranges index column).within
            (before.refusal? place.store)).writes := by
        rw [written]
        exact mem_partWrites.mpr ⟨part, group, held, rfl⟩
      have accepted := (ColumnRun.writes_within _ _).2 _ own
      have among : (Pack.column codec options table place.location ranges index column).within
          (before.refusal? place.store) ∈ runsAt codec options table before place ranges :=
        List.mem_of_getElem? (by rw [getElem?_runsAt, found, Option.map_some])
      refine ((Stores.takes_of_refusal? accepted).keeps_putAll ?_
        (List.mem_flatMap.mpr ⟨_, among, own⟩) ?_).object?
      · intro write member
        obtain ⟨_, _, _, _, _, _, location⟩ := mem_writesAt member
        rw [location]
        exact Stores.beside_child ..
      · intro write member same
        obtain ⟨other, stands, rfl⟩ := here write member same
        rw [held] at stands
        cases stands
        rfl

/-- When columns fail, the parts of the data columns are all that can differ from before: of a
column that failed, those that were full before the chunk at which it failed. -/
theorem relation_failed_objects {failed : List ColumnFailure}
    (done : relation codec options before path table = (.error (.columns failed), after)) :
    ∃ place ranges, before.resolve path = .ok place ∧ plan options table = .ok ranges ∧
      (∀ other, (∀ index column part, table.columns[index]? = some column → column.type ≠ .skip →
          other ≠ place.child (StoredFile.part index part).name) →
        after.object? other = before.object? other) ∧
      ∀ failure ∈ failed, ∃ column groups, table.columns[failure.column]? = some column ∧
        (∀ part, after.object? (place.child (StoredFile.part failure.column part).name) =
          match groups[part]? with
          | some group =>
              some (StoredPart.mk StoredPart.currentVersion column.type.tag group).encode
          | none => before.object? (place.child (StoredFile.part failure.column part).name)) ∧
        (FailsAt codec options.verify table column failure.column 0 ranges failure.error []
            groups ∨
          place.store ≠ .memory ∧ ∃ fault, failure.error = .access fault) := by
  obtain ⟨place, ranges, resolved, planned, failures, left⟩ := relation_failed done
  refine ⟨place, ranges, resolved, planned, ?_, ?_⟩
  · intro other apart
    rw [left]
    apply Stores.object?_putAll_of_ne
    rintro write member rfl
    obtain ⟨index, column, part, found, data, -, location⟩ := mem_writesAt member
    exact apart index column part found data (congrArg (Place.mk place.store) location)
  · intro failure member
    rw [failures] at member
    obtain ⟨index, run, here, same, failed⟩ := mem_failures member
    rw [Nat.zero_add] at same
    rw [getElem?_runsAt, ← same] at here
    obtain ⟨column, found, rfl⟩ := Option.map_eq_some_iff.mp here
    rcases ColumnRun.error_of_within failed with stopped | ⟨denied, write, inside, refused⟩
    · obtain ⟨groups, writes, fails⟩ := column_failed stopped
      obtain ⟨front, before, written⟩ := exists_groups_within writes
      refine ⟨column, front, found, fun part => ?_, .inl (fails.mono before)⟩
      rw [left, object?_part found written]
      rfl
    · -- The store refused a write, which the memory store never does.
      obtain ⟨groups, writes⟩ :=
        column_writes codec options table place.location ranges failure.column column
      obtain ⟨front, before, written⟩ := exists_groups_within writes
      refine ⟨column, front, found, fun part => ?_, .inr ⟨?_, denied⟩⟩
      · rw [left, object?_part found written]
        rfl
      · intro memory
        rw [memory, Stores.refusal?] at refused
        contradiction

/-- A codec that gives every chunk the bytes of the chunk of the one integer 1. -/
def repeating : Codec :=
  ⟨fun _ => Cascade.compress 0 ⟨.integers [1], .ofList [true]⟩, Cascade.inspect,
    Cascade.decompress⟩

def onesAndTwo : Relation := ⟨[.present "a" (.integers [1, 1, 2])], 3⟩

def rowByRow : PackOptions :=
  { chunkRows := 1, partMaxBytes := 1, cascadeDepth := 0, verify := true }

theorem built_onesAndTwo : onesAndTwo.Built :=
  .add (.present "a" (.integers [1, 1, 2])) .empty
    (Validity.represents_ofList (List.replicate 3 true)) rfl

theorem relation_onesAndTwo :
    relation repeating rowByRow (.empty "") "memory://t" onesAndTwo =
      (.error (.columns [⟨0, .verification 0 2 (.value 0)⟩]),
        (relation repeating rowByRow (.empty "") "memory://t" onesAndTwo).2) := rfl

theorem relation_failed_objects_onesAndTwo :
    ∃ failed after, relation repeating rowByRow (.empty "") "memory://t" onesAndTwo =
        (.error (.columns failed), after) ∧
      after.object? ⟨.memory, ⟨["t", "metadata"]⟩⟩ = none := by
  obtain ⟨place, ranges, resolved, -, kept, -⟩ := relation_failed_objects relation_onesAndTwo
  have memory : (Stores.empty "").resolve "memory://t" = .ok ⟨.memory, ⟨["t"]⟩⟩ := rfl
  rw [memory] at resolved
  cases resolved
  refine ⟨_, _, relation_onesAndTwo, kept _ ?_⟩
  intro index column part _ _ same
  have location : (⟨["t"]⟩ : Location).child StoredFile.catalog.name =
      (⟨["t"]⟩ : Location).child (StoredFile.part index part).name := congrArg Place.location same
  cases StoredFile.child_injective location

/-- The third row fails when the parts of the first two are written. -/
theorem failed_column_not_untouched :
    ¬ ∀ (codec : Codec) (options : PackOptions) (before after : Stores) (path : String)
      (table : Relation) (failed : List ColumnFailure), table.Built → options.validate = .ok () →
      relation codec options before path table = (.error (.columns failed), after) →
      ∀ place, before.resolve path = .ok place → ∀ failure ∈ failed, ∀ part,
        after.object? (place.child (StoredFile.part failure.column part).name) =
          before.object? (place.child (StoredFile.part failure.column part).name) := by
  intro untouched
  have same := untouched repeating rowByRow (.empty "") _ "memory://t" onesAndTwo _ built_onesAndTwo
    (by decide) relation_onesAndTwo ⟨.memory, ⟨["t"]⟩⟩ rfl _ List.mem_cons_self 0
  have written : (relation repeating rowByRow (.empty "") "memory://t" onesAndTwo).2.object?
      ⟨.memory, ⟨["t", "column0_part0"]⟩⟩ ≠ none := by decide +kernel
  exact written same

end Stores

end Columnar.Pack
