import Columnar.Proofs.Pack.Joins
import Columnar.Proofs.Store.Agreement

namespace Columnar.Pack

/-!
Packing in the memory store, one column after another.

The memory store takes every write, so a column fails only by itself, with the error of the first of
its ranges that cannot be packed.  The others write all of their parts, and the catalog is written
if there are no failures.
-/

section Columns

variable {codec : Codec} {verify : Bool} {options : PackOptions} {relation : Relation}
  {column : Column} {directory : Location} {index : Nat} {progress : Progress}
  {ranges : List RowRange} {error : Error} {stats : ColumnStats}

theorem Progress.stats_add (directory : Location) (progress : Progress) (size : Nat)
    (chunk : Bytes) :
    (progress.add directory size chunk).stats.column = progress.stats.column ∧
      (progress.add directory size chunk).stats.name = progress.stats.name ∧
      (progress.add directory size chunk).stats.type = progress.stats.type := by
  unfold Progress.add
  dsimp only
  split
  · exact ⟨rfl, rfl, rfl⟩
  · exact ⟨rfl, rfl, rfl⟩

theorem stats_packRanges {chunkIndex : Nat}
    (done : (packRanges codec verify relation column directory chunkIndex ranges progress).result =
      .ok stats) :
    stats.column = progress.stats.column ∧ stats.name = progress.stats.name ∧
      stats.type = progress.stats.type := by
  induction ranges generalizing chunkIndex progress with
  | nil =>
      rw [packRanges] at done
      cases done
      split
      · exact ⟨rfl, rfl, rfl⟩
      · exact ⟨rfl, rfl, rfl⟩
  | cons range rest ih =>
      rw [packRanges] at done
      split at done
      · contradiction
      rename_i size bytes packed
      obtain ⟨columnEq, nameEq, typeEq⟩ := ih done
      obtain ⟨columnKept, nameKept, typeKept⟩ := progress.stats_add directory size bytes
      exact ⟨columnEq.trans columnKept, nameEq.trans nameKept, typeEq.trans typeKept⟩

theorem stats_column
    (done : (Pack.column codec options relation directory ranges index column).result = .ok stats) :
    stats.column = index ∧ stats.name = column.name ∧ stats.type = column.type := by
  unfold Pack.column at done
  dsimp only at done
  split at done
  · cases done
    exact ⟨rfl, rfl, rfl⟩
  · exact stats_packRanges done

/-- The error of the first range that cannot be packed, of ranges from a chunk index on. -/
def FirstError (codec : Codec) (verify : Bool) (relation : Relation) (column : Column)
    (index start : Nat) (ranges : List RowRange) (error : Error) : Prop :=
  ∃ chunk range, ranges[chunk]? = some range ∧
    packRange codec verify relation column index (start + chunk) range = .error error ∧
    ∀ earlier < chunk, ∀ other, ranges[earlier]? = some other →
      ∃ packed, packRange codec verify relation column index (start + earlier) other = .ok packed

theorem packRanges_error_iff {chunkIndex : Nat} (ofColumn : progress.stats.column = index) :
    (packRanges codec verify relation column directory chunkIndex ranges progress).result =
        .error error ↔
      FirstError codec verify relation column index chunkIndex ranges error := by
  induction ranges generalizing chunkIndex progress with
  | nil => simp [packRanges, FirstError]
  | cons range rest ih =>
      rw [packRanges, ofColumn]
      cases here : packRange codec verify relation column index chunkIndex range with
      | error reason =>
          constructor
          · intro stopped
            cases stopped
            exact ⟨0, range, rfl, here, fun earlier before => (Nat.not_lt_zero _ before).elim⟩
          · rintro ⟨chunk, failing, found, stops, passed⟩
            cases chunk with
            | zero =>
                cases found
                rw [Nat.add_zero, here] at stops
                cases stops
                rfl
            | succ chunk =>
                obtain ⟨packed, fits⟩ := passed 0 (Nat.succ_pos _) range rfl
                rw [Nat.add_zero, here] at fits
                contradiction
      | ok packed =>
          obtain ⟨size, bytes⟩ := packed
          dsimp only
          rw [ih ((progress.stats_add directory size bytes).1.trans ofColumn)]
          have shift (chunk : Nat) : chunkIndex + 1 + chunk = chunkIndex + (chunk + 1) := by omega
          constructor
          · rintro ⟨chunk, failing, found, stops, passed⟩
            refine ⟨chunk + 1, failing, found, shift chunk ▸ stops, ?_⟩
            intro earlier before other there
            cases earlier with
            | zero =>
                cases there
                exact ⟨_, here⟩
            | succ earlier =>
                exact shift earlier ▸ passed earlier (Nat.lt_of_succ_lt_succ before) other there
          · rintro ⟨chunk, failing, found, stops, passed⟩
            cases chunk with
            | zero =>
                cases found
                rw [Nat.add_zero, here] at stops
                contradiction
            | succ chunk =>
                refine ⟨chunk, failing, found, (shift chunk).symm ▸ stops, ?_⟩
                intro earlier before other there
                exact (shift earlier).symm ▸ passed (earlier + 1) (Nat.succ_lt_succ before) other there

theorem column_error_iff :
    (Pack.column codec options relation directory ranges index column).result = .error error ↔
      column.type ≠ .skip ∧ FirstError codec options.verify relation column index 0 ranges error := by
  unfold Pack.column
  by_cases skipped : column.type = .skip
  · simp [skipped]
  · simp only [ne_eq, skipped, if_false, not_false_eq_true, true_and]
    exact packRanges_error_iff rfl

end Columns

section Writes

variable {codec : Codec} {options : PackOptions} {relation : Relation} {directory : Location}
  {ranges : List RowRange} {write other : Location × Bytes}

theorem exists_of_mem_partsOf (member : write ∈ partsOf codec options relation directory ranges) :
    ∃ index column groups part group, relation.columns[index]? = some column ∧
      (Pack.column codec options relation directory ranges index column).writes =
        partWrites directory index column.type groups ∧
      groups[part]? = some group ∧ write = partWrite directory index column.type group part := by
  obtain ⟨run, among, inside⟩ := List.mem_flatMap.mp member
  obtain ⟨index, column, found, rfl⟩ := mem_columns among
  obtain ⟨groups, writes⟩ := column_writes codec options relation directory ranges index column
  rw [writes] at inside
  obtain ⟨part, group, held, same⟩ := mem_partWrites.mp inside
  exact ⟨index, column, groups, part, group, found, writes, held, same⟩

/-- No two parts have one name. -/
theorem eq_of_mem_partsOf (member : write ∈ partsOf codec options relation directory ranges)
    (otherMember : other ∈ partsOf codec options relation directory ranges)
    (same : write.1 = other.1) : write = other := by
  obtain ⟨index, column, groups, part, group, found, writes, held, rfl⟩ :=
    exists_of_mem_partsOf member
  obtain ⟨otherIndex, otherColumn, otherGroups, otherPart, otherGroup, otherFound, otherWrites,
    otherHeld, rfl⟩ := exists_of_mem_partsOf otherMember
  obtain ⟨rfl, rfl⟩ := StoredFile.part.inj (StoredFile.child_injective same)
  rw [found] at otherFound
  cases otherFound
  have own : partWrite directory index column.type otherGroup part ∈
      partWrites directory index column.type groups := by
    rw [← writes, otherWrites]
    exact mem_partWrites.mpr ⟨part, otherGroup, otherHeld, rfl⟩
  obtain ⟨position, stands, there, equal⟩ := mem_partWrites.mp own
  obtain ⟨-, rfl⟩ := StoredFile.part.inj (StoredFile.child_injective (congrArg Prod.fst equal))
  rw [held] at there
  cases there
  exact equal.symm

end Writes

section Stores

variable {codec : Codec} {options : PackOptions} {relation : Relation} {before after : Stores}
  {path : String} {place : Place} {ranges : List RowRange}

theorem catalog_putAll {writes : List (Location × Bytes)}
    (parts : ∀ write ∈ writes, write ∈ partsOf codec options relation place.location ranges) :
    (before.putAll place.store writes).object? (place.child StoredFile.catalog.name) =
      before.object? (place.child StoredFile.catalog.name) := by
  apply Stores.object?_putAll_of_ne
  intro write member same
  obtain ⟨index, column, groups, part, group, -, -, -, rfl⟩ :=
    exists_of_mem_partsOf (parts write member)
  cases StoredFile.child_injective (congrArg Place.location same)

theorem refusal?_memory (memory : place.store = .memory) (stores : Stores) (location : Location) :
    stores.refusal? place.store location = none := by
  rw [memory, Stores.refusal?]

theorem runsAt_memory (memory : place.store = .memory) :
    runsAt codec options relation before place ranges =
      columns codec options relation place.location ranges :=
  map_within fun _ _ _ _ => refusal?_memory memory before _

theorem relation_ended (planned : plan options relation = .ok ranges)
    (resolved : before.resolve path = .ok place) (memory : place.store = .memory)
    (none : failures 0 (columns codec options relation place.location ranges) = []) :
    Pack.relation codec options before path relation =
      (.ok ⟨catalogFor codec options relation place.location ranges,
          statistics (columns codec options relation place.location ranges)⟩,
        (before.putAll place.store (partsOf codec options relation place.location ranges)).put
          (place.child StoredFile.catalog.name)
          (catalogFor codec options relation place.location ranges).encode) := by
  rw [relation_of_plan planned resolved]
  simp only [runsAt_memory memory, none, Stores.write, Place.child, refusal?_memory memory]
  rfl

theorem relation_stopped (planned : plan options relation = .ok ranges)
    (resolved : before.resolve path = .ok place) (memory : place.store = .memory)
    (some : failures 0 (columns codec options relation place.location ranges) ≠ []) :
    Pack.relation codec options before path relation =
      (.error (.columns (failures 0 (columns codec options relation place.location ranges))),
        before.putAll place.store (partsOf codec options relation place.location ranges)) := by
  rw [relation_of_plan planned resolved]
  simp only [runsAt_memory memory]
  rfl

/-- A report that says of each column, in order, what its own packing ends with. -/
structure InColumnOrder (codec : Codec) (options : PackOptions) (relation : Relation)
    (directory : Location) (ranges : List RowRange) (report : PackReport) : Prop where
  columns : report.columns.length = relation.columns.length
  entries : report.catalog.entries.length = relation.columns.length
  each : ∀ index column, relation.columns[index]? = some column → ∃ stats,
    (Pack.column codec options relation directory ranges index column).result = .ok stats ∧
    stats.column = index ∧ stats.name = column.name ∧ stats.type = column.type ∧
    report.columns[index]? = some stats ∧
    report.catalog.entries[index]? = some (.ofType column.type (UInt32.ofNat stats.parts))

theorem inColumnOrder
    (ended : ∀ run ∈ columns codec options relation place.location ranges, run.Ended) :
    InColumnOrder codec options relation place.location ranges
      ⟨catalogFor codec options relation place.location ranges,
        statistics (columns codec options relation place.location ranges)⟩ := by
  have counted : (statistics (columns codec options relation place.location ranges)).length =
      relation.columns.length := by
    rw [length_statistics ended, columns, List.length_map, List.length_zipIdx]
  refine ⟨counted, (List.length_map ..).trans counted, fun index column found => ?_⟩
  obtain ⟨stats, done⟩ := ended _ (mem_columns_of_getElem? found)
  obtain ⟨columnEq, nameEq, typeEq⟩ := stats_column done
  have listed : (statistics (columns codec options relation place.location ranges))[index]? =
      some stats := by
    rw [getElem?_statistics ended, getElem?_columns, found, Option.map_some, Option.bind_some, done,
      Except.toOption]
  refine ⟨stats, done, columnEq, nameEq, typeEq, listed, ?_⟩
  rw [catalogFor, catalogOf, List.getElem?_map, listed, Option.map_some, typeEq]

/-- What is left when columns fail: their first errors in ascending order, all parts of the other
data columns, and no new catalog. -/
structure ColumnsFailed (codec : Codec) (options : PackOptions) (relation : Relation)
    (before after : Stores) (place : Place) (ranges : List RowRange)
    (failed : List ColumnFailure) : Prop where
  any : failed ≠ []
  ascending : failed.Pairwise fun left right => left.column < right.column
  listed : ∀ index error, ⟨index, error⟩ ∈ failed ↔
    ∃ column, relation.columns[index]? = some column ∧ column.type ≠ .skip ∧
      FirstError codec options.verify relation column index 0 ranges error
  catalog : after.object? (place.child StoredFile.catalog.name) =
    before.object? (place.child StoredFile.catalog.name)
  others : ∀ index column, relation.columns[index]? = some column → column.type ≠ .skip →
    (∀ error, ⟨index, error⟩ ∉ failed) → ∃ packed, ∃ groups : List (List Bytes),
      packedRanges codec options.verify relation column index 0 ranges = .ok packed ∧
      groups.flatten = packed.map (·.2) ∧ (∀ group ∈ groups, group ≠ []) ∧
      ∀ part group, groups[part]? = some group →
        after.object? (place.child (StoredFile.part index part).name) =
          some (StoredPart.mk StoredPart.currentVersion column.type.tag group).encode

theorem columnsFailed (memory : place.store = .memory)
    (agrees : after.Agrees
      (before.putAll place.store (partsOf codec options relation place.location ranges)))
    (any : failures 0 (columns codec options relation place.location ranges) ≠ []) :
    ColumnsFailed codec options relation before after place ranges
      (failures 0 (columns codec options relation place.location ranges)) := by
  have listed : ∀ index error,
      ⟨index, error⟩ ∈ failures 0 (columns codec options relation place.location ranges) ↔
        ∃ column, relation.columns[index]? = some column ∧
          (Pack.column codec options relation place.location ranges index column).result =
            .error error := by
    intro index error
    rw [mem_failures_iff]
    constructor
    · rintro ⟨place, run, found, same, failed⟩
      rw [Nat.zero_add] at same
      subst same
      rw [getElem?_columns] at found
      obtain ⟨column, there, rfl⟩ := Option.map_eq_some_iff.mp found
      exact ⟨column, there, failed⟩
    · rintro ⟨column, found, failed⟩
      refine ⟨index, _, ?_, (Nat.zero_add _).symm, failed⟩
      rw [getElem?_columns, found, Option.map_some]
  refine ⟨any, pairwise_failures, ?_, ?_, ?_⟩
  · intro index error
    rw [listed]
    simp only [column_error_iff]
  · rw [agrees.object?, catalog_putAll fun _ member => member]
  · intro index column found data well
    cases done : (Pack.column codec options relation place.location ranges index column).result with
    | error error => exact (well error ((listed index error).mpr ⟨column, found, done⟩)).elim
    | ok stats =>
        have ended := done
        rw [Pack.column, if_neg data] at ended
        obtain ⟨packed, all⟩ := packedRanges_of_ok ended
          (gathers_start place.location index column.name column.type options.partMaxBytes)
        refine ⟨packed, gather options.partMaxBytes [] (packed.map (·.2)), all, flatten_gather,
          fun _ => gather_ne_nil, fun part group held => ?_⟩
        have written : ((Pack.column codec options relation place.location ranges index
            column).within (before.refusal? place.store)).writes =
              partWrites place.location index column.type
                (gather options.partMaxBytes [] (packed.map (·.2))) := by
          rw [ColumnRun.within_of_accepted fun _ _ => refusal?_memory memory before _]
          exact (column_gathered place.location data all).writes
        rw [agrees.object?, partsOf, ← runsAt_memory memory, object?_part found written, held]
        rfl

end Stores

end Columnar.Pack
