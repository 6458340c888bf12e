import Columnar.Proofs.Archive.Catalogs
import Columnar.Proofs.Pack.Columns
import Columnar.Proofs.Read.Reopening
import Columnar.Proofs.Store.Contents

namespace Columnar.Pack

/-!
Packing all columns of a relation.

When packing succeeds every column has ended well and the store took all parts, then the catalog.
`Stored` says this of the stores before and after; from it follows what a reader finds: the catalog,
and each part of each column at its place.
-/

section Runs

variable {runs : List ColumnRun} {run : ColumnRun}

def ColumnRun.Ended (run : ColumnRun) : Prop := ∃ stats, run.result = .ok stats

theorem failures_eq_nil_iff {index : Nat} :
    failures index runs = [] ↔ ∀ run ∈ runs, run.Ended := by
  induction runs generalizing index with
  | nil => simp [failures]
  | cons run rest ih =>
      rw [failures]
      cases done : run.result with
      | error error => simp [ColumnRun.Ended, done]
      | ok stats => simp [ih, ColumnRun.Ended, done]

theorem getElem?_statistics (ended : ∀ run ∈ runs, run.Ended) (index : Nat) :
    (statistics runs)[index]? = runs[index]?.bind fun run => run.result.toOption := by
  induction runs generalizing index with
  | nil => rfl
  | cons run rest ih =>
      obtain ⟨stats, done⟩ := ended run (by simp)
      have first : statistics (run :: rest) = stats :: statistics rest := by
        simp [statistics, done, Except.toOption]
      rw [first]
      cases index with
      | zero => simp [done, Except.toOption]
      | succ index => exact ih (fun other member => ended other (by simp [member])) index

theorem length_statistics (ended : ∀ run ∈ runs, run.Ended) :
    (statistics runs).length = runs.length := by
  induction runs with
  | nil => rfl
  | cons run rest ih =>
      obtain ⟨stats, done⟩ := ended run (by simp)
      have later := ih fun other member => ended other (by simp [member])
      simpa [statistics, done, Except.toOption] using later

variable {refusal? : Location → Option AccessFault}

theorem ColumnRun.within_of_accepted
    (accepted : ∀ write ∈ run.writes, refusal? write.1 = none) : run.within refusal? = run := by
  have none : (run.writes.findSome? fun write => refusal? write.1) = none := by
    rw [List.findSome?_eq_none_iff]
    exact accepted
  simp only [ColumnRun.within, none]

theorem map_within (accepted : ∀ run ∈ runs, ∀ write ∈ run.writes, refusal? write.1 = none) :
    runs.map (ColumnRun.within refusal?) = runs := by
  conv_rhs => rw [← List.map_id runs]
  exact List.map_congr_left fun run member => ColumnRun.within_of_accepted (accepted run member)

/-- A run in a store ends well only when it does by itself and no write is refused. -/
theorem ColumnRun.Ended.of_within (ended : (run.within refusal?).Ended) :
    run.Ended ∧ ∀ write ∈ run.writes, refusal? write.1 = none := by
  cases found : run.writes.findSome? fun write => refusal? write.1 with
  | none =>
      have accepted := List.findSome?_eq_none_iff.mp found
      rw [within_of_accepted accepted] at ended
      exact ⟨ended, accepted⟩
  | some fault =>
      obtain ⟨stats, done⟩ := ended
      simp [ColumnRun.within, found] at done

end Runs

section Columns

variable {codec : Codec} {options : PackOptions} {relation : Relation} {directory : Location}
  {ranges : List RowRange} {index : Nat} {column : Column} {run : ColumnRun}

theorem getElem?_columns (codec : Codec) (options : PackOptions) (relation : Relation)
    (directory : Location) (ranges : List RowRange) (index : Nat) :
    (columns codec options relation directory ranges)[index]? =
      relation.columns[index]?.map
        (Pack.column codec options relation directory ranges index) := by
  rw [columns, List.getElem?_map, List.getElem?_zipIdx, Option.map_map, Nat.zero_add]
  rfl

theorem mem_columns_of_getElem? (found : relation.columns[index]? = some column) :
    Pack.column codec options relation directory ranges index column ∈
      columns codec options relation directory ranges :=
  List.mem_of_getElem? (by rw [getElem?_columns, found, Option.map_some])

theorem mem_columns (member : run ∈ columns codec options relation directory ranges) :
    ∃ index column, relation.columns[index]? = some column ∧
      run = Pack.column codec options relation directory ranges index column := by
  obtain ⟨index, here⟩ := List.mem_iff_getElem?.mp member
  rw [getElem?_columns] at here
  obtain ⟨column, found, same⟩ := Option.map_eq_some_iff.mp here
  exact ⟨index, column, found, same.symm⟩

/-- A column that ended well wrote groups of chunks, whatever they hold. -/
theorem exists_finished
    (ended : (Pack.column codec options relation directory ranges index column).Ended) :
    ∃ groups, (Pack.column codec options relation directory ranges index column).Finished directory
      index column.type groups := by
  by_cases skipped : column.type = .skip
  · exact ⟨[], column_skip skipped⟩
  · obtain ⟨stats, done⟩ := ended
    obtain ⟨packed, all⟩ := packedRanges_of_column skipped done
    exact ⟨_, column_gathered directory skipped all⟩

theorem mem_partWrites {type : ColumnType} {groups : List (List Bytes)}
    {write : Location × Bytes} :
    write ∈ partWrites directory index type groups ↔
      ∃ part group, groups[part]? = some group ∧
        write = partWrite directory index type group part := by
  unfold partWrites
  constructor
  · intro member
    obtain ⟨⟨group, part⟩, inside, rfl⟩ := List.mem_map.mp member
    exact ⟨part, group, List.mem_zipIdx_iff_getElem?.mp inside, rfl⟩
  · rintro ⟨part, group, inside, rfl⟩
    exact List.mem_map.mpr ⟨(group, part), List.mem_zipIdx_iff_getElem?.mpr inside, rfl⟩

end Columns

def partsOf (codec : Codec) (options : PackOptions) (relation : Relation) (directory : Location)
    (ranges : List RowRange) : List (Location × Bytes) :=
  (columns codec options relation directory ranges).flatMap (·.writes)

def catalogFor (codec : Codec) (options : PackOptions) (relation : Relation) (directory : Location)
    (ranges : List RowRange) : Catalog :=
  catalogOf ranges.length (statistics (columns codec options relation directory ranges))

/-- The stores before and after a relation was packed at a place. -/
structure Stored (codec : Codec) (options : PackOptions) (relation : Relation)
    (before after : Stores) (place : Place) (ranges : List RowRange) : Prop where
  planned : plan options relation = .ok ranges
  ended : ∀ run ∈ columns codec options relation place.location ranges, run.Ended
  taken : ∀ write ∈ partsOf codec options relation place.location ranges,
    before.Takes place.store write.1
  last : (before.putAll place.store (partsOf codec options relation place.location ranges)).Takes
    place.store (place.location.child StoredFile.catalog.name)
  left : after =
    (before.putAll place.store (partsOf codec options relation place.location ranges)).put
      (place.child StoredFile.catalog.name)
      (catalogFor codec options relation place.location ranges).encode

variable {codec : Codec} {options : PackOptions} {relation : Relation} {before after : Stores}
  {path : String} {place : Place} {ranges : List RowRange}

/-- What the columns write at a place that may refuse writes. -/
def runsAt (codec : Codec) (options : PackOptions) (relation : Relation) (stores : Stores)
    (place : Place) (ranges : List RowRange) : List ColumnRun :=
  (columns codec options relation place.location ranges).map
    (ColumnRun.within (stores.refusal? place.store))

/-- Packing is refused before anything is written, or there are ranges and a place. -/
theorem relation_cases (codec : Codec) (options : PackOptions) (before : Stores) (path : String)
    (relation : Relation) :
    (∃ error, Pack.relation codec options before path relation = (.error (.single error), before)) ∨
      ∃ place ranges, before.resolve path = .ok place ∧ plan options relation = .ok ranges := by
  cases planned : plan options relation with
  | error error =>
      left
      simp only [Pack.relation, planned, bind, Except.bind]
      exact ⟨_, rfl⟩
  | ok ranges =>
      cases resolved : before.resolve path with
      | error fault =>
          left
          simp only [Pack.relation, planned, resolved, mapError_error, bind, Except.bind]
          exact ⟨_, rfl⟩
      | ok place => exact .inr ⟨place, ranges, rfl, rfl⟩

theorem relation_of_plan (planned : plan options relation = .ok ranges)
    (resolved : before.resolve path = .ok place) :
    Pack.relation codec options before path relation =
      let runs := runsAt codec options relation before place ranges
      let packed := before.putAll place.store (runs.flatMap (·.writes))
      match failures 0 runs with
      | [] =>
          let catalog := catalogOf ranges.length (statistics runs)
          match packed.write (place.child StoredFile.catalog.name) catalog.encode with
          | .ok written => (.ok ⟨catalog, statistics runs⟩, written)
          | .error fault => (.error (.single (.access fault)), packed)
      | failed => (.error (.columns failed), packed) := by
  simp only [Pack.relation, planned, resolved, mapError_ok, bind, Except.bind, pure, Except.pure]
  rfl

/-- Packing that succeeds reports the catalog that it stored and the statistics of its columns. -/
theorem report_of_ok {report : PackReport}
    (done : Pack.relation codec options before path relation = (.ok report, after)) :
    ∃ place ranges, before.resolve path = .ok place ∧
      Stored codec options relation before after place ranges ∧
      report = ⟨catalogFor codec options relation place.location ranges,
        statistics (columns codec options relation place.location ranges)⟩ := by
  rcases relation_cases codec options before path relation with
    ⟨error, refused⟩ | ⟨place, ranges, resolved, planned⟩
  · rw [refused] at done
    simp at done
  · rw [relation_of_plan planned resolved] at done
    dsimp only at done
    split at done
    · rename_i well
      have within := failures_eq_nil_iff.mp well
      have each : ∀ run ∈ columns codec options relation place.location ranges, run.Ended ∧
          ∀ write ∈ run.writes, before.refusal? place.store write.1 = none :=
        fun run member => (within _ (List.mem_map_of_mem member)).of_within
      rw [runsAt, map_within fun run member => (each run member).2] at done
      unfold Stores.write at done
      split at done
      · rename_i kept
        split at kept
        · contradiction
        rename_i accepted
        cases kept
        cases done
        refine ⟨place, ranges, resolved, ⟨planned, fun run member => (each run member).1, ?_,
          Stores.takes_of_refusal? accepted, rfl⟩, rfl⟩
        intro write member
        obtain ⟨run, among, inside⟩ := List.mem_flatMap.mp member
        exact Stores.takes_of_refusal? ((each run among).2 write inside)
      · simp at done
    · simp at done

theorem stored_report_of_ok {report : PackReport}
    (done : Pack.relation codec options before path relation = (.ok report, after)) :
    ∃ place ranges, before.resolve path = .ok place ∧
      Stored codec options relation before after place ranges ∧
      report.catalog = catalogFor codec options relation place.location ranges := by
  obtain ⟨place, ranges, resolved, stored, rfl⟩ := report_of_ok done
  exact ⟨place, ranges, resolved, stored, rfl⟩

theorem stored_of_ok {report : PackReport}
    (done : Pack.relation codec options before path relation = (.ok report, after)) :
    ∃ place ranges, before.resolve path = .ok place ∧
      Stored codec options relation before after place ranges := by
  obtain ⟨place, ranges, resolved, stored, -⟩ := stored_report_of_ok done
  exact ⟨place, ranges, resolved, stored⟩

/-- In memory packing succeeds when every column ends well. -/
theorem exists_report_of_ended (planned : plan options relation = .ok ranges)
    (resolved : before.resolve path = .ok place) (memory : place.store = .memory)
    (ended : ∀ run ∈ columns codec options relation place.location ranges, run.Ended) :
    ∃ report after, Pack.relation codec options before path relation = (.ok report, after) := by
  have accepted (stores : Stores) (location : Location) :
      stores.refusal? place.store location = none := by
    rw [memory, Stores.refusal?]
  have same : runsAt codec options relation before place ranges =
      columns codec options relation place.location ranges :=
    map_within fun run _ write _ => accepted before write.1
  have well : failures 0 (columns codec options relation place.location ranges) = [] :=
    failures_eq_nil_iff.mpr ended
  rw [relation_of_plan planned resolved]
  simp only [same, well, Stores.write, Place.child, accepted]
  exact ⟨_, _, rfl⟩

namespace Stored

variable {index : Nat} {column : Column} {groups : List (List Bytes)}

theorem resolve (stored : Stored codec options relation before after place ranges)
    (resolved : before.resolve path = .ok place) : after.resolve path = .ok place := by
  unfold Stores.resolve at resolved ⊢
  rw [stored.left, Stores.directory_put, Stores.directory_putAll]
  exact resolved

theorem length_statistics (stored : Stored codec options relation before after place ranges) :
    (statistics (columns codec options relation place.location ranges)).length =
      relation.columns.length := by
  rw [Pack.length_statistics stored.ended, columns, List.length_map, List.length_zipIdx]

theorem length_entries (stored : Stored codec options relation before after place ranges) :
    (catalogFor codec options relation place.location ranges).entries.length =
      relation.columns.length := by
  rw [catalogFor, catalogOf, List.length_map, stored.length_statistics]

/-- The catalog has an entry for each column, with its type and its number of parts. -/
theorem getElem?_entries (stored : Stored codec options relation before after place ranges)
    (found : relation.columns[index]? = some column)
    (finished : (Pack.column codec options relation place.location ranges index column).Finished
      place.location index column.type groups) :
    (catalogFor codec options relation place.location ranges).entries[index]? =
      some (.ofType column.type (UInt32.ofNat groups.length)) := by
  obtain ⟨stats, done, type, parts⟩ := finished.result
  rw [catalogFor, catalogOf, List.getElem?_map, getElem?_statistics stored.ended, getElem?_columns,
    found, Option.map_some, Option.bind_some, done, Except.toOption, Option.map_some, type, parts]

theorem read_catalog (stored : Stored codec options relation before after place ranges) :
    after.read (place.child StoredFile.catalog.name) =
      .ok (catalogFor codec options relation place.location ranges).encode := by
  rw [stored.left]
  exact stored.last.keeps_put.read

theorem loadCatalog (stored : Stored codec options relation before after place ranges)
    (few : relation.columns.length ≤ maxWord) :
    loadCatalog after place = .ok (catalogFor codec options relation place.location ranges) := by
  have counted : (catalogFor codec options relation place.location ranges).entries.length ≤
      maxWord := by
    rw [stored.length_entries]
    exact few
  have decoded := Catalog.decode_encode counted
  simp only [Columnar.loadCatalog, stored.read_catalog, decoded, mapError_ok, bind, Except.bind]

theorem mem_partsOf (stored : Stored codec options relation before after place ranges)
    {write : Location × Bytes}
    (member : write ∈ partsOf codec options relation place.location ranges) :
    ∃ index column part, relation.columns[index]? = some column ∧
      write ∈ (Pack.column codec options relation place.location ranges index column).writes ∧
      write.1 = place.location.child (StoredFile.part index part).name := by
  obtain ⟨run, among, inside⟩ := List.mem_flatMap.mp member
  obtain ⟨index, column, found, rfl⟩ := mem_columns among
  obtain ⟨groups, finished⟩ := exists_finished (stored.ended _ among)
  rw [finished.writes] at inside
  obtain ⟨part, group, -, rfl⟩ := mem_partWrites.mp inside
  refine ⟨index, column, part, found, ?_, rfl⟩
  rw [finished.writes]
  exact inside

theorem partsHeld (stored : Stored codec options relation before after place ranges)
    (found : relation.columns[index]? = some column)
    (finished : (Pack.column codec options relation place.location ranges index column).Finished
      place.location index column.type groups) :
    ColumnReader.PartsHeld after place index column.type groups 0 := by
  intro part inside
  have here : groups[part]? = some groups[part] := List.getElem?_eq_getElem inside
  have member : partWrite place.location index column.type groups[part] part ∈
      partsOf codec options relation place.location ranges := by
    refine List.mem_flatMap.mpr ⟨_, mem_columns_of_getElem? found, ?_⟩
    rw [finished.writes]
    exact mem_partWrites.mpr ⟨part, groups[part], here, rfl⟩
  have beside : ∀ write ∈ partsOf codec options relation place.location ranges,
      Stores.Beside write.1 (place.location.child (StoredFile.part index part).name) := by
    intro write among
    obtain ⟨_, _, _, _, _, location⟩ := stored.mem_partsOf among
    rw [location]
    exact Stores.beside_child ..
  have agree : ∀ write ∈ partsOf codec options relation place.location ranges,
      write.1 = place.location.child (StoredFile.part index part).name →
        write.2 = (partWrite place.location index column.type groups[part] part).2 := by
    intro write among same
    obtain ⟨otherIndex, otherColumn, otherPart, otherFound, written, location⟩ :=
      stored.mem_partsOf among
    obtain ⟨rfl, -⟩ := StoredFile.part.inj (StoredFile.child_injective (location.symm.trans same))
    rw [found] at otherFound
    cases otherFound
    rw [finished.writes] at written
    obtain ⟨position, group, held, written⟩ := mem_partWrites.mp written
    rw [written] at same ⊢
    obtain ⟨-, rfl⟩ := StoredFile.part.inj (StoredFile.child_injective same)
    rw [here] at held
    cases held
    rfl
  have differs : place.location.child StoredFile.catalog.name ≠
      place.location.child (StoredFile.part index part).name := by
    intro same
    cases StoredFile.child_injective same
  have kept := (stored.taken _ member).keeps_putAll beside member agree
  rw [Nat.zero_add, stored.left]
  exact (kept.put (Stores.beside_child ..) differs).read

end Stored

end Columnar.Pack
