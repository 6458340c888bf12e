import Columnar.Proofs.Pack.Partition

namespace Columnar

/-!
What the statistics of a packed column add up to.

Chunks are counted as they are added and files as they are written, so the counts agree with the
chunks and files so far at every step.  Neither depends on where a part ends, and the rows of all
ranges take the memory of the column, however they are cut.
-/

/-- The bytes that a value takes in memory. -/
def Cell.memoryBytes : Cell → Nat
  | .null => 0
  | .integer _ => 4
  | .double _ => 8
  | .string text => text.utf8ByteSize + 4

/-- The bytes that a column takes in memory. -/
def Column.memoryBytes (column : Column) : Nat :=
  match column.values with
  | none => 0
  | some values => values.memoryBytes

section Sizes

variable {column : Column} {rows : Nat} {values : Values} {bits : List Bool} {range : RowRange}
  {ranges : List RowRange}

theorem Values.memoryBytes_eq_total (values : Values) :
    values.memoryBytes = total (values.cells.map Cell.memoryBytes) := by
  cases values with
  | integers list =>
      rw [cells, List.map_map]
      exact (total_map_const 4 list).symm
  | doubles list =>
      rw [cells, List.map_map]
      exact (total_map_const 8 list).symm
  | strings list =>
      rw [cells, List.map_map]
      rfl

/-- The values of all ranges take the memory of the column. -/
theorem Values.total_slices {tupleCount chunkRows : Nat} (count : values.length = tupleCount)
    (positive : 0 < chunkRows) :
    total ((plainRanges tupleCount chunkRows (rangeCount tupleCount chunkRows)).map
      fun range => (values.slice range.start range.stop).memoryBytes) = values.memoryBytes := by
  have cells : values.cells.length = tupleCount := by rw [length_cells, count]
  rw [memoryBytes_eq_total]
  conv_rhs => rw [← flatMap_slices cells positive, List.map_flatMap, total_flatMap]
  simp only [memoryBytes_eq_total, cells_slice]

end Sizes

namespace Pack

/-- Statistics that agree with the sizes and bytes of the chunks packed so far, and with what was
written. -/
structure Accounts (index : Nat) (column : Column) (packed : List (Nat × Bytes))
    (writes : List (Location × Bytes)) (stats : ColumnStats) : Prop where
  ofColumn : stats.column = index
  name : stats.name = column.name
  type : stats.type = column.type
  chunks : stats.chunks = packed.length
  uncompressed : stats.uncompressedBytes = total (packed.map fun entry => entry.1)
  compressed : stats.compressedBytes = total (packed.map fun entry => entry.2.length)
  written : stats.writtenBytes = total (writes.map fun write => write.2.length)

section Steps

variable {codec : Codec} {options : PackOptions} {relation : Relation} {directory : Location}
  {ranges : List RowRange} {index : Nat} {column : Column} {values : Values} {bits : List Bool}
  {packed : List (Nat × Bytes)} {progress : Progress}

theorem Accounts.flush (accounts : Accounts index column packed progress.writes progress.stats)
    (directory : Location) :
    Accounts index column packed (progress.flush directory).writes
      (progress.flush directory).stats := by
  obtain ⟨ofColumn, name, type, chunks, uncompressed, compressed, written⟩ := accounts
  refine ⟨ofColumn, name, type, chunks, uncompressed, compressed, ?_⟩
  simp only [Progress.flush, List.map_cons, total_cons, written, Nat.add_comm]

theorem Accounts.add (accounts : Accounts index column packed progress.writes progress.stats)
    (directory : Location) (size : Nat) (chunk : Bytes) :
    Accounts index column (packed ++ [(size, chunk)]) (progress.add directory size chunk).writes
      (progress.add directory size chunk).stats := by
  let counted : Progress := { progress with stats := { progress.stats with
    chunks := progress.stats.chunks + 1
    uncompressedBytes := progress.stats.uncompressedBytes + size
    compressedBytes := progress.stats.compressedBytes + chunk.length } }
  have agrees : Accounts index column (packed ++ [(size, chunk)]) counted.writes
      counted.stats := by
    obtain ⟨ofColumn, name, type, chunks, uncompressed, compressed, written⟩ := accounts
    refine ⟨ofColumn, name, type, ?_, ?_, ?_, written⟩
    · rw [List.length_append, ← chunks]
      rfl
    · simp only [counted, List.map_append, List.map_singleton, total_append, total_cons, total_nil,
        Nat.add_zero, uncompressed]
    · simp only [counted, List.map_append, List.map_singleton, total_append, total_cons, total_nil,
        Nat.add_zero, compressed]
  cases room : progress.part.canAdd chunk.length with
  | true =>
      simp only [Progress.add, room, if_true]
      exact agrees
  | false =>
      simp only [Progress.add, room, Bool.false_eq_true, if_false]
      exact agrees.flush directory

theorem Accounts.reverse {writes : List (Location × Bytes)} {stats : ColumnStats}
    (accounts : Accounts index column packed writes stats) :
    Accounts index column packed writes.reverse stats := by
  obtain ⟨ofColumn, name, type, chunks, uncompressed, compressed, written⟩ := accounts
  refine ⟨ofColumn, name, type, chunks, uncompressed, compressed, ?_⟩
  rw [List.map_reverse, total_reverse, written]

/-- Ranges that can be packed are counted behind those that were packed before. -/
theorem packRanges_accounts {verify : Bool} {chunkIndex : Nat} {before : List (Nat × Bytes)}
    (done : packedRanges codec verify relation column index chunkIndex ranges = .ok packed)
    (accounts : Accounts index column before progress.writes progress.stats) :
    ∃ stats, (packRanges codec verify relation column directory chunkIndex ranges progress).result =
        .ok stats ∧
      Accounts index column (before ++ packed)
        (packRanges codec verify relation column directory chunkIndex ranges progress).writes
        stats := by
  induction ranges generalizing chunkIndex packed before progress with
  | nil =>
      cases done
      rw [packRanges, List.append_nil]
      refine ⟨_, rfl, ?_⟩
      cases progress.part.isEmpty with
      | true => exact accounts.reverse
      | false => exact (accounts.flush directory).reverse
  | cons range rest ih =>
      rw [packedRanges] at done
      split at done
      · contradiction
      rename_i entry here
      split at done
      · contradiction
      rename_i others later
      cases done
      rw [packRanges, accounts.ofColumn, here]
      obtain ⟨stats, ended, agrees⟩ := ih later (accounts.add directory entry.1 entry.2)
      rw [List.append_assoc, List.singleton_append] at agrees
      exact ⟨stats, ended, agrees⟩

/-- The statistics of a data column agree with its chunks and its files. -/
theorem column_accounts (directory : Location) (data : column.type ≠ .skip)
    (done : packedRanges codec options.verify relation column index 0 ranges = .ok packed) :
    ∃ stats, (Pack.column codec options relation directory ranges index column).result =
        .ok stats ∧
      Accounts index column packed
        (Pack.column codec options relation directory ranges index column).writes stats := by
  let first : Progress :=
    ⟨.start index column.name column.type, .empty column.type options.partMaxBytes, []⟩
  have start : Accounts index column [] first.writes first.stats :=
    ⟨rfl, rfl, rfl, rfl, rfl, rfl, rfl⟩
  rw [Pack.column, if_neg data]
  exact packRanges_accounts done start

theorem sizeBytes_of_packRange {verify : Bool} {chunkIndex size : Nat} {range : RowRange}
    {bytes : Bytes}
    (done : packRange codec verify relation column index chunkIndex range = .ok (size, bytes)) :
    column.sizeBytes range = .ok size := by
  obtain ⟨chunk?, -, packed⟩ := exists_of_bind_ok done
  cases chunk? with
  | none => contradiction
  | some chunk =>
      obtain ⟨compressed, -, sized⟩ := exists_of_bind_ok packed
      obtain ⟨found, sized, same⟩ := exists_of_bind_ok sized
      cases same
      cases known : column.sizeBytes range with
      | error fault =>
          rw [known] at sized
          contradiction
      | ok whole =>
          rw [known] at sized
          cases sized
          rfl

/-- What ranges are counted with is the memory of their values. -/
theorem sizes_of_packedRanges {verify : Bool} {chunkIndex : Nat}
    (filled : column.Filled relation.tupleCount values bits)
    (inside : ∀ range ∈ ranges, range.Inside relation.tupleCount)
    (done : packedRanges codec verify relation column index chunkIndex ranges = .ok packed) :
    (packed.map fun entry => entry.1) =
      ranges.map fun range => (values.slice range.start range.stop).memoryBytes := by
  induction ranges generalizing chunkIndex packed with
  | nil =>
      cases done
      rfl
  | cons range rest ih =>
      obtain ⟨here, others⟩ := List.forall_mem_cons.mp inside
      rw [packedRanges] at done
      split at done
      · contradiction
      rename_i entry packedHere
      split at done
      · contradiction
      rename_i more later
      cases done
      have size := sizeBytes_of_packRange packedHere
      rw [Column.sizeBytes_filled filled here] at size
      rw [List.map_cons, List.map_cons, ih others later, Except.ok.inj size]

/-- The ranges of a plan take the memory of the column that they cut. -/
theorem total_sizes (planned : plan options relation = .ok ranges)
    (filled : column.Filled relation.tupleCount values bits) {verify : Bool}
    (done : packedRanges codec verify relation column index 0 ranges = .ok packed) :
    total (packed.map fun entry => entry.1) = column.memoryBytes := by
  obtain ⟨positive, -, plain⟩ := plan_ok planned
  rw [sizes_of_packedRanges filled (fun range => mem_plan planned) done, plain,
    Column.memoryBytes, filled.data]
  exact Values.total_slices filled.valueCount positive

end Steps

/-- The statistics of a packed column: the memory that its rows take, its chunks, their bytes in its
parts, and the sizes of the files that hold the parts. -/
structure Accounted (codec : Codec) (options : PackOptions) (table : Relation) (after : Stores)
    (place : Place) (ranges : List RowRange) (catalog : Catalog) (index : Nat) (column : Column)
    (stats : ColumnStats) : Prop where
  ofColumn : stats.column = index
  name : stats.name = column.name
  type : stats.type = column.type
  rows : ∀ values, column.values = some values → values.length = table.tupleCount
  uncompressed : stats.uncompressedBytes = column.memoryBytes
  skipped : column.type = .skip →
    stats.parts = 0 ∧ stats.chunks = 0 ∧ stats.compressedBytes = 0 ∧ stats.writtenBytes = 0
  data : column.type ≠ .skip → ∃ (groups : List (List Bytes)) (files : List Bytes),
    Partitioned codec options table after place ranges catalog index column groups ∧
    stats.parts = groups.length ∧ stats.chunks = chunkCount options table ∧
    stats.compressedBytes = total (groups.flatten.map List.length) ∧
    files.length = groups.length ∧
    (∀ part bytes, files[part]? = some bytes →
      after.read (place.child (StoredFile.part index part).name) = .ok bytes) ∧
    stats.writtenBytes = total (files.map List.length)

section Reports

variable {codec other : Codec} {options more : PackOptions} {table : Relation}
  {before after : Stores} {path : String} {place : Place} {ranges : List RowRange} {index : Nat}
  {column : Column}

/-- The files that hold groups of chunks. -/
def partFiles (type : ColumnType) (groups : List (List Bytes)) : List Bytes :=
  groups.map fun group => (StoredPart.mk StoredPart.currentVersion type.tag group).encode

theorem map_snd_partWrites (directory : Location) (index : Nat) (type : ColumnType)
    (groups : List (List Bytes)) :
    (partWrites directory index type groups).map (·.2) = partFiles type groups := by
  rw [partFiles]
  conv_rhs => rw [← List.zipIdx_map_fst 0 groups]
  rw [partWrites, List.map_map, List.map_map]
  rfl

theorem Partitioned.read_partFiles {catalog : Catalog} {groups : List (List Bytes)}
    (parts : Partitioned codec options table after place ranges catalog index column groups)
    {part : Nat} {bytes : Bytes} (held : (partFiles column.type groups)[part]? = some bytes) :
    after.read (place.child (StoredFile.part index part).name) = .ok bytes := by
  rw [partFiles, List.getElem?_map] at held
  obtain ⟨group, here, rfl⟩ := Option.map_eq_some_iff.mp held
  obtain ⟨bytes, found, rfl, -⟩ := parts.files part group here
  exact found

theorem total_partWrites (directory : Location) (index : Nat) (type : ColumnType)
    (groups : List (List Bytes)) :
    total ((partWrites directory index type groups).map fun write => write.2.length) =
      total ((partFiles type groups).map List.length) := by
  rw [← map_snd_partWrites directory index, List.map_map]
  rfl

/-- The chunks of a data column, one a range, and the parts that they are gathered to. -/
theorem Stored.exists_packed (stored : Stored codec options table before after place ranges)
    (sound : table.Sound) (found : table.columns[index]? = some column)
    (data : column.type ≠ .skip) :
    ∃ values bits packed groups, column.Filled table.tupleCount values bits ∧
      packedRanges codec options.verify table column index 0 ranges = .ok packed ∧
      packed.length = chunkCount options table ∧ groups.flatten = packed.map (·.2) ∧
      (Pack.column codec options table place.location ranges index column).Finished
        place.location index column.type groups ∧
      Partitioned codec options table after place ranges
        (catalogFor codec options table place.location ranges) index column groups := by
  obtain ⟨ended, done⟩ := stored.ended _ (mem_columns_of_getElem? found)
  obtain ⟨packed, all⟩ := packedRanges_of_column data done
  cases held : column.values with
  | none => exact (data (by rw [Column.type, held])).elim
  | some values =>
      obtain ⟨bits, filled⟩ := sound column (List.mem_of_getElem? found) values held
      have finished := column_gathered place.location data all
      have compressed := compressed_of_packedRanges found filled
        (fun range => mem_plan stored.planned) all
      have count : packed.length = chunkCount options table := by
        rw [← stored.toNat_chunkCount.1, compressed.length_eq, List.length_map]
      have chunks : (gather options.partMaxBytes [] (packed.map (·.2))).flatten =
          packed.map (·.2) := by
        rw [flatten_gather, List.nil_append]
      rw [← chunks] at compressed
      exact ⟨values, bits, packed, _, filled, all, count, chunks, finished,
        stored.partitioned found filled finished (fun _ => gather_ne_nil)
          (fun _ => gather_within (by simp)) compressed⟩

theorem Stored.accounted_data (stored : Stored codec options table before after place ranges)
    (sound : table.Sound) (found : table.columns[index]? = some column)
    (data : column.type ≠ .skip) :
    ∃ stats, (Pack.column codec options table place.location ranges index column).result =
        .ok stats ∧
      Accounted codec options table after place ranges
        (catalogFor codec options table place.location ranges) index column stats := by
  obtain ⟨values, bits, packed, groups, filled, all, count, chunks, finished, parts⟩ :=
    stored.exists_packed sound found data
  obtain ⟨stats, result, accounts⟩ := column_accounts place.location data all
  obtain ⟨last, here, -, counted⟩ := finished.result
  cases result.symm.trans here
  have bytes : total (packed.map fun entry => entry.2.length) =
      total (groups.flatten.map List.length) := by
    rw [chunks, List.map_map]
    rfl
  have rows : ∀ others, column.values = some others → others.length = table.tupleCount := by
    intro others same
    cases filled.data.symm.trans same
    exact filled.valueCount
  have written := accounts.written
  rw [finished.writes, total_partWrites] at written
  exact ⟨stats, result, accounts.ofColumn, accounts.name, accounts.type, rows,
    accounts.uncompressed.trans (total_sizes stored.planned filled all),
    fun skipped => (data skipped).elim, fun _ => ⟨groups, partFiles column.type groups, parts,
      counted, accounts.chunks.trans count, accounts.compressed.trans bytes,
      List.length_map _, fun _ _ => parts.read_partFiles, written⟩⟩

/-- The statistics of a skipped column count nothing. -/
theorem accounted_skipped (catalog : Catalog) (skipped : column.type = .skip) :
    (Pack.column codec options table place.location ranges index column).result =
        .ok (.start index column.name column.type) ∧
      Accounted codec options table after place ranges catalog index column
        (.start index column.name column.type) := by
  have none : column.values = none := by
    cases held : column.values with
    | none => rfl
    | some values => exact (Column.type_ne_skip held skipped).elim
  rw [Pack.column, if_pos skipped]
  refine ⟨rfl, rfl, rfl, rfl, ?_, ?_, fun _ => ⟨rfl, rfl, rfl, rfl⟩, fun data => (data skipped).elim⟩
  · intro values held
    exact (Column.type_ne_skip held skipped).elim
  · rw [Column.memoryBytes, none]
    rfl

/-- A column's statistics are reported at its place among the columns. -/
theorem Stored.accounted (stored : Stored codec options table before after place ranges)
    (sound : table.Sound) (found : table.columns[index]? = some column) :
    ∃ stats, (statistics (columns codec options table place.location ranges))[index]? =
        some stats ∧
      Accounted codec options table after place ranges
        (catalogFor codec options table place.location ranges) index column stats := by
  rw [getElem?_statistics stored.ended, getElem?_columns, found, Option.map_some,
    Option.bind_some]
  by_cases skipped : column.type = .skip
  · obtain ⟨result, accounted⟩ := @accounted_skipped codec options table after place ranges index
      column (catalogFor codec options table place.location ranges) skipped
    exact ⟨_, by rw [result]; rfl, accounted⟩
  · obtain ⟨stats, result, accounted⟩ := stored.accounted_data sound found skipped
    exact ⟨stats, by rw [result]; rfl, accounted⟩

/-- Chunks of the same ranges are compressed to the same bytes, however they are grouped. -/
theorem Partitioned.flatten_eq {later : Stores} {catalog again : Catalog} {elsewhere : Place}
    {groups others : List (List Bytes)}
    (parts : Partitioned codec options table after place ranges catalog index column groups)
    (same : Partitioned codec more table later elsewhere ranges again index column others) :
    groups.flatten = others.flatten := by
  refine List.right_unique_forall₂' ?_ parts.compressed same.compressed
  rintro range first second ⟨chunk, cut, compressed⟩ ⟨other, again, recompressed⟩
  cases Option.some.inj (Except.ok.inj (cut.symm.trans again))
  exact Except.ok.inj (compressed.symm.trans recompressed)

theorem plan_eq {again : List RowRange} (planned : plan options table = .ok ranges)
    (replanned : plan more table = .ok again) (rows : options.chunkRows = more.chunkRows) :
    ranges = again := by
  obtain ⟨-, -, plain⟩ := plan_ok planned
  obtain ⟨-, -, same⟩ := plan_ok replanned
  rw [plain, same, chunkCount, chunkCount, rows]

theorem Accounted.compressed_eq {later : Stores} {catalog again : Catalog} {elsewhere : Place}
    {stats counted : ColumnStats}
    (accounted : Accounted codec options table after place ranges catalog index column stats)
    (recounted : Accounted codec more table later elsewhere ranges again index column counted) :
    stats.compressedBytes = counted.compressedBytes := by
  by_cases skipped : column.type = .skip
  · rw [(accounted.skipped skipped).2.2.1, (recounted.skipped skipped).2.2.1]
  · obtain ⟨groups, -, parts, -, -, bytes, -⟩ := accounted.data skipped
    obtain ⟨others, -, same, -, -, more, -⟩ := recounted.data skipped
    rw [bytes, more, parts.flatten_eq same]

/-- The statistics of a relation that is packed add up.  Of two packs they count the same memory,
and the same bytes when the same codec is given the same ranges, whatever the parts may hold and
whether or not chunks are verified. -/
theorem relation_statistics {earlier later : Stores} {elsewhere : String}
    {report recount : PackReport} (built : table.Built)
    (done : relation codec options before path table = (.ok report, after))
    (redone : relation other more earlier elsewhere table = (.ok recount, later)) :
    ∃ place target ranges cuts,
      before.resolve path = .ok place ∧ earlier.resolve elsewhere = .ok target ∧
      report.columns.length = table.columns.length ∧
      recount.columns.length = table.columns.length ∧
      ∀ (index : Nat) (column : Column), table.columns[index]? = some column →
        ∃ stats counted, report.columns[index]? = some stats ∧
          recount.columns[index]? = some counted ∧
          Accounted codec options table after place ranges report.catalog index column stats ∧
          Accounted other more table later target cuts recount.catalog index column counted ∧
          stats.uncompressedBytes = counted.uncompressedBytes ∧
          (codec = other → options.chunkRows = more.chunkRows →
            stats.compressedBytes = counted.compressedBytes) := by
  obtain ⟨place, ranges, resolved, stored, rfl⟩ := report_of_ok done
  obtain ⟨target, cuts, reached, restored, rfl⟩ := report_of_ok redone
  refine ⟨place, target, ranges, cuts, resolved, reached, stored.length_statistics,
    restored.length_statistics, fun index column found => ?_⟩
  obtain ⟨stats, reported, accounted⟩ := stored.accounted built.sound found
  obtain ⟨counted, recounted, again⟩ := restored.accounted built.sound found
  refine ⟨stats, counted, reported, recounted, accounted, again,
    accounted.uncompressed.trans again.uncompressed.symm, ?_⟩
  rintro rfl rows
  obtain rfl := plan_eq stored.planned restored.planned rows
  exact accounted.compressed_eq again

/-- Three rows in one part, and in a part for each chunk. -/
theorem relation_statistics_threeRows :
    ∃ report recount after later stats counted,
      relation (.cascade 3) inPairs (.empty "") "memory://t" threeRows = (.ok report, after) ∧
      relation (.cascade 3) { chunkRows := 2, partMaxBytes := 1 } (.empty "") "memory://t"
        threeRows = (.ok recount, later) ∧
      report.columns[0]? = some stats ∧ recount.columns[0]? = some counted ∧
      stats.uncompressedBytes = 12 ∧ counted.uncompressedBytes = 12 ∧
      stats.chunks = 2 ∧ counted.chunks = 2 ∧ stats.compressedBytes = counted.compressedBytes := by
  have packed (options : PackOptions)
      (well : (relation (.cascade 3) options (.empty "") "memory://t" threeRows).1.isOk = true) :
      ∃ report after,
        relation (.cascade 3) options (.empty "") "memory://t" threeRows = (.ok report, after) := by
    cases result : relation (.cascade 3) options (.empty "") "memory://t" threeRows with
    | mk outcome after =>
        rw [result] at well
        cases outcome with
        | error error => contradiction
        | ok report => exact ⟨report, after, rfl⟩
  obtain ⟨report, after, done⟩ := packed inPairs (by decide +kernel)
  obtain ⟨recount, later, redone⟩ :=
    packed { chunkRows := 2, partMaxBytes := 1 } (by decide +kernel)
  obtain ⟨place, target, ranges, cuts, -, -, -, -, each⟩ :=
    relation_statistics built_threeRows done redone
  obtain ⟨stats, counted, reported, recounted, accounted, again, memory, bytes⟩ := each 0 _ rfl
  obtain ⟨-, -, -, -, chunks, -⟩ := accounted.data (by decide)
  obtain ⟨-, -, -, -, same, -⟩ := again.data (by decide)
  have twelve : stats.uncompressedBytes = 12 := accounted.uncompressed
  exact ⟨report, recount, after, later, stats, counted, done, redone, reported, recounted, twelve,
    memory.symm.trans twelve, chunks, same, bytes rfl rfl⟩

end Reports

end Pack

end Columnar
