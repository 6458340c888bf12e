import Columnar.Proofs.Archive.Parts
import Columnar.Proofs.Pack.RoundTrip

namespace Columnar.Pack

/-!
The parts of a packed relation.

The parts of a data column cut its chunks, in the order of their ranges, into groups.  A group of
several chunks stays within the budget.  Beside the parts that the catalog counts there is nothing
new but the catalog.
-/

/-- A data column in parts, with the chunks of each part as a group. -/
structure Partitioned (codec : Codec) (options : PackOptions) (table : Relation) (after : Stores)
    (place : Place) (ranges : List RowRange) (catalog : Catalog) (index : Nat) (column : Column)
    (groups : List (List Bytes)) : Prop where
  compressed : List.Forall₂ (fun range bytes => ∃ chunk,
    table.inputChunk? range index = .ok (some chunk) ∧ codec.compress chunk = .ok bytes) ranges
    groups.flatten
  chunks : groups.flatten.length = catalog.chunkCount.toNat
  nonempty : ∀ group ∈ groups, group ≠ []
  within : ∀ group ∈ groups, 2 ≤ group.length →
    total (group.map List.length) ≤ options.partMaxBytes
  entry : ∃ entry, catalog.entries[index]? = some entry ∧ entry.typeTag = column.type.tag ∧
    entry.partCount.toNat = groups.length
  files : ∀ part group, groups[part]? = some group → ∃ bytes,
    after.read (place.child (StoredFile.part index part).name) = .ok bytes ∧
    bytes = StoredPart.encode ⟨StoredPart.currentVersion, column.type.tag, group⟩ ∧
    (bytes.length ≤ Archive.reach → StoredPart.decode? bytes =
      some ⟨StoredPart.currentVersion, column.type.tag, group⟩)

structure Described (table : Relation) (catalog : Catalog) (index : Nat) (column : Column)
    (groups : List (List Bytes)) (described : ColumnDescription) : Prop where
  ofColumn : described.column = index
  typeName : described.typeName = column.type.name
  parts : described.partCount = groups.length
  counts : described.chunkCounts = groups.map List.length
  positive : ∀ count ∈ described.chunkCounts, 0 < count
  chunks : total described.chunkCounts = catalog.chunkCount.toNat
  tuples : described.tupleCount = table.tupleCount

/-- A relation packed at a place: every data column in parts, skipped columns in none, a catalog
that counts them, and nothing else. -/
structure PartStructure (codec : Codec) (options : PackOptions) (table : Relation)
    (before after : Stores) (path : String) (place : Place) (ranges : List RowRange)
    (catalog : Catalog) : Prop where
  planned : plan options table = .ok ranges
  cut : ranges.length = chunkCount options table
  chunks : catalog.chunkCount.toNat = chunkCount options table
  stored : after.read (place.child StoredFile.catalog.name) = .ok catalog.encode
  data : ∀ (index : Nat) (column : Column),
    table.columns[index]? = some column → column.type ≠ .skip →
    ∃ groups, Partitioned codec options table after place ranges catalog index column groups
  skipped : ∀ (index : Nat) (column : Column),
    table.columns[index]? = some column → column.type = .skip →
    catalog.entries[index]? = some (.ofType .skip 0)
  others : ∀ other, other ≠ place.child StoredFile.catalog.name →
    (∀ (index : Nat) (column : Column) entry part,
      table.columns[index]? = some column → column.type ≠ .skip →
      catalog.entries[index]? = some entry → part < entry.partCount.toNat →
      other ≠ place.child (StoredFile.part index part).name) →
    after.object? other = before.object? other
  described : ∀ depth, codec = .cascade depth → Sized codec options table →
    ∃ columns, StoreDescription.ofPath after path = .ok ⟨catalog, columns⟩ ∧
      ∀ (index : Nat) (column : Column), table.columns[index]? = some column → column.type ≠ .skip →
        ∃ groups described,
          Partitioned codec options table after place ranges catalog index column groups ∧
          columns[index]? = some described ∧ Described table catalog index column groups described

theorem total_map_length (groups : List (List Bytes)) :
    total (groups.map List.length) = groups.flatten.length := by
  induction groups with
  | nil => rfl
  | cons group rest ih =>
      rw [List.map_cons, total_cons, ih, List.flatten_cons, List.length_append]

section Stores

variable {codec : Codec} {options : PackOptions} {table : Relation} {before after : Stores}
  {path : String} {place : Place} {ranges : List RowRange} {index depth : Nat} {column : Column}
  {values : Values} {bits : List Bool} {groups : List (List Bytes)}

theorem compress_of_compressed (planned : plan options table = .ok ranges)
    (found : table.columns[index]? = some column)
    (filled : column.Filled table.tupleCount values bits) {chunks : List Bytes}
    (compressed : List.Forall₂ (Compressed codec options.verify index values bits) ranges chunks) :
    List.Forall₂ (fun range bytes => ∃ chunk,
      table.inputChunk? range index = .ok (some chunk) ∧ codec.compress chunk = .ok bytes) ranges
      chunks := by
  refine ((List.forall₂_and_left _ _).mpr ⟨fun _ member => member, compressed⟩).imp ?_
  rintro range bytes ⟨member, chunkIndex, done⟩
  have inside := mem_plan planned member
  exact ⟨_, table.inputChunk?_filled found filled (Nat.le_of_lt inside.some) inside.within,
    compress_of_compressChunk done⟩

namespace Stored

theorem toNat_chunkCount (stored : Stored codec options table before after place ranges) :
    ranges.length = chunkCount options table ∧
      (catalogFor codec options table place.location ranges).chunkCount.toNat =
        chunkCount options table := by
  obtain ⟨-, few, plain⟩ := plan_ok stored.planned
  have length : ranges.length = chunkCount options table := by
    conv_lhs => rw [plain]
    rw [plainRanges, List.length_map, List.length_range]
  refine ⟨length, ?_⟩
  rw [catalogFor, catalogOf, UInt32.toNat_ofNat', length]
  rw [length] at few
  simp only [maxWord] at few
  omega

theorem partitioned (stored : Stored codec options table before after place ranges)
    (found : table.columns[index]? = some column)
    (filled : column.Filled table.tupleCount values bits)
    (finished : (Pack.column codec options table place.location ranges index column).Finished
      place.location index column.type groups)
    (nonempty : ∀ group ∈ groups, group ≠ [])
    (within : ∀ group ∈ groups, 2 ≤ group.length → groupBytes group ≤ options.partMaxBytes)
    (compressed : List.Forall₂ (Compressed codec options.verify index values bits) ranges
      groups.flatten) :
    Partitioned codec options table after place ranges
      (catalogFor codec options table place.location ranges) index column groups := by
  obtain ⟨length, counted⟩ := stored.toNat_chunkCount
  refine ⟨compress_of_compressed stored.planned found filled compressed, ?_, nonempty, within,
    ⟨_, stored.getElem?_entries found finished, rfl,
      stored.toNat_partCount nonempty compressed.length_eq column.type⟩, fun part group here => ?_⟩
  · rw [← compressed.length_eq, counted, length]
  · obtain ⟨inside, rfl⟩ := List.getElem?_eq_some_iff.mp here
    have held := stored.partsHeld found finished part inside
    rw [Nat.zero_add] at held
    exact ⟨_, held, rfl, StoredPart.decode?_encode⟩

theorem exists_groups (stored : Stored codec options table before after place ranges)
    (sound : table.Sound) (found : table.columns[index]? = some column)
    (data : column.type ≠ .skip) :
    ∃ values bits groups, column.Filled table.tupleCount values bits ∧
      (Pack.column codec options table place.location ranges index column).Finished
        place.location index column.type groups ∧
      List.Forall₂ (Compressed codec options.verify index values bits) ranges groups.flatten ∧
      Partitioned codec options table after place ranges
        (catalogFor codec options table place.location ranges) index column groups := by
  cases held : column.values with
  | none => exact (data (by rw [Column.type, held])).elim
  | some values =>
      obtain ⟨bits, filled⟩ := sound column (List.mem_of_getElem? found) values held
      obtain ⟨stats, done⟩ := stored.ended _ (mem_columns_of_getElem? found)
      obtain ⟨groups, finished, nonempty, within, compressed⟩ :=
        column_compressed stored.planned found filled done
      exact ⟨values, bits, groups, filled, finished, compressed,
        stored.partitioned found filled finished nonempty within compressed⟩

/-- Every object but the catalog and the parts that it counts is as before. -/
theorem object?_other (stored : Stored codec options table before after place ranges)
    (sound : table.Sound) {other : Place} (catalog : other ≠ place.child StoredFile.catalog.name)
    (parts : ∀ index column entry part, table.columns[index]? = some column →
      column.type ≠ .skip →
      (catalogFor codec options table place.location ranges).entries[index]? = some entry →
      part < entry.partCount.toNat → other ≠ place.child (StoredFile.part index part).name) :
    after.object? other = before.object? other := by
  rw [stored.left, Stores.object?_put_of_ne catalog.symm]
  apply Stores.object?_putAll_of_ne
  rintro write member rfl
  obtain ⟨run, among, written⟩ := List.mem_flatMap.mp member
  obtain ⟨index, column, found, rfl⟩ := mem_columns among
  by_cases skipped : column.type = .skip
  · rw [(column_skip skipped).writes] at written
    contradiction
  · obtain ⟨values, bits, groups, -, finished, compressed, partitioned⟩ :=
      stored.exists_groups sound found skipped
    rw [finished.writes] at written
    obtain ⟨part, group, held, rfl⟩ := mem_partWrites.mp written
    refine parts index column _ part found skipped (stored.getElem?_entries found finished) ?_ rfl
    rw [stored.toNat_partCount partitioned.nonempty compressed.length_eq]
    exact (List.getElem?_eq_some_iff.mp held).1

theorem described (stored : Stored codec options table before after place ranges)
    (resolved : before.resolve path = .ok place) (sound : table.Sound)
    (few : table.columns.length ≤ maxWord) (reach : PartsReach codec options table)
    (hold : ChunksHold codec options table ranges) :
    ∃ columns, StoreDescription.ofPath after path =
        .ok ⟨catalogFor codec options table place.location ranges, columns⟩ ∧
      ∀ index column, table.columns[index]? = some column → column.type ≠ .skip →
        ∃ groups described,
          Partitioned codec options table after place ranges
            (catalogFor codec options table place.location ranges) index column groups ∧
          columns[index]? = some described ∧
          Described table (catalogFor codec options table place.location ranges) index column groups
            described := by
  obtain ⟨columns, made, -, said⟩ := stored.describe resolved sound few reach hold
  refine ⟨columns, made, fun index column found data => ?_⟩
  obtain ⟨values, bits, groups, filled, finished, compressed, parts⟩ :=
    stored.exists_groups sound found data
  obtain ⟨described, there, here⟩ := said index _ (stored.getElem?_entries found finished)
  rw [stored.ofEntry_data reach found filled finished parts.nonempty
    (hold.of_compressed found filled compressed)] at here
  cases here
  refine ⟨groups, _, parts, there, rfl, rfl, rfl, rfl, ?_, ?_, rfl⟩
  · intro count member
    obtain ⟨group, among, rfl⟩ := List.mem_map.mp member
    exact List.length_pos_iff.mpr (parts.nonempty group among)
  · rw [total_map_length, parts.chunks]

end Stored

/-- Packing leaves every data column in parts, whatever the codec compresses its chunks to. -/
theorem relation_partitioned {report : PackReport} (built : table.Built)
    (resolved : before.resolve path = .ok place)
    (done : relation codec options before path table = (.ok report, after)) :
    ∃ ranges, PartStructure codec options table before after path place ranges report.catalog := by
  obtain ⟨found, ranges, same, stored, catalog⟩ := stored_report_of_ok done
  rw [resolved] at same
  cases same
  obtain ⟨length, counted⟩ := stored.toNat_chunkCount
  rw [catalog]
  refine ⟨ranges, stored.planned, length, counted, stored.read_catalog, ?_, ?_, ?_, ?_⟩
  · intro index column found data
    obtain ⟨values, bits, groups, -, -, -, parts⟩ := stored.exists_groups built.sound found data
    exact ⟨groups, parts⟩
  · intro index column found skipped
    have entry := stored.getElem?_entries found (column_skip skipped)
    rw [skipped] at entry
    exact entry
  · intro other differs parts
    exact stored.object?_other built.sound differs parts
  · rintro depth rfl sized
    exact stored.described resolved built.sound sized.columns sized.parts
      (sized.chunksFit.chunksHold stored.planned)

theorem relation_partitioned_threeRows :
    ∃ report after groups columns,
      relation (.cascade 3) inPairs (.empty "") "memory://t" threeRows = (.ok report, after) ∧
      Partitioned (.cascade 3) inPairs threeRows after ⟨.memory, ⟨["t"]⟩⟩ [⟨0, 2⟩, ⟨2, 3⟩]
        report.catalog 0 (.ofParts "n" (some (.integers [7, integerPlaceholder, -1]))
          (.ofList [true, false, true])) groups ∧
      report.catalog.entries[1]? = some (.ofType .skip 0) ∧
      StoreDescription.ofPath after "memory://t" = .ok ⟨report.catalog, columns⟩ := by
  have packed : (relation (.cascade 3) inPairs (.empty "") "memory://t" threeRows).1.isOk = true := by
    decide +kernel
  cases result : relation (.cascade 3) inPairs (.empty "") "memory://t" threeRows with
  | mk outcome after =>
      rw [result] at packed
      cases outcome with
      | error error => contradiction
      | ok report =>
          have resolved : (Stores.empty "").resolve "memory://t" = .ok ⟨.memory, ⟨["t"]⟩⟩ := rfl
          obtain ⟨ranges, parts⟩ := relation_partitioned built_threeRows resolved result
          have planned := parts.planned
          rw [plan_threeRows] at planned
          cases planned
          obtain ⟨groups, partitioned⟩ := parts.data 0 _ rfl (by decide)
          obtain ⟨columns, described, -⟩ := parts.described 3 rfl sized_threeRows
          exact ⟨report, after, groups, columns, rfl, partitioned, parts.skipped 1 _ rfl rfl,
            described⟩

end Stores

end Columnar.Pack
