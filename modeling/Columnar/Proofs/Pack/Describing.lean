import Columnar.Proofs.Pack.ReadBack
import Columnar.Proofs.Read.Safety
import Columnar.Read.Description

namespace Columnar

/-!
Describing a packed relation.

Describing a directory opens each of its data columns, so it finds how many chunks every part holds,
and how many rows there are.
-/

namespace StoreDescription

theorem ofEntries_ok {stores : Stores} {directory : Place} {catalog : Catalog} {first : Nat}
    {entries : List CatalogEntry}
    (each : ∀ index entry, entries[index]? = some entry → ∃ described,
      ColumnDescription.ofEntry stores directory catalog (first + index) entry = .ok described) :
    ∃ columns, ofEntries stores directory catalog first entries = .ok columns ∧
      columns.length = entries.length ∧
      ∀ index entry, entries[index]? = some entry → ∃ described, columns[index]? = some described ∧
        ColumnDescription.ofEntry stores directory catalog (first + index) entry =
          .ok described := by
  induction entries generalizing first with
  | nil => exact ⟨[], rfl, rfl, by simp⟩
  | cons entry rest ih =>
      have shift (index : Nat) : first + 1 + index = first + (index + 1) := by omega
      obtain ⟨described, here⟩ := each 0 entry rfl
      obtain ⟨columns, later, length, others⟩ := @ih (first + 1) fun index other found =>
        shift index ▸ each (index + 1) other found
      rw [Nat.add_zero] at here
      refine ⟨described :: columns, ?_, by rw [List.length_cons, List.length_cons, length], ?_⟩
      · simp only [ofEntries, here, later, bind, Except.bind, pure, Except.pure]
      · intro index other found
        cases index with
        | zero =>
            cases found
            exact ⟨described, rfl, here⟩
        | succ index =>
            obtain ⟨known, there, said⟩ := others index other found
            exact ⟨known, there, shift index ▸ said⟩

end StoreDescription

namespace Pack

variable {codec : Codec} {options : PackOptions} {relation : Relation} {before after : Stores}
  {path : String} {place : Place} {ranges : List RowRange} {index : Nat} {column : Column}
  {values : Values} {bits : List Bool} {groups : List (List Bytes)}

/-- Whatever a range of a filled column is compressed to holds its rows. -/
def ChunksHold (codec : Codec) (options : PackOptions) (relation : Relation)
    (ranges : List RowRange) : Prop :=
  ∀ index column values bits range bytes, relation.columns[index]? = some column →
    column.Filled relation.tupleCount values bits → range ∈ ranges →
    Compressed codec options.verify index values bits range bytes →
    (chunkIn values bits range).Holds .standard bytes

theorem ChunksHold.of_compressed (hold : ChunksHold codec options relation ranges)
    (found : relation.columns[index]? = some column)
    (filled : column.Filled relation.tupleCount values bits) {chunks : List Bytes}
    (compressed : List.Forall₂ (Compressed codec options.verify index values bits) ranges chunks) :
    List.Forall₂ (fun range bytes => (chunkIn values bits range).Holds .standard bytes) ranges
      chunks :=
  ((List.forall₂_and_left _ _).mpr ⟨fun _ member => member, compressed⟩).imp
    fun range bytes pair => hold index column values bits range bytes found filled pair.1 pair.2

theorem ofEntry_skip (stores : Stores) (directory : Place) (catalog : Catalog) (index : Nat) :
    ColumnDescription.ofEntry stores directory catalog index (.ofType .skip (UInt32.ofNat 0)) =
      .ok ⟨index, "SKIP", 0, [], 0⟩ := rfl

namespace Stored

/-- A data column is described by its parts and by the rows of the relation. -/
theorem ofEntry_data (stored : Stored codec options relation before after place ranges)
    (reach : PartsReach codec options relation) (found : relation.columns[index]? = some column)
    (filled : column.Filled relation.tupleCount values bits)
    (finished : (Pack.column codec options relation place.location ranges index column).Finished
      place.location index column.type groups)
    (nonempty : ∀ group ∈ groups, group ≠ [])
    (held : List.Forall₂ (fun range bytes => (chunkIn values bits range).Holds .standard bytes)
      ranges groups.flatten) :
    ColumnDescription.ofEntry after place
        (catalogFor codec options relation place.location ranges) index
        (.ofType column.type (UInt32.ofNat groups.length)) =
      .ok ⟨index, column.type.name, groups.length, groups.map List.length,
        relation.tupleCount⟩ := by
  have type : column.type = values.type := by rw [Column.type, filled.data]
  obtain ⟨reader, opened, -, parts, reads⟩ :=
    stored.opens_reads reach found filled finished nonempty held
  have tuples : reader.tupleCount = relation.tupleCount := by
    rw [reads.tupleCount, Column.length_rowsOf filled.represents.toList filled.lengths,
      filled.valueCount]
  have count := stored.toNat_partCount nonempty held.length_eq column.type
  have known : (CatalogEntry.ofType column.type (UInt32.ofNat groups.length)).hasData = true := by
    simp only [CatalogEntry.hasData, CatalogEntry.type?, CatalogEntry.ofType,
      ColumnType.ofTag?_tag, type]
    cases values <;> rfl
  simp only [ColumnDescription.ofEntry, known, if_true, opened, count, tuples, bind, Except.bind,
    pure, Except.pure, ColumnReader.partCounts_of_parts parts]
  simp only [CatalogEntry.ofType, ColumnType.nameOfTag, ColumnType.ofTag?_tag]

theorem describe (stored : Stored codec options relation before after place ranges)
    (resolved : before.resolve path = .ok place) (sound : relation.Sound)
    (few : relation.columns.length ≤ maxWord) (reach : PartsReach codec options relation)
    (hold : ChunksHold codec options relation ranges) :
    ∃ columns, StoreDescription.ofPath after path =
        .ok ⟨catalogFor codec options relation place.location ranges, columns⟩ ∧
      columns.length = relation.columns.length ∧
      ∀ index entry,
        (catalogFor codec options relation place.location ranges).entries[index]? = some entry →
        ∃ described, columns[index]? = some described ∧
          ColumnDescription.ofEntry after place
            (catalogFor codec options relation place.location ranges) index entry =
              .ok described := by
  have each : ∀ index entry,
      (catalogFor codec options relation place.location ranges).entries[index]? = some entry →
      ∃ described, ColumnDescription.ofEntry after place
        (catalogFor codec options relation place.location ranges) (0 + index) entry =
          .ok described := by
    intro index entry known
    have inside := (List.getElem?_eq_some_iff.mp known).1
    rw [stored.length_entries] at inside
    have found : relation.columns[index]? = some relation.columns[index] :=
      List.getElem?_eq_getElem inside
    rw [Nat.zero_add]
    cases data : relation.columns[index].values with
    | none =>
        have skipped : relation.columns[index].type = .skip := by rw [Column.type, data]
        have listed := stored.getElem?_entries found (column_skip skipped)
        rw [known, skipped] at listed
        cases listed
        exact ⟨_, ofEntry_skip ..⟩
    | some values =>
        obtain ⟨bits, filled⟩ := sound _ (List.mem_of_getElem? found) values data
        obtain ⟨stats, done⟩ := stored.ended _ (mem_columns_of_getElem? found)
        obtain ⟨groups, finished, nonempty, -, compressed⟩ :=
          column_compressed stored.planned found filled done
        have listed := stored.getElem?_entries found finished
        rw [known] at listed
        cases listed
        exact ⟨_, stored.ofEntry_data reach found filled finished nonempty
          (hold.of_compressed found filled compressed)⟩
  obtain ⟨columns, made, length, said⟩ := StoreDescription.ofEntries_ok each
  refine ⟨columns, ?_, length.trans stored.length_entries, fun index entry known => ?_⟩
  · simp only [StoreDescription.ofPath, stored.resolve resolved, stored.loadCatalog few, made,
      mapError_ok, bind, Except.bind, pure, Except.pure]
  · obtain ⟨described, there, here⟩ := said index entry known
    rw [Nat.zero_add] at here
    exact ⟨described, there, here⟩

end Stored

end Pack

end Columnar
