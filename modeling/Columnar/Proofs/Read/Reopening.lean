import Columnar.Proofs.Archive.Parts
import Columnar.Proofs.Pack.Parts
import Columnar.Proofs.Read.Walk

namespace Columnar

/-!
Opening what packing has written.

Parts that stand at their places, and whose chunks carry headers of the column's type, open; the
reader then has the chunks of all parts in order.
-/

namespace PartReader

variable {codec : Codec} {type : ColumnType}

theorem inspectAll_ok (index : Nat) {stored : List Bytes}
    (headers : ∀ bytes ∈ stored, ∃ header, codec.inspect bytes = .ok header ∧
      header.typeTag = type.tag) :
    ∃ chunks, inspectAll codec type index stored = .ok chunks := by
  induction stored generalizing index with
  | nil => exact ⟨[], rfl⟩
  | cons bytes rest ih =>
      obtain ⟨header, read, tag⟩ := headers bytes (by simp)
      obtain ⟨chunks, later⟩ := ih (index + 1) fun other member =>
        headers other (by simp [member])
      refine ⟨⟨header, bytes⟩ :: chunks, ?_⟩
      simp only [inspectAll, read, tag, ne_eq, not_true_eq_false, if_false, later]

/-- A written part of chunks with headers opens as those chunks. -/
theorem ofBytes_encode (column : Nat) (path : String) {group : List Bytes}
    (near : (StoredPart.encode ⟨StoredPart.currentVersion, type.tag, group⟩).length ≤ Archive.reach)
    (headers : ∀ bytes ∈ group, ∃ header, codec.inspect bytes = .ok header ∧
      header.typeTag = type.tag) :
    ∃ part, ofBytes codec column path
        (StoredPart.encode ⟨StoredPart.currentVersion, type.tag, group⟩) = .ok part ∧
      part.type = type ∧ part.chunks.toList.map (·.bytes) = group := by
  obtain ⟨chunks, inspected⟩ := inspectAll_ok 0 headers
  refine ⟨⟨column, path, type, chunks.toArray⟩, ?_, rfl, (inspected_of_inspectAll inspected).1⟩
  simp only [ofBytes, StoredPart.decode?_encode near, ne_eq, not_true_eq_false, if_false,
    ColumnType.ofTag?_tag, inspected]

end PartReader

namespace ColumnReader

variable {codec : Codec} {stores : Stores} {directory : Place} {type : ColumnType} {column : Nat}
  {groups : List (List Bytes)}

/-- The parts of a column stand at their places, from an index on. -/
def PartsHeld (stores : Stores) (directory : Place) (column : Nat) (type : ColumnType)
    (groups : List (List Bytes)) (first : Nat) : Prop :=
  ∀ index (inside : index < groups.length),
    stores.read (directory.child (StoredFile.part column (first + index)).name) =
      .ok (StoredPart.encode ⟨StoredPart.currentVersion, type.tag, groups[index]⟩)

/-- The groups fit files and their chunks have headers of the type. -/
structure Readable (codec : Codec) (type : ColumnType) (groups : List (List Bytes)) : Prop where
  near : ∀ group ∈ groups,
    (StoredPart.encode ⟨StoredPart.currentVersion, type.tag, group⟩).length ≤ Archive.reach
  headers : ∀ bytes ∈ groups.flatten, ∃ header, codec.inspect bytes = .ok header ∧
    header.typeTag = type.tag

theorem openParts_ok {first : Nat} (held : PartsHeld stores directory column type groups first)
    (readable : Readable codec type groups) :
    ∃ parts, openParts codec stores directory column groups.length first = .ok parts ∧
      (∀ part ∈ parts, part.type = type) ∧
      parts.map (fun part => part.chunks.toList.map (·.bytes)) = groups := by
  induction groups generalizing first with
  | nil => exact ⟨[], rfl, by simp, rfl⟩
  | cons group rest ih =>
      have here := held 0 (by simp)
      rw [Nat.add_zero, List.getElem_cons_zero] at here
      have later : PartsHeld stores directory column type rest (first + 1) := by
        intro index inside
        have shifted := held (index + 1) (by simpa using inside)
        have place : first + 1 + index = first + (index + 1) := by omega
        rw [place, shifted, List.getElem_cons_succ]
      obtain ⟨part, opened, typed, bytes⟩ := PartReader.ofBytes_encode column
        (directory.child (StoredFile.part column first).name).location.text
        (readable.near group (by simp)) fun bytes member =>
          readable.headers bytes (by simp [member])
      obtain ⟨parts, others, types, chunks⟩ := ih later
        ⟨fun other member => readable.near other (by simp [member]),
          fun other member => readable.headers other (by
            rw [List.flatten_cons]
            exact List.mem_append_right _ member)⟩
      refine ⟨part :: parts, ?_, ?_, ?_⟩
      · simp only [List.length_cons, openParts, PartReader.ofPlace, here, opened, mapError_ok,
          others]
      · intro other member
        rcases List.mem_cons.mp member with rfl | member
        · exact typed
        · exact types other member
      · rw [List.map_cons, bytes, chunks]

theorem bytes_chunks {reader : ColumnReader}
    (parts : reader.parts.toList.map (fun part => part.chunks.toList.map (·.bytes)) = groups) :
    reader.chunks.map (·.bytes) = groups.flatten := by
  rw [← parts, chunks, List.map_flatMap, List.flatMap_def]

theorem partCounts_of_parts {reader : ColumnReader}
    (parts : reader.parts.toList.map (fun part => part.chunks.toList.map (·.bytes)) = groups) :
    reader.partCounts.toList = groups.map List.length := by
  rw [← parts, partCounts, Array.toList_map, List.map_map]
  refine List.map_congr_left fun part _ => ?_
  rw [Function.comp_apply, List.length_map, Array.length_toList, PartReader.chunkCount]

/-- A column opens when the catalog names its type, its parts and the number of its chunks. -/
theorem ofCatalog_ok {catalog : Catalog}
    (entry : catalog.entries[column]? = some (.ofType type (UInt32.ofNat groups.length)))
    (data : type ≠ .skip) (few : groups.length ≤ maxWord)
    (counted : catalog.chunkCount.toNat = groups.flatten.length)
    (held : PartsHeld stores directory column type groups 0)
    (readable : Readable codec type groups) :
    ∃ reader, ofCatalog codec stores directory catalog column = .ok reader ∧
      reader.type = type ∧
      reader.parts.toList.map (fun part => part.chunks.toList.map (·.bytes)) = groups := by
  obtain ⟨parts, opened, types, chunks⟩ := openParts_ok held readable
  have known : dataType catalog column =
      .ok (type, .ofType type (UInt32.ofNat groups.length)) := by
    simp only [dataType, entry, CatalogEntry.type?, CatalogEntry.ofType, ColumnType.ofTag?_tag]
  have count : (CatalogEntry.ofType type (UInt32.ofNat groups.length)).partCount.toNat =
      groups.length := by
    rw [CatalogEntry.ofType, UInt32.toNat_ofNat']
    simp only [maxWord] at few
    omega
  have same : parts.find? (fun part => part.type ≠ type) = none := by
    rw [List.find?_eq_none]
    intro part member
    simpa using types part member
  have stored : total (parts.map PartReader.chunkCount) = catalog.chunkCount.toNat := by
    let reader : ColumnReader := ⟨column, type, 0, parts.toArray⟩
    have bytes : reader.chunks.map (·.bytes) = groups.flatten := bytes_chunks chunks
    have lengths := congrArg List.length bytes
    rw [List.length_map, reader.length_chunks, ← counted] at lengths
    rw [← lengths, partCounts, Array.toList_map]
  refine ⟨⟨column, type, total (parts.map PartReader.chunkCount), parts.toArray⟩, ?_, rfl, chunks⟩
  simp only [ofCatalog, known, count, opened, bind, Except.bind, same, stored, ne_eq,
    not_true_eq_false, if_false]
  rfl

end ColumnReader

end Columnar
