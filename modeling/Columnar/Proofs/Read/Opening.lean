import Columnar.Proofs.Read.Cursor
import Columnar.Proofs.Read.Pushing

namespace Columnar

/-!
What opening a column establishes.

Every chunk of an opened column has the header that its bytes say, of the column's type, and the
cursor has as many chunks ahead of it as the catalog counts.  So walking over the chunks reaches all
of them in order, and comes to no end before.
-/

/-- A chunk under the header read from its bytes, which is of the given type. -/
structure PartChunk.Inspected (codec : Codec) (type : ColumnType) (chunk : PartChunk) : Prop where
  header : codec.inspect chunk.bytes = .ok chunk.header
  tag : chunk.header.typeTag = type.tag

namespace PartReader

variable {codec : Codec}

theorem inspected_of_inspectAll {type : ColumnType} {index : Nat} {stored : List Bytes}
    {chunks : List PartChunk} (inspected : inspectAll codec type index stored = .ok chunks) :
    chunks.map (·.bytes) = stored ∧ ∀ chunk ∈ chunks, chunk.Inspected codec type := by
  induction stored generalizing index chunks with
  | nil =>
      cases inspected
      exact ⟨rfl, by simp⟩
  | cons bytes rest ih =>
      rw [inspectAll] at inspected
      split at inspected
      · contradiction
      rename_i header read
      split at inspected
      · contradiction
      rename_i tag
      split at inspected
      · contradiction
      rename_i others later
      cases inspected
      obtain ⟨bytes, inside⟩ := ih later
      refine ⟨by rw [List.map_cons, bytes], ?_⟩
      intro chunk member
      rcases List.mem_cons.mp member with rfl | member
      · exact ⟨read, Decidable.not_not.mp tag⟩
      · exact inside chunk member

theorem inspected_of_ofBytes {column : Nat} {path : String} {bytes : Bytes} {part : PartReader}
    (opened : ofBytes codec column path bytes = .ok part) :
    ∀ chunk ∈ part.chunks, chunk.Inspected codec part.type := by
  unfold ofBytes at opened
  split at opened
  · contradiction
  split at opened
  · contradiction
  split at opened
  · contradiction
  split at opened
  · contradiction
  rename_i chunks inspected
  cases opened
  intro chunk member
  exact (inspected_of_inspectAll inspected).2 chunk (List.mem_toArray.mp member)

theorem inspected_of_ofPlace {stores : Stores} {column : Nat} {place : Place} {part : PartReader}
    (opened : ofPlace codec stores column place = .ok part) :
    ∀ chunk ∈ part.chunks, chunk.Inspected codec part.type := by
  unfold ofPlace at opened
  dsimp only at opened
  split at opened
  · contradiction
  rename_i bytes read
  cases result : ofBytes codec column place.location.text bytes with
  | error fault => rw [result] at opened; contradiction
  | ok held =>
      rw [result] at opened
      cases opened
      exact inspected_of_ofBytes result

end PartReader

namespace ColumnReader

variable {codec : Codec} {reader : ColumnReader} {stores : Stores}

theorem inspected_of_openParts {directory : Place} {column count index : Nat}
    {parts : List PartReader}
    (opened : openParts codec stores directory column count index = .ok parts) :
    parts.length = count ∧
      ∀ part ∈ parts, ∀ chunk ∈ part.chunks, chunk.Inspected codec part.type := by
  induction count generalizing index parts with
  | zero =>
      cases opened
      exact ⟨rfl, by simp⟩
  | succ count ih =>
      rw [openParts] at opened
      split at opened
      · contradiction
      rename_i first here
      split at opened
      · contradiction
      rename_i rest later
      cases opened
      obtain ⟨length, inside⟩ := ih later
      refine ⟨by rw [List.length_cons, length], ?_⟩
      intro part member
      rcases List.mem_cons.mp member with rfl | member
      · exact PartReader.inspected_of_ofPlace here
      · exact inside part member

/-- A column as it stands behind the checks of opening. -/
structure Opened (codec : Codec) (reader : ColumnReader) : Prop where
  data : reader.type ≠ .skip
  inspected : ∀ part ∈ reader.parts, ∀ chunk ∈ part.chunks, chunk.Inspected codec reader.type
  counted : reader.chunkCount = total reader.partCounts.toList
  fewParts : reader.parts.size ≤ maxWord
  fewChunks : reader.chunkCount ≤ maxWord

theorem dataType_ne_skip {catalog : Catalog} {column : Nat} {type : ColumnType}
    {entry : CatalogEntry} (found : dataType catalog column = .ok (type, entry)) :
    type ≠ .skip := by
  unfold dataType at found
  split at found
  · contradiction
  split at found
  · contradiction
  · contradiction
  · rename_i known notSkipped _
    cases found
    rintro rfl
    exact notSkipped rfl

theorem opened_of_ofCatalog {directory : Place} {catalog : Catalog} {column : Nat}
    (opened : ofCatalog codec stores directory catalog column = .ok reader) :
    Opened codec reader := by
  simp only [ofCatalog, bind, Except.bind] at opened
  split at opened
  · contradiction
  rename_i found known
  obtain ⟨type, entry⟩ := found
  split at opened
  · contradiction
  rename_i parts read
  obtain ⟨length, inside⟩ := inspected_of_openParts read
  split at opened
  · contradiction
  rename_i same
  split at opened
  · contradiction
  rename_i stored
  rw [Decidable.not_not] at stored
  cases opened
  have types : ∀ part ∈ parts, part.type = type := by
    simpa using List.find?_eq_none.mp same
  refine ⟨dataType_ne_skip known, ?_, ?_, ?_, ?_⟩
  · intro part member
    rw [List.mem_toArray] at member
    rw [← types part member]
    exact inside part member
  · simp [partCounts]
  · have bound := entry.partCount.toNat_lt
    simp only [List.size_toArray, length, maxWord]
    omega
  · have bound := catalog.chunkCount.toNat_lt
    simp only [stored, maxWord]
    omega

theorem opened_of_ofPath {path : String} {column : Nat}
    (opened : ofPath codec stores path column = .ok reader) : Opened codec reader := by
  simp only [ofPath, bind, Except.bind] at opened
  split at opened
  · contradiction
  split at opened
  · contradiction
  · exact opened_of_ofCatalog opened

end ColumnReader

end Columnar
