import Columnar.Part.Builder
import Columnar.Proofs.Read.Guarded
import Columnar.Proofs.Read.Reopening
import Columnar.Proofs.Read.Safety
import Columnar.Proofs.Store.Contents
import Mathlib.Data.List.Forall2

namespace Columnar

/-!
Which parts can be opened.

Opening checks the version, then the type, then the chunks in order, and the first defect is the
fault that it ends with.  A part without one gives each of its chunks, under the header that
inspection reads from it.
-/

/-- A chunk that a part of the given tag may hold. -/
def Codec.Fits (codec : Codec) (tag : UInt32) (bytes : Bytes) : Prop :=
  ∃ header, codec.inspect bytes = .ok header ∧ header.typeTag = tag

theorem Archive.Reference.length_resolve? {file : Array UInt8} {window : Window}
    {width address : Nat} {reference : Reference}
    (resolved : Reference.resolve? file window width address = some reference) :
    reference.length ≤ maxWord := by
  unfold Reference.resolve? at resolved
  split at resolved
  · rename_i distance length _ counted
    have small := Bytes.readNat?_lt counted
    split at resolved
    · split at resolved
      · cases resolved
        simp only [Bytes.capacity_four, maxWord] at small ⊢
        omega
      · contradiction
    · contradiction
  · contradiction

namespace StoredPart

structure Sound (codec : Codec) (part : StoredPart) : Prop where
  version : part.version = 1
  known : ∃ type, ColumnType.ofTag? part.typeTag = some type
  chunks : ∀ bytes ∈ part.chunks, codec.Fits part.typeTag bytes

/-- The first defect of a part. -/
inductive Refused (codec : Codec) (part : StoredPart) : PartFault → Prop
  | version (other : part.version ≠ 1) : Refused codec part (.version part.version)
  | unknownType (version : part.version = 1)
      (unknown : ColumnType.ofTag? part.typeTag = none) :
      Refused codec part (.unknownType part.typeTag)
  | chunk {front back : List Bytes} {bytes : Bytes} {error : ChunkError}
      (version : part.version = 1) (split : part.chunks = front ++ bytes :: back)
      (before : ∀ other ∈ front, codec.Fits part.typeTag other)
      (unreadable : codec.inspect bytes = .error error) :
      Refused codec part (.chunk front.length error)
  | chunkType {type : ColumnType} {front back : List Bytes} {bytes : Bytes} {header : ChunkHeader}
      (version : part.version = 1) (known : ColumnType.ofTag? part.typeTag = some type)
      (split : part.chunks = front ++ bytes :: back)
      (before : ∀ other ∈ front, codec.Fits part.typeTag other)
      (read : codec.inspect bytes = .ok header) (differs : header.typeTag ≠ part.typeTag) :
      Refused codec part (.chunkType front.length header.typeTag type)

theorem length_decodeChunks? {file : Array UInt8} {table count address start : Nat}
    {chunks : List Bytes} (decoded : decodeChunks? file table count address start = some chunks) :
    chunks.length = count := by
  induction count generalizing address start chunks with
  | zero =>
      cases decoded
      rfl
  | succ count ih =>
      simp only [decodeChunks?, Option.bind_eq_bind, Option.bind_eq_some_iff] at decoded
      obtain ⟨reference, -, rest, later, same⟩ := decoded
      cases same
      rw [List.length_cons, ih later]

/-- The number of chunks of a part is a word in its file. -/
theorem length_chunks_of_decode? {bytes : Bytes} {part : StoredPart}
    (decoded : decode? bytes = some part) : part.chunks.length ≤ maxWord := by
  simp only [decode?, Option.bind_eq_bind, Option.bind_eq_some_iff] at decoded
  obtain ⟨root, -, version, -, typeTag, -, table, resolved, decoded⟩ := decoded
  split at decoded
  · contradiction
  simp only [Option.bind_eq_some_iff] at decoded
  obtain ⟨chunks, listed, same⟩ := decoded
  cases same
  rw [length_decodeChunks? listed]
  exact Archive.Reference.length_resolve? resolved

end StoredPart

namespace PartReader

section Accessors

variable (reader : PartReader) (index : Nat)

def access : Except Error PartChunk :=
  (reader.chunk index).mapError (.unreadablePart reader.column reader.path)

def chunkBytes : Except Error Bytes := (reader.access index).map (·.bytes)

def chunkTuples : Except Error UInt32 := (reader.access index).map (·.header.tupleCount)

def chunkBitmap : Except Error Bitmap := (reader.access index).map (·.header.bitmap)

def chunkValues (codec : Codec) : Except Error Decoded := do
  let bytes ← reader.chunkBytes index
  (codec.decompress bytes).mapError .chunk

end Accessors

/-- The chunks that a reader gives, each under its header, and none behind them. -/
structure Gives (codec : Codec) (stored : List Bytes) (headers : List ChunkHeader)
    (reader : PartReader) : Prop where
  inspected : List.Forall₂ (fun bytes header => codec.inspect bytes = .ok header) stored headers
  count : reader.chunkCount = stored.length
  tuples : reader.totalTuples = total (headers.map fun header => header.tupleCount.toNat)
  inside : ∀ index bytes header, stored[index]? = some bytes → headers[index]? = some header →
    reader.chunkBytes index = .ok bytes ∧ reader.chunkTuples index = .ok header.tupleCount ∧
      reader.chunkBitmap index = .ok header.bitmap ∧
      reader.chunkValues index codec = (codec.decompress bytes).mapError .chunk
  beyond : ∀ index, reader.chunkCount ≤ index →
    let error := Error.unreadablePart reader.column reader.path (.noChunk index reader.chunkCount)
    reader.chunkBytes index = .error error ∧ reader.chunkTuples index = .error error ∧
      reader.chunkBitmap index = .error error ∧ reader.chunkValues index codec = .error error

variable {codec : Codec} {type : ColumnType}

theorem inspectAll_error {index : Nat} {stored : List Bytes} {fault : PartFault}
    (refused : inspectAll codec type index stored = .error fault) :
    ∃ front bytes back, stored = front ++ bytes :: back ∧
      (∀ other ∈ front, codec.Fits type.tag other) ∧
      ((∃ error, codec.inspect bytes = .error error ∧
          fault = .chunk (index + front.length) error) ∨
        ∃ header, codec.inspect bytes = .ok header ∧ header.typeTag ≠ type.tag ∧
          fault = .chunkType (index + front.length) header.typeTag type) := by
  induction stored generalizing index with
  | nil => contradiction
  | cons bytes rest ih =>
      rw [inspectAll] at refused
      split at refused
      · rename_i error unreadable
        cases refused
        exact ⟨[], bytes, rest, rfl, by simp, .inl ⟨error, unreadable, rfl⟩⟩
      rename_i header read
      split at refused
      · rename_i differs
        cases refused
        exact ⟨[], bytes, rest, rfl, by simp, .inr ⟨header, read, differs, rfl⟩⟩
      rename_i tag
      split at refused
      · rename_i later
        cases refused
        obtain ⟨front, bad, back, rfl, before, cause⟩ := ih later
        have place : index + (bytes :: front).length = index + 1 + front.length := by
          rw [List.length_cons]
          omega
        refine ⟨bytes :: front, bad, back, rfl, ?_, by rw [place]; exact cause⟩
        exact List.forall_mem_cons.mpr ⟨⟨header, read, Decidable.not_not.mp tag⟩, before⟩
      · contradiction

section Chunks

variable {reader : PartReader} {index : Nat} {chunk : PartChunk}

theorem access_inside (held : reader.chunks[index]? = some chunk) :
    reader.access index = .ok chunk := by
  rw [access, PartReader.chunk, held]
  rfl

theorem access_beyond (beyond : reader.chunkCount ≤ index) :
    reader.access index =
      .error (.unreadablePart reader.column reader.path (.noChunk index reader.chunkCount)) := by
  have none : reader.chunks[index]? = none := Array.getElem?_eq_none beyond
  rw [access, PartReader.chunk, none]
  rfl

theorem gives_chunks (inspected : ∀ chunk ∈ reader.chunks, chunk.Inspected codec type) :
    reader.Gives codec (reader.chunks.toList.map (·.bytes))
      (reader.chunks.toList.map (·.header)) := by
  refine ⟨?_, ?_, ?_, ?_, ?_⟩
  · rw [List.forall₂_map_left_iff, List.forall₂_map_right_iff, List.forall₂_same]
    intro chunk member
    exact (inspected chunk (Array.mem_toList_iff.mp member)).header
  · rw [chunkCount, List.length_map, Array.length_toList]
  · rw [totalTuples, List.map_map]
    rfl
  · intro index bytes header bytesHeld headerHeld
    rw [List.getElem?_map, Array.getElem?_toList] at bytesHeld headerHeld
    obtain ⟨chunk, held, rfl⟩ := Option.map_eq_some_iff.mp bytesHeld
    rw [held] at headerHeld
    cases headerHeld
    have here := access_inside held
    simp only [chunkValues, chunkBytes, chunkTuples, chunkBitmap, here]
    exact ⟨rfl, rfl, rfl, rfl⟩
  · intro index beyond
    have outside := access_beyond beyond
    simp only [chunkValues, chunkBytes, chunkTuples, chunkBitmap, outside]
    exact ⟨rfl, rfl, rfl, rfl⟩

end Chunks

/-- Opens the bytes of a part, with a fault as an error about the column and the path. -/
def opening (codec : Codec) (column : Nat) (path : String) (bytes : Bytes) :
    Except Error PartReader :=
  (ofBytes codec column path bytes).mapError (.unreadablePart column path)

section Opening

variable {column : Nat} {path : String} {part : StoredPart} {bytes : Bytes} {reader : PartReader}

theorem ofBytes_sound (decoded : StoredPart.decode? bytes = some part) (sound : part.Sound codec) :
    ∃ type chunks, type.tag = part.typeTag ∧
      inspectAll codec type 0 part.chunks = .ok chunks ∧
      ofBytes codec column path bytes = .ok ⟨column, path, type, chunks.toArray⟩ := by
  obtain ⟨version, ⟨type, known⟩, fit⟩ := sound
  have tag := ColumnType.tag_of_ofTag? known
  rw [← tag] at fit
  obtain ⟨chunks, inspected⟩ := inspectAll_ok 0 fit
  refine ⟨type, chunks, tag, inspected, ?_⟩
  simp only [ofBytes, decoded, version, StoredPart.currentVersion, ne_eq, not_true_eq_false,
    if_false, known, inspected]

theorem ofBytes_ok (decoded : StoredPart.decode? bytes = some part)
    (opened : ofBytes codec column path bytes = .ok reader) :
    part.Sound codec ∧ reader.column = column ∧ reader.path = path ∧
      reader.type.tag = part.typeTag ∧
      inspectAll codec reader.type 0 part.chunks = .ok reader.chunks.toList := by
  simp only [ofBytes, decoded] at opened
  split at opened
  · contradiction
  rename_i current
  split at opened
  · contradiction
  rename_i type known
  split at opened
  · contradiction
  rename_i chunks inspected
  cases opened
  have tag := ColumnType.tag_of_ofTag? known
  obtain ⟨bytes, headers⟩ := inspected_of_inspectAll inspected
  refine ⟨⟨Decidable.not_not.mp current, ⟨type, known⟩, ?_⟩, rfl, rfl, tag, inspected⟩
  intro chunk member
  rw [← bytes] at member
  obtain ⟨held, inside, rfl⟩ := List.mem_map.mp member
  exact ⟨held.header, (headers held inside).header, (headers held inside).tag.trans tag⟩

theorem ofBytes_refused (decoded : StoredPart.decode? bytes = some part) {fault : PartFault}
    (refused : ofBytes codec column path bytes = .error fault) : part.Refused codec fault := by
  simp only [ofBytes, decoded] at refused
  split at refused
  · rename_i other
    cases refused
    exact .version other
  rename_i current
  have version : part.version = 1 := Decidable.not_not.mp current
  split at refused
  · rename_i unknown
    cases refused
    exact .unknownType version unknown
  rename_i type known
  have tag := ColumnType.tag_of_ofTag? known
  split at refused
  · rename_i cause inspected
    cases refused
    obtain ⟨front, bad, back, split, before, error⟩ := inspectAll_error inspected
    rw [tag] at before error
    rw [Nat.zero_add] at error
    obtain ⟨error, unreadable, rfl⟩ | ⟨header, read, differs, rfl⟩ := error
    · exact .chunk version split before unreadable
    · exact .chunkType version known split before read differs
  · contradiction

theorem opening_ok (opened : opening codec column path bytes = .ok reader) :
    ofBytes codec column path bytes = .ok reader := by
  unfold opening at opened
  cases read : ofBytes codec column path bytes with
  | error fault =>
      rw [read] at opened
      contradiction
  | ok found =>
      rw [read] at opened
      cases opened
      rfl

theorem opening_error {error : Error} (refused : opening codec column path bytes = .error error) :
    ∃ fault, ofBytes codec column path bytes = .error fault ∧
      error = .unreadablePart column path fault := by
  unfold opening at refused
  cases read : ofBytes codec column path bytes with
  | error fault =>
      rw [read] at refused
      cases refused
      exact ⟨fault, rfl, rfl⟩
  | ok found =>
      rw [read] at refused
      contradiction

end Opening

/-!
The headers and the bytes of the chunks in two arrays that are filled side by side.  `none` is a
place in the bytes that is not there although the headers have it.
-/

structure Paired where
  column : Nat
  path : String
  type : ColumnType
  headers : Array ChunkHeader
  chunks : Array Bytes

namespace Paired

def ofReader (reader : PartReader) : Paired where
  column := reader.column
  path := reader.path
  type := reader.type
  headers := reader.chunks.map (·.header)
  chunks := reader.chunks.map (·.bytes)

def push (paired : Paired) (header : ChunkHeader) (bytes : Bytes) : Paired :=
  { paired with
    headers := paired.headers.push header
    chunks := paired.chunks.push bytes }

def inspectAll (codec : Codec) : Nat → List Bytes → Paired → Except PartFault Paired
  | _, [], paired => .ok paired
  | index, bytes :: rest, paired =>
      match codec.inspect bytes with
      | .error error => .error (.chunk index error)
      | .ok header =>
          if header.typeTag ≠ paired.type.tag then
            .error (.chunkType index header.typeTag paired.type)
          else
            inspectAll codec (index + 1) rest (paired.push header bytes)

def chunkBytes? (paired : Paired) (index : Nat) : Option (Except Error Bytes) :=
  match paired.headers[index]? with
  | none =>
      some (.error (.unreadablePart paired.column paired.path
        (.noChunk index paired.headers.size)))
  | some _ => do
      let bytes ← paired.chunks[index]?
      return .ok bytes

theorem type_ofReader (reader : PartReader) : (ofReader reader).type = reader.type := rfl

theorem push_ofReader (reader : PartReader) (header : ChunkHeader) (bytes : Bytes) :
    (ofReader reader).push header bytes =
      ofReader { reader with chunks := reader.chunks.push ⟨header, bytes⟩ } := by
  simp [push, ofReader]

theorem inspectAll_eq (index : Nat) (stored : List Bytes) (reader : PartReader) :
    inspectAll codec index stored (ofReader reader) =
      (PartReader.inspectAll codec reader.type index stored).map fun chunks =>
        ofReader { reader with chunks := reader.chunks ++ chunks.toArray } := by
  induction stored generalizing index reader with
  | nil =>
      simp [inspectAll, PartReader.inspectAll, Except.map]
  | cons bytes rest ih =>
      rw [inspectAll, PartReader.inspectAll]
      cases codec.inspect bytes with
      | error error => rfl
      | ok header =>
          dsimp only
          rw [push_ofReader, ih, type_ofReader]
          split
          · rfl
          · cases PartReader.inspectAll codec reader.type (index + 1) rest with
            | error fault => rfl
            | ok chunks => simp [Except.map]

theorem chunkBytes?_ofReader (reader : PartReader) (index : Nat) :
    (ofReader reader).chunkBytes? index = some (reader.chunkBytes index) := by
  cases held : reader.chunks[index]? with
  | none =>
      have beyond := access_beyond (Array.getElem?_eq_none_iff.mp held)
      simp [chunkBytes?, ofReader, held, PartReader.chunkBytes, beyond, Except.map, chunkCount]
  | some chunk =>
      have inside := access_inside held
      simp [chunkBytes?, ofReader, held, PartReader.chunkBytes, inside, Except.map]

/-- Filling both arrays comes to the reader that opening answers with. -/
theorem inspectAll_ofReader {reader : PartReader} {stored : List Bytes}
    (inspected : PartReader.inspectAll codec reader.type 0 stored = .ok reader.chunks.toList) :
    inspectAll codec 0 stored ⟨reader.column, reader.path, reader.type, #[], #[]⟩ =
      .ok (ofReader reader) := by
  have filled := @inspectAll_eq codec 0 stored { reader with chunks := #[] }
  rw [inspected] at filled
  simpa [ofReader, Except.map] using filled

end Paired

end PartReader

theorem PartBuilder.toStored_foldl_add (builder : PartBuilder) (chunks : List Bytes) :
    (chunks.foldl add builder).toStored =
      ⟨StoredPart.currentVersion, builder.type.tag, builder.chunks.toList ++ chunks⟩ := by
  induction chunks generalizing builder with
  | nil => simp [toStored]
  | cons chunk rest ih =>
      rw [List.foldl_cons, ih]
      simp [add]

namespace PartReader

open Payload.Guarded (addressable)

variable {codec : Codec}

theorem Gives.small {stored : List Bytes} {headers : List ChunkHeader} {reader : PartReader}
    (gives : reader.Gives codec stored headers) (few : stored.length ≤ maxWord) :
    reader.chunkCount ≤ maxWord ∧ reader.totalTuples < addressable := by
  rw [gives.count]
  refine ⟨few, ?_⟩
  have words : ∀ word ∈ headers.map fun header => header.tupleCount.toNat, word ≤ maxWord := by
    intro word member
    obtain ⟨header, -, rfl⟩ := List.mem_map.mp member
    have bound := header.tupleCount.toNat_lt
    simp only [maxWord]
    omega
  have sum := ColumnReader.Guarded.total_le_words words
  rw [List.length_map, ← gives.inspected.length_eq, ← gives.tuples] at sum
  have most := Nat.mul_le_mul_right maxWord few
  simp only [maxWord, addressable] at sum most ⊢
  omega

theorem gives_of_inspectAll {reader : PartReader} {stored : List Bytes}
    (inspected : inspectAll codec reader.type 0 stored = .ok reader.chunks.toList) :
    ∃ headers, reader.Gives codec stored headers := by
  obtain ⟨bytes, headers⟩ := inspected_of_inspectAll inspected
  refine ⟨reader.chunks.toList.map (·.header), ?_⟩
  rw [← bytes]
  exact gives_chunks fun chunk member => headers chunk (Array.mem_toList_iff.mpr member)

/-- Exactly the sound parts can be opened.  An opened part gives its chunks and nothing behind them,
as words count them, and two arrays filled side by side hold the same; otherwise the error is the
part's first defect.  What has been added to a part and written is read back unchanged. -/
theorem opening_iff_sound {part : StoredPart}
    (archived : StoredPart.decode? part.encode = some part) (codec : Codec) (column : Nat)
    (path : String) :
    ((∃ reader, opening codec column path part.encode = .ok reader) ↔ part.Sound codec) ∧
    (∀ reader, opening codec column path part.encode = .ok reader →
      reader.column = column ∧ reader.path = path ∧ reader.type.tag = part.typeTag ∧
        (∃ headers, reader.Gives codec part.chunks headers) ∧
        reader.chunkCount ≤ maxWord ∧ reader.totalTuples < addressable ∧
        Paired.inspectAll codec 0 part.chunks ⟨column, path, reader.type, #[], #[]⟩ =
          .ok (Paired.ofReader reader) ∧
        ∀ index, (Paired.ofReader reader).chunkBytes? index = some (reader.chunkBytes index)) ∧
    (∀ error, opening codec column path part.encode = .error error →
      ∃ fault, error = .unreadablePart column path fault ∧ part.Refused codec fault) ∧
    ∀ type maxBytes chunks,
      part = (chunks.foldl PartBuilder.add (.empty type maxBytes)).toStored →
      (∀ bytes ∈ chunks, codec.Fits type.tag bytes) →
      ∀ (stores : Stores) place after, stores.write place part.encode = .ok after →
        ∃ reader headers, ofPlace codec after column place = .ok reader ∧
          reader.type = type ∧ reader.Gives codec chunks headers := by
  have sound {path : String} (sound : part.Sound codec) :
      ∃ reader, opening codec column path part.encode = .ok reader := by
    obtain ⟨type, chunks, -, -, opened⟩ := ofBytes_sound archived sound
    exact ⟨_, by rw [opening, opened, mapError_ok]⟩
  refine ⟨⟨?_, sound⟩, ?_, ?_, ?_⟩
  · rintro ⟨reader, opened⟩
    exact (ofBytes_ok archived (opening_ok opened)).1
  · intro reader opened
    obtain ⟨-, rfl, rfl, tag, inspected⟩ := ofBytes_ok archived (opening_ok opened)
    obtain ⟨headers, gives⟩ := gives_of_inspectAll inspected
    obtain ⟨few, room⟩ := gives.small (StoredPart.length_chunks_of_decode? archived)
    exact ⟨rfl, rfl, tag, ⟨headers, gives⟩, few, room, Paired.inspectAll_ofReader inspected,
      Paired.chunkBytes?_ofReader reader⟩
  · intro error refused
    obtain ⟨fault, cause, rfl⟩ := opening_error refused
    exact ⟨fault, rfl, ofBytes_refused archived cause⟩
  · intro type maxBytes chunks built fit stores place after written
    obtain rfl : part = ⟨StoredPart.currentVersion, type.tag, chunks⟩ := by
      rw [built, PartBuilder.toStored_foldl_add]
      rfl
    obtain ⟨reader, opened⟩ := @sound place.location.text
      ⟨rfl, ⟨type, ColumnType.ofTag?_tag type⟩, fit⟩
    obtain ⟨-, -, -, tag, inspected⟩ := ofBytes_ok archived (opening_ok opened)
    obtain ⟨headers, gives⟩ := gives_of_inspectAll inspected
    refine ⟨reader, headers, ?_, ColumnType.eq_of_tag tag, gives⟩
    have read := Stores.read_of_write written
    simp only [ofPlace, read]
    exact opened

/-- A part whose second chunk is no archive. -/
theorem opening_iff_sound_brokenChunk :
    StoredPart.decode? (StoredPart.encode ⟨1, 0, [ColumnReader.nullChunk, [7]]⟩) =
        some ⟨1, 0, [ColumnReader.nullChunk, [7]]⟩ ∧
      opening .standard 2 "t/column2_part0"
          (StoredPart.encode ⟨1, 0, [ColumnReader.nullChunk, [7]]⟩) =
        .error (.unreadablePart 2 "t/column2_part0" (.chunk 1 .notAnArchive)) ∧
      StoredPart.Refused .standard ⟨1, 0, [ColumnReader.nullChunk, [7]]⟩
        (.chunk 1 .notAnArchive) := by
  have archived : StoredPart.decode? (StoredPart.encode ⟨1, 0, [ColumnReader.nullChunk, [7]]⟩) =
      some ⟨1, 0, [ColumnReader.nullChunk, [7]]⟩ := StoredPart.decode?_encode (by decide)
  have result : opening .standard 2 "t/column2_part0"
      (StoredPart.encode ⟨1, 0, [ColumnReader.nullChunk, [7]]⟩) =
        .error (.unreadablePart 2 "t/column2_part0" (.chunk 1 .notAnArchive)) := rfl
  obtain ⟨-, -, refused, -⟩ := opening_iff_sound archived .standard 2 "t/column2_part0"
  obtain ⟨fault, same, first⟩ := refused _ result
  cases same
  exact ⟨archived, result, first⟩

end PartReader

end Columnar
