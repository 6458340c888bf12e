import Columnar.Proofs.Archive.Chunks
import Columnar.Proofs.Chunk.Bitmap
import Columnar.Proofs.Chunk.Choice
import Columnar.Proofs.Chunk.Holding
import Columnar.Proofs.Chunk.Inspection
import Columnar.Proofs.Lz4.Search

namespace Columnar

/-!
Compressed chunks hold what was compressed.

Some scheme always applies, so a chunk is compressed at every depth when words count its rows and
the bytes of its texts.  The bytes hold the chunk when LZ4 and the archive give back what went in,
as they do within the reach of their references.
-/

namespace Values

def plainBytes : Values → Nat
  | .integers list => list.length * 4
  | .doubles list => list.length * 8
  | .strings list => (list.length + 1) * 4 + total (list.map (·.utf8ByteSize))

theorem length_flatMap_of_widths {α : Type} {slot : α → Bytes} {width : Nat}
    (widths : ∀ value, (slot value).length = width) (list : List α) :
    (list.flatMap slot).length = list.length * width := by
  have pieces : ∀ bytes ∈ list.map slot, bytes.length = width := by
    intro bytes member
    obtain ⟨value, -, rfl⟩ := List.mem_map.mp member
    exact widths value
  rw [List.flatMap_def, length_flatten_of_widths pieces, List.length_map]

theorem encode_uncompressed (values : Values) :
    ∃ payload, Payload.encode .uncompressed values = some payload ∧
      payload.length = values.plainBytes := by
  cases values with
  | integers list =>
      exact ⟨_, rfl, length_flatMap_of_widths (fun value => Bytes.length_ofNat ..) list⟩
  | doubles list =>
      exact ⟨_, rfl, length_flatMap_of_widths (fun value => Bytes.length_ofNat ..) list⟩
  | strings list =>
      refine ⟨_, rfl, ?_⟩
      rw [Payload.encodeStrings, StringArray.length_encode, List.length_map, List.map_map]
      rfl

theorem counted_of_plainBytes {values : Values} (short : values.plainBytes ≤ maxWord) :
    values.Counted := by
  cases values with
  | integers list =>
      simp only [plainBytes] at short
      exact ⟨by simp only [length]; omega, by simp only [extent]; omega⟩
  | doubles list =>
      simp only [plainBytes] at short
      exact ⟨by simp only [length]; omega, by simp only [extent]; omega⟩
  | strings list =>
      simp only [plainBytes] at short
      exact ⟨by simp only [length]; omega, by simp only [extent]; omega⟩

end Values

namespace Cascade

variable {depth : Nat} {chunk : InputChunk} {stored : StoredChunk} {scheme : Scheme}
  {payload bytes : Bytes} {list : List Bool}

/-- A stored chunk has the type, the size and the bits of an input chunk, and a payload in a scheme
that has been through the LZ4 stage. -/
structure Stores (depth : Nat) (chunk : InputChunk) (scheme : Scheme) (payload : Bytes)
    (stored : StoredChunk) : Prop where
  typeTag : stored.typeTag = chunk.type.tag
  tupleCount : stored.tupleCount = UInt32.ofNat chunk.tupleCount
  bitmap : stored.bitmap = .ofValidity chunk.validity
  schemeTag : stored.schemeTag = scheme.tag
  staged : lz4Stage depth payload = (stored.lz4, stored.payload)

theorem counted_of_lengthsFit (rows : chunk.tupleCount ≤ maxWord)
    (fit : ∀ scheme ∈ schemesAt depth chunk.type, Payload.LengthsFit scheme chunk.values) :
    chunk.values.Counted := by
  have plain := fit .uncompressed (uncompressed_mem_schemesAt depth chunk.values)
  refine ⟨rows, ?_⟩
  cases held : chunk.values with
  | integers list =>
      rw [InputChunk.tupleCount, held] at rows
      exact rows
  | doubles list =>
      rw [InputChunk.tupleCount, held] at rows
      exact rows
  | strings list =>
      rw [held] at plain
      exact plain.lengths _ List.mem_cons_self

/-- A chunk that is stored is counted by words, and its payload is the one chosen. -/
theorem toStored_ok (done : toStored depth chunk = .ok stored) :
    chunk.validity.length = chunk.tupleCount ∧ chunk.values.Counted ∧
      ∃ scheme payload,
        choose (schemesAt depth chunk.type) chunk.values = .ok (some (scheme, payload)) ∧
          Stores depth chunk scheme payload stored := by
  unfold toStored at done
  dsimp only at done
  split at done
  · contradiction
  rename_i bits
  rw [Decidable.not_not] at bits
  split at done
  · contradiction
  · contradiction
  rename_i scheme payload chosen
  split at done
  · contradiction
  rename_i rows
  cases done
  exact ⟨bits, counted_of_lengthsFit (Nat.le_of_not_lt rows) (choose_some chosen).1, scheme, payload,
    chosen, rfl, rfl, rfl, rfl, rfl⟩

theorem exists_toStored (depth : Nat) (bits : chunk.validity.length = chunk.tupleCount)
    (counted : chunk.values.Counted) : ∃ stored, toStored depth chunk = .ok stored := by
  obtain ⟨plain, written, -⟩ := chunk.values.encode_uncompressed
  obtain ⟨scheme, payload, chosen⟩ :=
    exists_choose (fun scheme _ => Payload.lengthsFit_of_extent scheme counted.extent)
      (uncompressed_mem_schemesAt depth chunk.values) written
  have rows : ¬ maxWord < chunk.tupleCount := Nat.not_lt.mpr counted.rows
  rw [toStored, if_neg (not_not_intro bits)]
  simp only [InputChunk.type, chosen, if_neg rows]
  exact ⟨_, rfl⟩

theorem compress_eq_ok_iff :
    compress depth chunk = .ok bytes ↔
      ∃ stored, toStored depth chunk = .ok stored ∧ stored.encode = bytes := by
  unfold compress
  cases toStored depth chunk with
  | error error => simp [Except.map]
  | ok stored => simp [Except.map]

/-- What comes behind the scheme is undone: LZ4 gives back the payload, the archive its record. -/
structure Undone (depth : Nat) (chunk : InputChunk) : Prop where
  lz4 : ∀ scheme payload,
    choose (schemesAt depth chunk.type) chunk.values = .ok (some (scheme, payload)) →
      Lz4.decompress (Lz4.compress payload) = .ok payload
  archive : ∀ stored, toStored depth chunk = .ok stored →
    StoredChunk.decode? stored.encode = some stored

/-- Whatever the LZ4 stage has done is undone. -/
theorem Stores.payloadOf (stores : Stores depth chunk scheme payload stored)
    (expanded : Lz4.decompress (Lz4.compress payload) = .ok payload) :
    Cascade.payloadOf stored = .ok payload := by
  have staged := stores.staged
  rw [Cascade.payloadOf]
  unfold lz4Stage at staged
  dsimp only at staged
  split at staged
  · split at staged
    · obtain ⟨flag, held⟩ := Prod.mk.inj staged
      simp only [← flag, ← held, if_true, expanded]
    · obtain ⟨flag, held⟩ := Prod.mk.inj staged
      simp only [← flag, ← held, Bool.false_eq_true, if_false]
  · obtain ⟨flag, held⟩ := Prod.mk.inj staged
    simp only [← flag, ← held, Bool.false_eq_true, if_false]

end Cascade

theorem InputChunk.cells_of_serves {chunk : InputChunk} {reader : RowReader} {list : List Bool}
    (serves : reader.Serves chunk.values.cells) (represents : chunk.validity.Represents list)
    (lengths : list.length = chunk.tupleCount) :
    reader.cells (.ofValidity chunk.validity) chunk.tupleCount 0 = .ok chunk.rows := by
  have size : chunk.rows.length = chunk.tupleCount :=
    Column.length_rowsOf represents.toList lengths
  rw [← size, RowReader.cells_eq_ok_iff]
  intro index inside
  have bit : index < list.length := by omega
  have value : index < chunk.values.cells.length := by
    rw [Values.length_cells]
    rw [size, InputChunk.tupleCount] at inside
    exact inside
  have entry : chunk.rows[index] = if list[index] then chunk.values.cells[index] else .null :=
    Column.getElem_rowsOf represents.toList bit value inside
  rw [entry, RowReader.cell_eq_ok_iff (Values.ne_null_of_mem (List.getElem_mem value)),
    Nat.zero_add]
  refine ⟨Bitmap.isNull_ofValidity represents bit, ?_⟩
  intro _
  exact serves index _ (List.getElem?_eq_getElem value)

namespace Cascade

variable {depth : Nat} {chunk : InputChunk} {stored : StoredChunk} {scheme : Scheme}
  {payload bytes : Bytes} {list : List Bool}

/-- A stored chunk holds an input chunk when its type, size and bits are the chunk's and its payload
was written from the chunk's values. -/
theorem Stores.holds (stores : Stores depth chunk scheme payload stored)
    (represents : chunk.validity.Represents list) (lengths : list.length = chunk.tupleCount)
    (archive : StoredChunk.decode? stored.encode = some stored)
    (expanded : Cascade.payloadOf stored = .ok payload)
    (encoded : Payload.encode scheme chunk.values = some payload)
    (counted : chunk.values.Counted) : chunk.Holds .standard stored.encode := by
  obtain ⟨decoded, reader, accepted, opened, serves⟩ :=
    Payload.decode_written encoded counted.extent
  have small : stored.tupleCount.toNat = chunk.tupleCount := by
    have bound := counted.rows
    rw [stores.tupleCount, UInt32.toNat_ofNat']
    simp only [maxWord, InputChunk.tupleCount] at bound ⊢
    omega
  have covered : stored.bitmap.checkRows stored.tupleCount = .ok () := by
    rw [stores.bitmap, stores.tupleCount, ← lengths]
    apply Bitmap.checkRows_ofValidity represents
    rw [lengths]
    exact counted.rows
  have data : chunk.type ≠ .skip := chunk.values.type_ne_skip
  have inspected : Cascade.inspect stored.encode =
      .ok ⟨stored.typeTag, stored.tupleCount, stored.bitmap⟩ := by
    simp only [Cascade.inspect, archive, covered]
  have decompressed : Cascade.decompress stored.encode = .ok decoded := by
    rw [InputChunk.tupleCount] at small
    simp only [Cascade.decompress, archive, stores.typeTag, Cascade.dataType_tag data,
      stores.schemeTag, Scheme.ofTag?_tag, expanded, small, bind, Except.bind]
    rw [InputChunk.type, accepted]
  refine ⟨_, inspected, stores.typeTag, small, ?_⟩
  have rows := InputChunk.cells_of_serves serves represents lengths
  rw [← stores.bitmap] at rows
  have openedRows : RowReader.ofDecoded chunk.type chunk.tupleCount decoded = .ok reader := opened
  simp only [PartChunk.cells, Codec.standard, Codec.cascade, decompressed, small, openedRows, rows,
    bind, Except.bind, mapError_ok]

/-- The bytes of a compressed chunk hold the chunk. -/
theorem holds_of_compress (compressed : compress depth chunk = .ok bytes)
    (represents : chunk.validity.Represents list) (undone : Undone depth chunk) :
    chunk.Holds .standard bytes := by
  obtain ⟨stored, done, rfl⟩ := compress_eq_ok_iff.mp compressed
  obtain ⟨bits, counted, scheme, payload, chosen, stores⟩ := toStored_ok done
  rw [represents.length] at bits
  exact stores.holds represents bits (undone.archive stored done)
    (stores.payloadOf (undone.lz4 scheme payload chosen)) (choose_some chosen).2.written counted

/-- LZ4 and archives are undone as long as words count the payload and the references reach. -/
theorem undone_of_short (short : chunk.values.plainBytes ≤ maxWord)
    (near : ∀ bytes, compress depth chunk = .ok bytes → bytes.length ≤ Archive.reach) :
    Undone depth chunk := by
  refine ⟨fun scheme payload chosen => ?_, fun stored done => ?_⟩
  · obtain ⟨plain, written, length⟩ := chunk.values.encode_uncompressed
    have least := (choose_some chosen).2.le (uncompressed_mem_schemesAt depth chunk.values) written
    apply Lz4.decompress_compress
    rw [Bytes.capacity_four]
    simp only [maxWord] at short
    omega
  · exact StoredChunk.decode?_encode (near _ (compress_eq_ok_iff.mpr ⟨stored, done, rfl⟩))

/-- Compressing a chunk succeeds at every depth, and the bytes hold the chunk within the reach of
references. -/
theorem compress_holds (depth : Nat) {chunk : InputChunk} {list : List Bool}
    (represents : chunk.validity.Represents list) (lengths : list.length = chunk.tupleCount)
    (short : chunk.values.plainBytes ≤ maxWord) :
    ∃ bytes, compress depth chunk = .ok bytes ∧
      (bytes.length ≤ Archive.reach → chunk.Holds .standard bytes) := by
  obtain ⟨stored, done⟩ := exists_toStored depth (represents.length.trans lengths)
    (Values.counted_of_plainBytes short)
  have compressed := compress_eq_ok_iff.mpr ⟨stored, done, rfl⟩
  refine ⟨stored.encode, compressed, fun near => ?_⟩
  refine holds_of_compress compressed represents (undone_of_short short fun bytes other => ?_)
  rw [compressed] at other
  cases other
  exact near

end Cascade

theorem inspect_cascade (depth : Nat) : (Codec.cascade depth).inspect = Cascade.inspect := rfl

theorem decompress_cascade (depth : Nat) : (Codec.cascade depth).decompress = Cascade.decompress :=
  rfl

end Columnar
