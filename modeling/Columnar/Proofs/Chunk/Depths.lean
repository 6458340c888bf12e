import Columnar.Proofs.Chunk.Compression
import Columnar.Proofs.Text.Utf8

namespace Columnar

/-!
What depth does to the size of a chunk.

A chunk that words can count is compressed at every depth, to the shortest payload of the schemes
that the depth allows and through LZ4 only where that makes it shorter, so a greater depth never
gives more bytes.  A chunk that words cannot count is refused at every depth.
-/

/-- Of two stored chunks with the same bitmap, the one with the shorter payload is not longer. -/
theorem StoredChunk.length_encode_le {first second : StoredChunk}
    (bitmap : first.bitmap = second.bitmap)
    (shorter : first.payload.length ≤ second.payload.length) :
    first.encode.length ≤ second.encode.length := by
  simp only [length_encode, root, Archive.length_align, List.length_append, bitmap,
    Bytes.paddingFor]
  omega

namespace Cascade

variable {depth deeper : Nat} {chunk : InputChunk} {stored other : StoredChunk}
  {scheme : Scheme} {payload bytes : Bytes}

section Stages

theorem length_lz4Stage_le (depth : Nat) (payload : Bytes) :
    (lz4Stage depth payload).2.length ≤ payload.length := by
  unfold lz4Stage
  dsimp only
  split
  · split
    · rename_i less
      exact Nat.le_of_lt less
    · exact Nat.le_refl _
  · exact Nat.le_refl _

theorem length_lz4Stage_deeper (le : depth ≤ deeper) (payload : Bytes) :
    (lz4Stage deeper payload).2.length ≤ (lz4Stage depth payload).2.length := by
  by_cases staged : 2 ≤ depth
  · have same : lz4Stage deeper payload = lz4Stage depth payload := by
      rw [lz4Stage, if_pos (Nat.le_trans staged le), lz4Stage, if_pos staged]
    exact Nat.le_of_eq (by rw [same])
  · have plain : lz4Stage depth payload = (false, payload) := by rw [lz4Stage, if_neg staged]
    rw [plain]
    exact length_lz4Stage_le deeper payload

/-- A payload is stored compressed exactly where LZ4 is allowed and makes it shorter. -/
theorem Stores.lz4_iff (stores : Stores depth chunk scheme payload stored) :
    (stored.lz4 = true ↔ 2 ≤ depth ∧ (Lz4.compress payload).length < payload.length) ∧
      stored.payload = if stored.lz4 then Lz4.compress payload else payload := by
  have staged := stores.staged
  unfold lz4Stage at staged
  dsimp only at staged
  split at staged
  · rename_i allowed
    split at staged
    · rename_i less
      obtain ⟨flag, held⟩ := Prod.mk.inj staged
      simp [← flag, ← held, allowed, less]
    · rename_i more
      obtain ⟨flag, held⟩ := Prod.mk.inj staged
      simpa [← flag, ← held] using fun _ => Nat.not_lt.mp more
  · rename_i shallow
    obtain ⟨flag, held⟩ := Prod.mk.inj staged
    simpa [← flag, ← held] using fun allowed => absurd allowed shallow

theorem Stores.length_eq (stores : Stores depth chunk scheme payload stored) :
    stored.payload.length = (lz4Stage depth payload).2.length := by
  rw [stores.staged]

end Stages

section Depths

theorem schemesAt_positive (positive : depth ≠ 0) (type : ColumnType) :
    schemesAt depth type = Scheme.candidates type := if_neg positive

/-- The payload that is stored at a greater depth is not longer: from depth one on the same payload
is chosen, and at depth zero there is only the plain one. -/
theorem length_payload_deeper (le : depth ≤ deeper) (shallow : toStored depth chunk = .ok stored)
    (deep : toStored deeper chunk = .ok other) :
    other.payload.length ≤ stored.payload.length := by
  obtain ⟨-, -, scheme, payload, chosen, stores⟩ := toStored_ok shallow
  obtain ⟨-, -, better, least, chosenDeep, storesDeep⟩ := toStored_ok deep
  rw [stores.length_eq, storesDeep.length_eq]
  by_cases zero : depth = 0
  · subst zero
    have plain : scheme = .uncompressed := List.mem_singleton.mp (choose_some chosen).2.mem
    have written := (choose_some chosen).2.written
    rw [plain] at written
    have bound := (choose_some chosenDeep).2.le (uncompressed_mem_schemesAt deeper chunk.values)
      written
    exact Nat.le_trans (length_lz4Stage_le deeper least) bound
  · rw [schemesAt_positive zero] at chosen
    rw [schemesAt_positive (by omega), chosen] at chosenDeep
    cases chosenDeep
    exact length_lz4Stage_deeper le payload

/-- What can be wrong with a chunk that words cannot count: a length that is written down, or, where
runs are tried, a run that is longer than its counter. -/
inductive Uncounted (depth : Nat) (chunk : InputChunk) : ChunkError → Prop
  | length {what : String} {length : Nat} (long : maxWord < length) :
      Uncounted depth chunk (.corrupt (.tooLong what length))
  | run {count : Nat} (tried : depth ≠ 0)
      (among : count ∈ Payload.runCounts .runLength chunk.values) (long : maxWord < count) :
      Uncounted depth chunk (.overflow .runLength)

theorem payloads_error {values : Values} {schemes : List Scheme} {error : ChunkError}
    (failed : payloads values schemes = .error error) :
    ∃ scheme ∈ schemes, Payload.write scheme values = .error error := by
  induction schemes with
  | nil => contradiction
  | cons scheme rest ih =>
      rw [payloads] at failed
      split at failed
      · rename_i refused
        cases failed
        exact ⟨scheme, List.mem_cons_self, refused⟩
      · split at failed
        · rename_i later
          cases failed
          obtain ⟨other, member, refused⟩ := ih later
          exact ⟨other, List.mem_cons_of_mem scheme member, refused⟩
        · contradiction

theorem uncounted_of_write {error : ChunkError} (among : scheme ∈ schemesAt depth chunk.type)
    (refused : Payload.write scheme chunk.values = .error error) : Uncounted depth chunk error := by
  rcases Payload.write_error refused with ⟨rfl, count, member, long⟩ | ⟨what, length, rfl, long⟩
  · cases scheme with
    | runLength =>
        refine .run (fun zero => ?_) member long
        rw [schemesAt, if_pos zero] at among
        contradiction
    | uncompressed | oneValue | dictionary => contradiction
  · exact .length long

/-- A chunk that words cannot count is refused for a length, or for a run, that no word holds. -/
theorem toStored_error (depth : Nat) (bits : chunk.validity.length = chunk.tupleCount)
    (uncounted : ¬ chunk.values.Counted) :
    ∃ error, toStored depth chunk = .error error ∧ Uncounted depth chunk error := by
  unfold toStored
  rw [if_neg (not_not_intro bits)]
  cases written : payloads chunk.values (schemesAt depth chunk.type) with
  | error error =>
      obtain ⟨scheme, among, refused⟩ := payloads_error written
      exact ⟨error, by simp only [choose, written, Except.map], uncounted_of_write among refused⟩
  | ok found =>
      obtain ⟨fit, -⟩ := payloads_eq_ok_iff.mp written
      obtain ⟨plain, encoded, -⟩ := chunk.values.encode_uncompressed
      obtain ⟨scheme, payload, chosen⟩ :=
        exists_choose fit (uncompressed_mem_schemesAt depth chunk.values) encoded
      have long : maxWord < chunk.tupleCount :=
        Nat.lt_of_not_le fun rows => uncounted (counted_of_lengthsFit rows fit)
      exact ⟨_, by simp only [chosen, if_pos long]; rfl, .length long⟩

/-- More depth never costs space.  A chunk that words can count is compressed at every depth to the
shortest payload, through LZ4 exactly where that is allowed and shorter, and a greater depth gives
no more bytes; they are read back as long as references reach through them.  Any other chunk is
refused at every depth. -/
theorem deeper_not_longer (chunk : InputChunk) (bits : chunk.validity.length = chunk.tupleCount) :
    (chunk.values.Counted →
      (∀ depth deeper, depth ≤ deeper → ∃ first second, compress depth chunk = .ok first ∧
        compress deeper chunk = .ok second ∧ second.length ≤ first.length) ∧
      ∀ depth, ∃ (scheme : Scheme) (payload : Bytes) (stored : StoredChunk),
        compress depth chunk = .ok stored.encode ∧
        Shortest (if depth = 0 then [.uncompressed] else Scheme.candidates chunk.type) chunk.values
          scheme payload ∧
        stored.schemeTag = scheme.tag ∧
        (stored.lz4 = true ↔ 2 ≤ depth ∧ (Lz4.compress payload).length < payload.length) ∧
        (stored.payload = if stored.lz4 then Lz4.compress payload else payload) ∧
        (stored.encode.length ≤ Archive.reach →
          StoredChunk.decode? stored.encode = some stored)) ∧
    (¬ chunk.values.Counted → ∀ depth, ∃ error,
      compress depth chunk = .error error ∧ Uncounted depth chunk error) := by
  refine ⟨fun counted => ⟨fun depth deeper le => ?_, fun depth => ?_⟩, fun uncounted depth => ?_⟩
  · obtain ⟨stored, shallow⟩ := exists_toStored depth bits counted
    obtain ⟨other, deep⟩ := exists_toStored deeper bits counted
    obtain ⟨-, -, _, _, -, stores⟩ := toStored_ok shallow
    obtain ⟨-, -, _, _, -, storesDeep⟩ := toStored_ok deep
    refine ⟨_, _, compress_eq_ok_iff.mpr ⟨stored, shallow, rfl⟩,
      compress_eq_ok_iff.mpr ⟨other, deep, rfl⟩, ?_⟩
    exact StoredChunk.length_encode_le (storesDeep.bitmap.trans stores.bitmap.symm)
      (length_payload_deeper le shallow deep)
  · obtain ⟨stored, done⟩ := exists_toStored depth bits counted
    obtain ⟨-, -, scheme, payload, chosen, stores⟩ := toStored_ok done
    obtain ⟨flag, held⟩ := stores.lz4_iff
    exact ⟨scheme, payload, stored, compress_eq_ok_iff.mpr ⟨stored, done, rfl⟩,
      (choose_some chosen).2, stores.schemeTag, flag, held, StoredChunk.decode?_encode⟩
  · obtain ⟨error, refused, cause⟩ := toStored_error depth bits uncounted
    exact ⟨error, by rw [compress, refused]; rfl, cause⟩

theorem deeper_not_longer_zeros :
    ∃ first second,
      compress 0 ⟨.integers (List.replicate 32 0), .allPresent 32⟩ = .ok first ∧
      compress 3 ⟨.integers (List.replicate 32 0), .allPresent 32⟩ = .ok second ∧
      second.length ≤ first.length :=
  ((deeper_not_longer ⟨.integers (List.replicate 32 0), .allPresent 32⟩ (by decide)).1
    ⟨by decide, by decide⟩).1 0 3 (by decide)

/-- So many rows of a text of so many letters. -/
def repeatedText (rows letters : Nat) : InputChunk :=
  ⟨.strings (List.replicate rows (String.ofList (List.replicate letters 'x'))), .allPresent rows⟩

theorem length_validity_repeatedText (rows letters : Nat) :
    (repeatedText rows letters).validity.length = (repeatedText rows letters).tupleCount := by
  have represents := Validity.represents_ofList (List.replicate rows true)
  simp only [repeatedText, Validity.allPresent, InputChunk.tupleCount, Values.length,
    represents.length, List.length_replicate]

theorem extent_repeatedText (rows letters : Nat) :
    (repeatedText rows letters).values.extent = letters * rows := by
  have letter : 'x'.utf8Size = 1 := rfl
  simp only [repeatedText, Values.extent, List.map_replicate, Text.utf8ByteSize_replicate, letter,
    Nat.mul_one, total_replicate]

/-- Texts of four gigabytes in one chunk are more than the offsets of a string array count. -/
theorem not_every_chunk_compressed :
    ¬ ∀ (chunk : InputChunk) (depth deeper : Nat), chunk.validity.length = chunk.tupleCount →
      depth ≤ deeper → ∃ first second, compress depth chunk = .ok first ∧
        compress deeper chunk = .ok second ∧ second.length ≤ first.length := by
  intro always
  obtain ⟨first, -, compressed, -⟩ := always (repeatedText 65536 65536) 0 0
    (length_validity_repeatedText 65536 65536) (Nat.le_refl 0)
  obtain ⟨stored, done, -⟩ := compress_eq_ok_iff.mp compressed
  have short := (toStored_ok done).2.1.extent
  rw [extent_repeatedText] at short
  exact absurd short (by decide)

end Depths

end Cascade

end Columnar
