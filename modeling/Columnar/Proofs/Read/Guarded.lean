import Columnar.Chunk.Cascade
import Columnar.Proofs.Payload.Guarded
import Columnar.Proofs.Read.Walk

namespace Columnar.ColumnReader.Guarded

/-!
Materializing with every access guarded.

This walk indexes parts directly, counts chunks in 32-bit and rows and positions in 64-bit words,
decodes with the guarded decoder into one buffer that all chunks share, and cuts string data off its
table without looking.  `none` is an index outside a list or buffer, or an overflow.
`materialize_eq` says that an opened column never comes to that.
-/

open Payload.Guarded (addressable sum? sum?_eq product? product?_eq behind? behind?_eq)

def totalFrom? (sum : Nat) : List Nat → Option Nat
  | [] => some sum
  | count :: rest => do
      let next ← sum? sum count
      totalFrom? next rest

def totalParts? (sum : Nat) : List PartReader → Option Nat
  | [] => some sum
  | part :: rest => do
      let tuples ← totalFrom? 0 (part.chunks.toList.map fun chunk => chunk.header.tupleCount.toNat)
      let next ← sum? sum tuples
      totalParts? next rest

def word? (value : Nat) : Option Nat := if value ≤ maxWord then some value else none

def advance? (counts : Array Nat) (cursor : ChunkCursor) :
    Option (Option (Nat × Nat) × ChunkCursor) :=
  match _found : counts[cursor.part]? with
  | none => some (none, cursor)
  | some count =>
      if cursor.chunk < count then do
        let next ← word? (cursor.chunk + 1)
        return (some (cursor.part, cursor.chunk), ⟨cursor.part, next⟩)
      else if cursor.part + 1 < addressable then advance? counts ⟨cursor.part + 1, 0⟩
      else none
termination_by counts.size - cursor.part
decreasing_by
  have inside := (Array.getElem?_eq_some_iff.mp _found).1
  omega

def decompress? (bytes prior : Bytes) : Option (Except ChunkError Decoded) :=
  match StoredChunk.decode? bytes with
  | none => some (.error .notAnArchive)
  | some chunk =>
      match Cascade.dataType chunk.typeTag with
      | .error error => some (.error error)
      | .ok type =>
          match Scheme.ofTag? chunk.schemeTag with
          | none => some (.error (.corrupt (.unknownScheme chunk.schemeTag)))
          | some scheme =>
              match Cascade.payloadOf chunk with
              | .error error => some (.error error)
              | .ok payload => do
                  let result ←
                    Payload.Guarded.decode scheme type chunk.tupleCount.toNat payload prior
                  return result.mapError .corrupt

/-- Where a slot begins, once its end is known to be a position. -/
def slotStart? (row width : Nat) : Option Nat := do
  let start ← product? row width
  let _ ← sum? start width
  return start

def wordAt? (buffer : Array UInt8) (position : Nat) : Option (Except Corruption Nat) := do
  let _ ← sum? position 4
  return Rows.wordAt buffer position

/-- The text in the data behind a table. -/
def textAt? (buffer : Array UInt8) (table row start stop : Nat) :
    Option (Except Corruption String) := do
  let data ← behind? table buffer.toList
  return Rows.textAt data.toArray 0 row start stop

def stringAt? (strings : StringRows) (row : Nat) : Option (Except Corruption String) :=
  let table := StringRows.tableBytes strings.rows strings.indirect
  if strings.rows ≤ row then some (.error (.stringRow row strings.rows))
  else if strings.indirect then do
    let place ← product? row 8
    let lengthPlace ← sum? place 4
    match ← wordAt? strings.buffer place, ← wordAt? strings.buffer lengthPlace with
    | .error cause, _ => return .error cause
    | .ok _, .error cause => return .error cause
    | .ok offset, .ok length =>
        let stop ← sum? offset length
        textAt? strings.buffer table row offset stop
  else do
    let place ← product? row 4
    let nextPlace ← product? (row + 1) 4
    match ← wordAt? strings.buffer place, ← wordAt? strings.buffer nextPlace with
    | .error cause, _ => return .error cause
    | .ok _, .error cause => return .error cause
    | .ok start, .ok stop =>
        if stop < start then return .error (.stringOffsets row)
        else textAt? strings.buffer table row start stop

def value? (rows : RowReader) (row : Nat) : Option (Except Corruption Cell) :=
  match rows with
  | .integers buffer => do
      let _ ← slotStart? row 4
      return (Rows.integerAt buffer row).map .integer
  | .doubles buffer => do
      let _ ← slotStart? row 8
      return (Rows.doubleAt buffer row).map .double
  | .strings texts => do
      let text ← stringAt? texts row
      return text.map .string

def cell? (rows : RowReader) (bitmap : Bitmap) (row : Nat) : Option (Except Corruption Cell) :=
  if bitmap.isNull row then some (.ok .null) else value? rows row

section Walking

variable {σ : Type} (sink : Sink σ)

def pushRows? (rows : RowReader) (bitmap : Bitmap) : Nat → Nat → σ → Option (Except Error σ)
  | 0, _, state => some (.ok state)
  | count + 1, row, state => do
      match ← cell? rows bitmap row with
      | .error cause => return .error (.chunk (.corrupt cause))
      | .ok cell =>
          match sink.push cell state with
          | .error error => return .error error
          | .ok next => pushRows? rows bitmap count (row + 1) next

/-- The reader of a decoded chunk, after the size of its string table. -/
def rowsOf? (type : ColumnType) (count : Nat) (decoded : Decoded) :
    Option (Except ChunkError RowReader) := do
  let entries ← sum? count 1
  let _ ← product? entries 8
  return RowReader.ofDecoded type count decoded

/-- Hands over the rows of a chunk; the buffer behind it is left for the next chunk. -/
def pushChunk? (type : ColumnType) (chunk : PartChunk) (buffer : Bytes) (state : σ) :
    Option (Except Error (Bytes × σ)) := do
  let count := chunk.header.tupleCount.toNat
  match ← decompress? chunk.bytes buffer with
  | .error error => return .error (.chunk error)
  | .ok decoded =>
      match ← rowsOf? type count decoded with
      | .error error => return .error (.chunk error)
      | .ok rows =>
          let pushed ← pushRows? sink rows chunk.header.bitmap count 0 state
          return pushed.map (decoded.buffer, ·)

def pushChunks? (reader : ColumnReader) :
    Nat → Nat → ChunkCursor → Nat → Bytes → σ → Option (Except Error (Nat × σ))
  | 0, _, _, rows, _, state => some (.ok (rows, state))
  | count + 1, index, cursor, rows, buffer, state => do
      match ← advance? reader.partCounts cursor with
      | (none, _) => return .error (.cursorPastEnd reader.column index reader.parts.size)
      | (some (part, inPart), next) =>
          let held ← reader.parts[part]?
          match held.chunk inPart with
          | .error fault => return .error (.unreadablePart reader.column held.path fault)
          | .ok chunk =>
              match ← pushChunk? sink reader.type chunk buffer state with
              | .error error => return .error error
              | .ok (buffer, state) =>
                  let rows ← sum? rows chunk.header.tupleCount.toNat
                  pushChunks? reader count (index + 1) next rows buffer state

def materialize? (reader : ColumnReader) (state : σ) : Option (Except Error (Nat × σ)) := do
  let tuples ← totalParts? 0 reader.parts.toList
  match sink.start reader.type tuples state with
  | .error error => return .error error
  | .ok started =>
      match ← pushChunks? sink reader reader.chunkCount 0 .start 0 [] started with
      | .error error => return .error error
      | .ok (rows, filled) => return (sink.finish filled).map (rows, ·)

end Walking

section Sums

theorem totalFrom?_eq {sum : Nat} {counts : List Nat} (small : sum + total counts < addressable) :
    totalFrom? sum counts = some (sum + total counts) := by
  induction counts generalizing sum with
  | nil => rfl
  | cons count rest ih =>
      rw [total_cons] at small
      rw [totalFrom?, sum?_eq (by omega), Option.bind_eq_bind, Option.bind_some, ih (by omega),
        total_cons, Nat.add_assoc]

theorem totalParts?_eq {sum : Nat} {parts : List PartReader}
    (small : sum + total (parts.map PartReader.totalTuples) < addressable) :
    totalParts? sum parts = some (sum + total (parts.map PartReader.totalTuples)) := by
  induction parts generalizing sum with
  | nil => rfl
  | cons part rest ih =>
      rw [List.map_cons, total_cons] at small
      have tuples : totalFrom? 0
          (part.chunks.toList.map fun chunk => chunk.header.tupleCount.toNat) =
            some part.totalTuples := by
        rw [totalFrom?_eq (by rw [Nat.zero_add]; exact Nat.lt_of_le_of_lt (by
          rw [PartReader.totalTuples] at *; omega) small), Nat.zero_add]
        rfl
      simp only [totalParts?, tuples, Option.bind_eq_bind, Option.bind_some]
      rw [sum?_eq (by omega), Option.bind_some, ih (by omega), List.map_cons, total_cons,
        Nat.add_assoc]

theorem le_total_of_mem {counts : List Nat} {count : Nat} (member : count ∈ counts) :
    count ≤ total counts := by
  induction counts with
  | nil => contradiction
  | cons first rest ih =>
      rw [total_cons]
      rcases List.mem_cons.mp member with rfl | later
      · omega
      · have bound := ih later
        omega

/-- Totals of 32-bit words stay in 64 bits, as many as 32 bits count. -/
theorem total_le_words {words : List Nat} (small : ∀ word ∈ words, word ≤ maxWord) :
    total words ≤ words.length * maxWord := by
  induction words with
  | nil => simp
  | cons word rest ih =>
      have first := small word (by simp)
      have later := ih fun other member => small other (by simp [member])
      rw [total_cons, List.length_cons, Nat.add_mul, Nat.one_mul]
      omega

end Sums

section Rows

variable {row : Nat}

theorem slotStart?_eq {width : Nat} (small : row ≤ maxWord) (narrow : width ≤ 8) :
    slotStart? row width = some (row * width) := by
  have most : row * width ≤ maxWord * 8 := Nat.mul_le_mul small narrow
  simp only [maxWord] at most
  rw [slotStart?, product?_eq (by simp only [addressable]; omega), Option.bind_eq_bind,
    Option.bind_some, sum?_eq (by simp only [addressable]; omega)]
  rfl

theorem wordAt?_eq (buffer : Array UInt8) {position : Nat} (small : position ≤ maxWord * 8 + 8) :
    wordAt? buffer position = some (Rows.wordAt buffer position) := by
  simp only [maxWord] at small
  rw [wordAt?, sum?_eq (by simp only [addressable]; omega)]
  rfl

theorem textAt?_eq {buffer : Array UInt8} {table start stop : Nat} (held : table ≤ buffer.size) :
    textAt? buffer table row start stop = some (Rows.textAt buffer table row start stop) := by
  have length : (buffer.toList.drop table).length = buffer.size - table := by simp
  have width : table + stop - (table + start) = stop - start := by omega
  have text : ((buffer.toList.drop table).toArray.extract start stop).toList =
      (buffer.extract (table + start) (table + stop)).toList := by
    rw [toList_extract, ← @Array.toArray_toList _ buffer, toList_extract, slice, slice, width,
      List.drop_drop]
  have bounds : (start ≤ stop ∧ stop ≤ buffer.size - table) ↔
      (start ≤ stop ∧ table + stop ≤ buffer.size) := by omega
  rw [textAt?, behind?_eq (by simpa using held), Option.bind_eq_bind, Option.bind_some]
  simp only [Rows.textAt, List.size_toArray, length, Nat.zero_add, bounds, text]
  rfl

theorem wordAt_le {buffer : Array UInt8} {position word : Nat}
    (read : Rows.wordAt buffer position = .ok word) : word ≤ maxWord := by
  unfold Rows.wordAt at read
  split at read
  · rename_i found
    cases read
    have small := Bytes.readNat?_lt found
    simp only [Bytes.capacity_four, maxWord] at small ⊢
    omega
  · contradiction

theorem stringAt?_eq {strings : StringRows} (small : row ≤ maxWord)
    (held : StringRows.tableBytes strings.rows strings.indirect ≤ strings.buffer.size) :
    stringAt? strings row = some (strings.get row) := by
  have most : maxWord = 4294967295 := rfl
  have space : addressable = 18446744073709551616 := rfl
  unfold stringAt? StringRows.get
  simp only [StringRows.text_eq]
  split
  · rfl
  split
  · have place : product? row 8 = some (row * 8) := product?_eq (by omega)
    have lengthPlace : sum? (row * 8) 4 = some (row * 8 + 4) := sum?_eq (by omega)
    have first := wordAt?_eq strings.buffer (show row * 8 ≤ maxWord * 8 + 8 by omega)
    have second := wordAt?_eq strings.buffer (show row * 8 + 4 ≤ maxWord * 8 + 8 by omega)
    simp only [place, lengthPlace, first, second, Option.bind_eq_bind, Option.bind_some]
    cases offsetRead : Rows.wordAt strings.buffer (row * 8) with
    | error cause => rfl
    | ok offset =>
        cases lengthRead : Rows.wordAt strings.buffer (row * 8 + 4) with
        | error cause => rfl
        | ok length =>
            have offsetSmall := wordAt_le offsetRead
            have lengthSmall := wordAt_le lengthRead
            have stop : sum? offset length = some (offset + length) := sum?_eq (by omega)
            simp only [stop, Option.bind_some, textAt?_eq held]
            rfl
  · have place : product? row 4 = some (row * 4) := product?_eq (by omega)
    have nextPlace : product? (row + 1) 4 = some ((row + 1) * 4) := product?_eq (by omega)
    have first := wordAt?_eq strings.buffer (show row * 4 ≤ maxWord * 8 + 8 by omega)
    have second := wordAt?_eq strings.buffer (show (row + 1) * 4 ≤ maxWord * 8 + 8 by omega)
    simp only [place, nextPlace, first, second, Option.bind_eq_bind, Option.bind_some]
    cases Rows.wordAt strings.buffer (row * 4) with
    | error cause => rfl
    | ok start =>
        cases Rows.wordAt strings.buffer ((row + 1) * 4) with
        | error cause => rfl
        | ok stop =>
            simp only [bind, Except.bind]
            split
            · rfl
            · exact textAt?_eq held

/-- A reader whose string table lies inside its buffer. -/
def TableHeld : RowReader → Prop
  | .strings texts => StringRows.tableBytes texts.rows texts.indirect ≤ texts.buffer.size
  | _ => True

theorem tableHeld_of_ofDecoded {type : ColumnType} {count : Nat} {decoded : Decoded}
    {rows : RowReader} (opened : RowReader.ofDecoded type count decoded = .ok rows) :
    TableHeld rows := by
  cases type with
  | integer => cases opened; trivial
  | double => cases opened; trivial
  | skip => contradiction
  | string =>
      simp only [RowReader.ofDecoded, StringRows.ofBuffer] at opened
      split at opened
      · rename_i texts made
        cases opened
        split at made
        · rename_i enough
          cases made
          exact enough
        · split at made <;> contradiction
      · contradiction

theorem cell?_eq {rows : RowReader} (bitmap : Bitmap) (small : row ≤ maxWord)
    (held : TableHeld rows) : cell? rows bitmap row = some (rows.cell bitmap row) := by
  unfold cell? RowReader.cell
  split
  · rfl
  · cases rows with
    | integers buffer =>
        simp only [value?, slotStart?_eq small (by decide : 4 ≤ 8)]
        rfl
    | doubles buffer =>
        simp only [value?, slotStart?_eq small (by decide : 8 ≤ 8)]
        rfl
    | strings texts =>
        simp only [value?, stringAt?_eq small held]
        rfl

end Rows

theorem decompress?_eq (bytes prior : Bytes) :
    decompress? bytes prior = some (Codec.standard.decompress bytes) := by
  have decoding (scheme : Scheme) (type : ColumnType) (count : UInt32) (payload : Bytes) :
      Payload.Guarded.decode scheme type count.toNat payload prior =
        some (Payload.decode scheme type count.toNat payload) := by
    apply Payload.Guarded.decode_eq
    have bound := count.toNat_lt
    simp only [maxWord]
    omega
  simp only [decompress?, Codec.standard, Codec.cascade, Cascade.decompress]
  cases StoredChunk.decode? bytes with
  | none => rfl
  | some chunk =>
      simp only [bind, Except.bind]
      cases Cascade.dataType chunk.typeTag with
      | error error => rfl
      | ok type =>
          cases Scheme.ofTag? chunk.schemeTag with
          | none => rfl
          | some scheme =>
              cases Cascade.payloadOf chunk with
              | error error => rfl
              | ok payload =>
                  simp only [decoding, Option.bind_some]
                  cases Payload.decode scheme type chunk.tupleCount.toNat payload <;> rfl

section Walks

variable {σ : Type} (sink : Sink σ)

theorem pushRows?_eq {rows : RowReader} (bitmap : Bitmap) {count row : Nat}
    (held : TableHeld rows) (small : row + count ≤ maxWord) (state : σ) :
    pushRows? sink rows bitmap count row state =
      some (ColumnReader.pushRows sink rows bitmap count row state) := by
  induction count generalizing row state with
  | zero => rfl
  | succ count ih =>
      have here : row ≤ maxWord := by omega
      simp only [pushRows?, ColumnReader.pushRows, cell?_eq bitmap here held,
        Option.bind_eq_bind, Option.bind_some]
      cases rows.cell bitmap row with
      | error cause => rfl
      | ok cell =>
          simp only
          cases sink.push cell state with
          | error error => rfl
          | ok next => exact ih (by omega) next

theorem rowsOf?_eq (type : ColumnType) {count : Nat} (decoded : Decoded) (small : count ≤ maxWord) :
    rowsOf? type count decoded = some (RowReader.ofDecoded type count decoded) := by
  simp only [maxWord] at small
  have entries : sum? count 1 = some (count + 1) := sum?_eq (by simp only [addressable]; omega)
  have table : product? (count + 1) 8 = some ((count + 1) * 8) :=
    product?_eq (by simp only [addressable]; omega)
  simp only [rowsOf?, entries, table, Option.bind_eq_bind, Option.bind_some]
  rfl

/-- A chunk is pushed as without guards, and leaves some buffer behind. -/
theorem pushChunk?_eq (type : ColumnType) (chunk : PartChunk) (buffer : Bytes) (state : σ) :
    ∃ left, pushChunk? sink type chunk buffer state =
      some ((pushChunk .standard type sink chunk state).map (left, ·)) := by
  have small : chunk.header.tupleCount.toNat ≤ maxWord := by
    have bound := chunk.header.tupleCount.toNat_lt
    simp only [maxWord]
    omega
  simp only [pushChunk?, pushChunk, decompress?_eq, Option.bind_eq_bind, Option.bind_some]
  cases Codec.standard.decompress chunk.bytes with
  | error error => exact ⟨[], rfl⟩
  | ok decoded =>
      simp only [rowsOf?_eq type decoded small, Option.bind_some]
      cases opened : RowReader.ofDecoded type chunk.header.tupleCount.toNat decoded with
      | error error => exact ⟨[], rfl⟩
      | ok rows =>
          have whole : 0 + chunk.header.tupleCount.toNat ≤ maxWord := by
            rw [Nat.zero_add]
            exact small
          have pushed := pushRows?_eq sink chunk.header.bitmap (tableHeld_of_ofDecoded opened) whole
            state
          simp only [pushed, Option.bind_some]
          exact ⟨decoded.buffer, rfl⟩

theorem advance?_eq {counts : Array Nat} (few : counts.size < addressable)
    (small : ∀ count ∈ counts, count ≤ maxWord) (cursor : ChunkCursor) :
    advance? counts cursor = some (cursor.advance counts) := by
  fun_induction ChunkCursor.advance counts cursor with
  | case1 cursor missing =>
      rw [advance?]
      split
      · rfl
      · rename_i found
        rw [missing] at found
        contradiction
  | case2 cursor count found inside =>
      have bound := small count (Array.mem_of_getElem? found)
      have next : word? (cursor.chunk + 1) = some (cursor.chunk + 1) := if_pos (by omega)
      rw [advance?]
      split
      · rename_i missing
        rw [found] at missing
        contradiction
      · rename_i other same
        obtain rfl : count = other := Option.some.inj (found.symm.trans same)
        rw [if_pos inside, next]
        rfl
  | case3 cursor count found outside ih =>
      have inside := (Array.getElem?_eq_some_iff.mp found).1
      have room : cursor.part + 1 < addressable := Nat.lt_of_le_of_lt inside few
      rw [advance?]
      split
      · rename_i missing
        rw [found] at missing
        contradiction
      · rename_i other same
        obtain rfl : count = other := Option.some.inj (found.symm.trans same)
        rw [if_neg outside, if_pos room, ih]

/-- The guarded walk over all that is ahead of a cursor. -/
theorem pushChunks?_eq {reader : ColumnReader} {cursor : ChunkCursor} {chunks : List PartChunk}
    (few : reader.partCounts.size ≤ maxWord) (small : ∀ count ∈ reader.partCounts, count ≤ maxWord)
    (reached : (cursor.ahead reader.partCounts).map
      (fun position => reader.chunkAt position.1 position.2) = chunks.map .ok)
    {rows : Nat} (room : rows + total (chunks.map fun chunk => chunk.header.tupleCount.toNat) <
      addressable) (index : Nat) (buffer : Bytes) (state : σ) :
    pushChunks? sink reader chunks.length index cursor rows buffer state =
      some (pushChunks .standard reader sink chunks.length index cursor rows state) := by
  induction chunks generalizing cursor rows index buffer state with
  | nil => rfl
  | cons chunk rest ih =>
      cases ahead : cursor.ahead reader.partCounts with
      | nil => rw [ahead] at reached; contradiction
      | cons position later =>
          obtain ⟨next, step, behind⟩ := ChunkCursor.advance_of_ahead ahead
          rw [ahead, List.map_cons, List.map_cons, List.cons.injEq] at reached
          obtain ⟨here, others⟩ := reached
          obtain ⟨held, part, inside⟩ := chunkAt_ok here
          obtain ⟨left, pushed⟩ := pushChunk?_eq sink reader.type chunk buffer state
          rw [List.map_cons, total_cons] at room
          have walked := advance?_eq (Nat.lt_of_le_of_lt few (by decide)) small cursor
          simp only [List.length_cons, pushChunks?, pushChunks, walked, step, here, part, inside,
            pushed, Option.bind_eq_bind, Option.bind_some]
          cases pushChunk .standard reader.type sink chunk state with
          | error error => rfl
          | ok middle =>
              have sum : sum? rows chunk.header.tupleCount.toNat =
                  some (rows + chunk.header.tupleCount.toNat) := sum?_eq (by omega)
              simp only [Except.map, sum, Option.bind_some]
              exact ih (by rw [behind]; exact others) (by omega) (index + 1) left middle

end Walks

theorem materialize_eq {σ : Type} {reader : ColumnReader} (opened : Opened .standard reader)
    (sink : Sink σ) (state : σ) :
    materialize? sink reader state = some (reader.materialize .standard sink state) := by
  have count : reader.chunkCount = reader.chunks.length := by
    rw [opened.counted, length_chunks]
  have few : reader.partCounts.size ≤ maxWord := by
    rw [partCounts, Array.size_map]
    exact opened.fewParts
  have small : ∀ count ∈ reader.partCounts, count ≤ maxWord := by
    intro count member
    have bound := le_total_of_mem (Array.mem_toList_iff.mpr member)
    rw [← opened.counted] at bound
    exact Nat.le_trans bound opened.fewChunks
  have room : reader.tupleCount < addressable := by
    have words : ∀ word ∈ reader.chunks.map fun chunk => chunk.header.tupleCount.toNat,
        word ≤ maxWord := by
      intro word member
      obtain ⟨chunk, -, rfl⟩ := List.mem_map.mp member
      have bound := chunk.header.tupleCount.toNat_lt
      simp only [maxWord]
      omega
    have bound := total_le_words words
    rw [← tupleCount_eq, List.length_map, ← count] at bound
    have most := Nat.mul_le_mul_right maxWord opened.fewChunks
    simp only [maxWord, addressable] at bound most ⊢
    omega
  have tuples : totalParts? 0 reader.parts.toList = some reader.tupleCount := by
    rw [totalParts?_eq (by rw [Nat.zero_add]; exact room), Nat.zero_add]
    rfl
  simp only [materialize?, materialize, tuples, Option.bind_some, bind, Except.bind]
  cases sink.start reader.type reader.tupleCount state with
  | error error => rfl
  | ok started =>
      have bound : 0 + total (reader.chunks.map fun chunk => chunk.header.tupleCount.toNat) <
          addressable := by
        rw [Nat.zero_add, ← tupleCount_eq]
        exact room
      have walked := pushChunks?_eq sink few small (map_chunkAt_positions reader) bound 0 [] started
      simp only [count, walked]
      cases pushChunks .standard reader sink reader.chunks.length 0 .start 0 started with
      | error error => rfl
      | ok filled => cases sink.finish filled.2 <;> rfl

end Columnar.ColumnReader.Guarded
