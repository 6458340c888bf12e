import Columnar.Chunk.StringArray
import Columnar.Chunk.StringPool
import Columnar.Column.Basic
import Columnar.Options

namespace Columnar

/-!
Payloads: the slots of a chunk written in a scheme.

`Payload.encode` writes values in a scheme that can hold them, and `Payload.write` refuses those
whose lengths a payload cannot count, or stops where a run is longer than its counter.
`Payload.decode` checks a payload completely before any row of it is read, and lays the rows out in
one of two ways: number slots or a string array, or a table of pointers into string data.
-/

/-- The rows of a chunk, ready to be read.  When `indirect` is set they are strings reached
through a table of offsets and lengths. -/
structure Decoded where
  buffer : Bytes
  indirect : Bool
deriving DecidableEq, Repr

namespace Payload

def integerSlot (value : Int32) : Bytes := Bytes.ofNat 4 value.toUInt32.toNat

def doubleSlot (value : Double) : Bytes := Bytes.ofNat 8 value.bits.toNat

/-- The value that all entries of a list share. -/
def shared? {α : Type} [DecidableEq α] : List α → Option α
  | [] => none
  | first :: rest => if rest.all (· = first) then some first else none

/-- Puts an entry in front of runs, into the first of them if that has the same value. -/
def prependRun {α : Type} [DecidableEq α] (value : α) : List (α × Nat) → List (α × Nat)
  | [] => [(value, 1)]
  | (next, count) :: rest =>
      if value = next then (next, count + 1) :: rest else (value, 1) :: (next, count) :: rest

/-- The maximal runs of equal entries. -/
def runs {α : Type} [DecidableEq α] (list : List α) : List (α × Nat) := list.foldr prependRun []

def encodeRuns {α : Type} [DecidableEq α] (slot : α → Bytes) (list : List α) : Bytes :=
  let runs := runs list
  Bytes.ofNat 4 runs.length ++ runs.flatMap fun run => slot run.1 ++ Bytes.ofNat 4 run.2

def encodeStrings (texts : List String) : Bytes := StringArray.encode (texts.map Text.encode)

/-- A string behind its length. -/
def encodeOneString (text : String) : Bytes :=
  let bytes := Text.encode text
  Bytes.ofNat 4 bytes.length ++ bytes

/-- The distinct strings as a string array behind their number, then the number of each row's
string. -/
def encodeDictionary (texts : List String) : Bytes :=
  let (pool, codes) := StringPool.empty.internAll texts
  Bytes.ofNat 4 pool.size ++ encodeStrings pool.strings.toList ++ codes.flatMap (Bytes.ofNat 4)

/-- The payload of values in a scheme, unless the scheme cannot hold them. -/
def encode : Scheme → Values → Option Bytes
  | .uncompressed, .integers list => some (list.flatMap integerSlot)
  | .uncompressed, .doubles list => some (list.flatMap doubleSlot)
  | .uncompressed, .strings list => some (encodeStrings list)
  | .oneValue, .integers list => (shared? list).map integerSlot
  | .oneValue, .doubles list => (shared? list).map doubleSlot
  | .oneValue, .strings list => (shared? list).map encodeOneString
  | .runLength, .integers list => some (encodeRuns integerSlot list)
  | .runLength, .doubles list => some (encodeRuns doubleSlot list)
  | .dictionary, .strings list => some (encodeDictionary list)
  | _, _ => none

/-- The lengths that the payload of values writes down, each with what it is the length of. -/
def lengths : Scheme → Values → List (String × Nat)
  | .uncompressed, .strings list => [("string data", total (list.map (·.utf8ByteSize)))]
  | .oneValue, .strings list =>
      (shared? list).toList.map fun text => ("one-value string", text.utf8ByteSize)
  | .runLength, .integers list => [("run count", (runs list).length)]
  | .runLength, .doubles list => [("run count", (runs list).length)]
  | .dictionary, .strings list =>
      let (pool, _) := StringPool.empty.internAll list
      [("dictionary size", pool.size), ("string data", pool.dataBytes)]
  | _, _ => []

/-- The rows of each run that the payload of values is made of.  They are counted one by one, in a
word. -/
def runCounts : Scheme → Values → List Nat
  | .runLength, .integers list => (runs list).map (·.2)
  | .runLength, .doubles list => (runs list).map (·.2)
  | _, _ => []

/-- The payload of values in a scheme, unless the scheme cannot hold them.  The first length that a
word cannot hold is at fault, but the counter of a run overflows before the runs are counted. -/
def write (scheme : Scheme) (values : Values) : Except ChunkError (Option Bytes) :=
  if (runCounts scheme values).any (maxWord < ·) then .error (.overflow .runLength)
  else
    match (lengths scheme values).find? fun entry => maxWord < entry.2 with
    | some (what, length) => .error (.corrupt (.tooLong what length))
    | none => .ok (encode scheme values)

/-- As many slots as there are rows. -/
def decodeSlots (width rows : Nat) (payload : Bytes) : Except Corruption Decoded :=
  let found := payload.length
  if found = rows * width then .ok ⟨payload, false⟩
  else .error (.slotBytes (rows * width) rows found)

/-- One slot, repeated for every row. -/
def decodeOneSlot (width rows : Nat) (payload : Bytes) : Except Corruption Decoded :=
  let found := payload.length
  if found = width then .ok ⟨(List.replicate rows payload).flatten, false⟩
  else .error (.oneValueBytes width found)

/-- A slot and the number of rows that it stands for. -/
structure Run where
  slot : Bytes
  count : Nat

/-- Splits bytes into `count` runs over slots of the given width. -/
def splitRuns (width : Nat) : Nat → Bytes → List Run
  | 0, _ => []
  | count + 1, bytes =>
      ⟨bytes.take width, Bytes.toNat ((bytes.drop width).take 4)⟩ ::
        splitRuns width count (bytes.drop (width + 4))

def Run.expand (run : Run) : Bytes := (List.replicate run.count run.slot).flatten

/-- Runs whose counts add up to the number of rows. -/
def decodeRuns (width rows : Nat) (payload : Bytes) : Except Corruption Decoded :=
  match Bytes.takeNat? 4 payload with
  | none => .error (.endsBefore "run count")
  | some (count, rest) =>
      let found := rest.length
      if found ≠ count * (width + 4) then .error (.runBytes count (count * (width + 4)) found)
      else
        let runs := splitRuns width count rest
        let covered := total (runs.map (·.count))
        if rows < covered then .error (.runsTooLong rows)
        else if covered ≠ rows then .error (.runsTooShort covered rows)
        else .ok ⟨runs.flatMap Run.expand, false⟩

/-- A pointer to string data. -/
def pointer (offset length : Nat) : Bytes := Bytes.ofNat 4 offset ++ Bytes.ofNat 4 length

/-- One string behind its length; all rows point to it. -/
def decodeOneString (rows : Nat) (payload : Bytes) : Except Corruption Decoded :=
  match Bytes.takeNat? 4 payload with
  | none => .error (.endsBefore "one-value string length")
  | some (declared, text) =>
      let found := text.length
      if found ≠ declared then .error (.oneStringBytes declared found)
      else .ok ⟨(List.replicate rows (pointer 0 declared)).flatten ++ text, true⟩

/-- The pointers of rows that name entries of a dictionary by number. -/
def pointersOf (offsets : Array Nat) (entries : Nat) :
    Nat → List Nat → Except Corruption (List Bytes)
  | _, [] => .ok []
  | row, code :: rest =>
      if entries ≤ code then .error (.codeOutOfRange row code entries)
      else
        match pointersOf offsets entries (row + 1) rest with
        | .error cause => .error cause
        | .ok pointers =>
            let start := offsets[code]?.getD 0
            let stop := offsets[code + 1]?.getD 0
            .ok (pointer start (stop - start) :: pointers)

/-- A dictionary, and one entry number per row at the end. -/
def decodeDictionary (rows : Nat) (payload : Bytes) : Except Corruption Decoded :=
  match Bytes.takeNat? 4 payload with
  | none => .error (.endsBefore "dictionary size")
  | some (entries, rest) =>
      let available := rest.length
      if available < rows * 4 then .error .codesMissing
      else
        let split := available - rows * 4
        match StringArray.decode entries (rest.take split) with
        | .error cause => .error cause
        | .ok (offsets, data) =>
            let codes := StringArray.words rows (rest.drop split)
            match pointersOf offsets.toArray entries 0 codes with
            | .error cause => .error cause
            | .ok pointers => .ok ⟨pointers.flatten ++ data, true⟩

def decode : Scheme → ColumnType → Nat → Bytes → Except Corruption Decoded
  | .uncompressed, .integer, rows, payload => decodeSlots 4 rows payload
  | .uncompressed, .double, rows, payload => decodeSlots 8 rows payload
  | .uncompressed, .string, rows, payload =>
      match StringArray.decode rows payload with
      | .error cause => .error cause
      | .ok _ => .ok ⟨payload, false⟩
  | .oneValue, .integer, rows, payload => decodeOneSlot 4 rows payload
  | .oneValue, .double, rows, payload => decodeOneSlot 8 rows payload
  | .oneValue, .string, rows, payload => decodeOneString rows payload
  | .runLength, .integer, rows, payload => decodeRuns 4 rows payload
  | .runLength, .double, rows, payload => decodeRuns 8 rows payload
  | .dictionary, .string, rows, payload => decodeDictionary rows payload
  | scheme, type, _, _ => .error (.wrongScheme scheme type)

end Payload

end Columnar
