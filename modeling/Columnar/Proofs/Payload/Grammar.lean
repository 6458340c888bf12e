import Columnar.Chunk.Payload
import Columnar.Proofs.Payload.StringArrays

namespace Columnar.Payload

/-!
The grammar of payloads.

`Spells scheme type rows payload` says that a payload writes the given rows in a scheme, each row as
the bytes of its slot or of its string.  Counts and lengths stand in 32-bit words.  The grammar
speaks of neither the encoder nor the decoder.
-/

/-- The bytes of a number's slot. -/
def slotWidth? : ColumnType → Option Nat
  | .integer => some 4
  | .double => some 8
  | .string | .skip => none

def Run.rows (run : Run) : List Bytes := List.replicate run.count run.slot

def Run.written (run : Run) : Bytes := run.slot ++ Bytes.ofNat 4 run.count

inductive Spells : Scheme → ColumnType → List Bytes → Bytes → Prop
  /-- A slot for each row, back to back. -/
  | slots {type : ColumnType} {width : Nat} {rows : List Bytes}
      (numeric : slotWidth? type = some width) (widths : ∀ slot ∈ rows, slot.length = width) :
      Spells .uncompressed type rows rows.flatten
  /-- One slot for all rows, however many. -/
  | oneSlot {type : ColumnType} {slot : Bytes} (count : Nat)
      (numeric : slotWidth? type = some slot.length) :
      Spells .oneValue type (List.replicate count slot) slot
  /-- A string array of the rows. -/
  | strings {rows : List Bytes} {payload : Bytes} (array : StringArray.Holds rows payload) :
      Spells .uncompressed .string rows payload
  /-- One string behind its length. -/
  | oneString {text : Bytes} (count : Nat) (short : text.length < Bytes.capacity 4) :
      Spells .oneValue .string (List.replicate count text) (Bytes.ofNat 4 text.length ++ text)
  /-- The number of runs, then each run as its slot and its count, which may be zero. -/
  | runs {type : ColumnType} {width : Nat} {runs : List Run}
      (numeric : slotWidth? type = some width) (widths : ∀ run ∈ runs, run.slot.length = width)
      (counts : ∀ run ∈ runs, run.count < Bytes.capacity 4) (few : runs.length < Bytes.capacity 4) :
      Spells .runLength type (runs.flatMap Run.rows)
        (Bytes.ofNat 4 runs.length ++ runs.flatMap Run.written)
  /-- The number of entries, a string array of them, then each row's entry number. -/
  | dictionary {entries : List Bytes} {array : Bytes} {codes : List Nat}
      (holds : StringArray.Holds entries array) (few : entries.length < Bytes.capacity 4)
      (known : ∀ code ∈ codes, code < entries.length) :
      Spells .dictionary .string (codes.map fun code => entries.getD code [])
        (Bytes.ofNat 4 entries.length ++ array ++ codes.flatMap (Bytes.ofNat 4))

/-- What the bytes of a row say: a number, or a text if they are UTF-8. -/
def rowValue (type : ColumnType) (row : Nat) (bytes : Bytes) : Except Corruption Cell :=
  match type with
  | .integer => .ok (.integer (UInt32.ofNat (Bytes.toNat bytes)).toInt32)
  | .double => .ok (.double ⟨UInt64.ofNat (Bytes.toNat bytes)⟩)
  | .string | .skip =>
      match Text.decode bytes with
      | .ok text => .ok (.string text)
      | .error fault => .error (.stringUtf8 row fault)

end Columnar.Payload
