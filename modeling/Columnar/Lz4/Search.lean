import Columnar.Lz4.Block

namespace Columnar.Lz4

/-!
Finding copies.

The search walks over the data and remembers, for each of 4096 hash values, the last position
whose bytes have it.  A remembered position within reach whose four bytes agree gives a copy,
which is then made as long as the bytes agree.  The longer nothing is found the larger the steps.
Which copies are found depends on the hash, that the block stands for the data does not: every
copy is compared first.
-/

/-- The number held by the `width` bytes at a position. -/
def wordAt (data : Array UInt8) (width position : Nat) : Nat :=
  (Bytes.readNat? data width position).getD 0

/-- The hash of the bytes at a position: of four bytes when positions fit two bytes, else of
five. -/
def hashAt (data : Array UInt8) (position : Nat) : Nat :=
  if data.size < 65535 then
    wordAt data 4 position * 2654435761 % 0x100000000 / 0x100000
  else
    let lifted := wordAt data 8 position * 0x1000000 % 0x10000000000000000
    lifted * 889523592379 % 0x10000000000000000 / 0x10000000000000

/-- The last position seen for each hash value, at first position zero. -/
abbrev Table := Array Nat

def Table.empty : Table := Array.replicate 4096 0

/-- The farthest that a copy can reach back. -/
def farthest : Nat := 65535

/-- Positions from which on no copy may start, counted from the end. -/
def startMargin : Nat := 12

/-- Bytes at the end that no copy may cover. -/
def endMargin : Nat := 6

/-- A position where a copy can start, and the earlier position to copy from. -/
structure Hit where
  source : Nat
  position : Nat

/-- Looks for the next hit from a position on, after the given number of misses. -/
def findHit (data : Array UInt8) (table : Table) (position misses : Nat) : Option Hit × Table :=
  if data.size < position + startMargin then (none, table)
  else
    let hash := hashAt data position
    let source := table[hash]?.getD 0
    let table := table.setIfInBounds hash position
    if source < position ∧ position - source ≤ farthest ∧
        wordAt data 4 source = wordAt data 4 position then
      (some ⟨source, position⟩, table)
    else findHit data table (position + (32 + misses) / 32) (misses + 1)
termination_by data.size - position
decreasing_by
  simp only [startMargin] at *
  omega

/-- Moves both ends of a hit back while the bytes in front of them agree, not past `start`. -/
def extendBack (data : Array UInt8) (start : Nat) : Nat → Nat → Hit
  | 0, position => ⟨0, position⟩
  | source + 1, position =>
      if start < position ∧ data[source]? = data[position - 1]? then
        extendBack data start source (position - 1)
      else ⟨source + 1, position⟩

/-- How many bytes from two positions on agree, short of the end margin. -/
def countAgreeing (data : Array UInt8) (source position agreed : Nat) : Nat :=
  if position + endMargin < data.size ∧ data[source]? = data[position]? then
    countAgreeing data (source + 1) (position + 1) (agreed + 1)
  else agreed
termination_by data.size - position

/-- The bytes from `start` up to `stop`. -/
def between (data : Array UInt8) (start stop : Nat) : Bytes := (data.extract start stop).toList

/-- The sequences of the data from `start` on.  Every sequence covers at least four bytes, so the
size of the data bounds their number. -/
def sequencesFrom (data : Array UInt8) : Nat → Table → Nat → Nat → Block
  | 0, _, start, _ => ⟨[], between data start data.size⟩
  | bound + 1, table, start, position =>
      match findHit data table position 0 with
      | (none, _) => ⟨[], between data start data.size⟩
      | (some hit, table) =>
          let moved := extendBack data start hit.source hit.position
          let agreed := countAgreeing data (moved.source + minimumMatch)
            (moved.position + minimumMatch) 0
          let next := moved.position + minimumMatch + agreed
          let table := table.setIfInBounds (hashAt data (next - 2)) (next - 2)
          let rest := sequencesFrom data bound table next next
          let sequence :=
            { literals := between data start moved.position
              offset := moved.position - moved.source
              length := minimumMatch + agreed }
          ⟨sequence :: rest.sequences, rest.last⟩

/-- The block of a byte string; short ones are a single literal run. -/
def Block.ofBytes (bytes : Bytes) : Block :=
  let data := bytes.toArray
  if data.size < startMargin + 1 then ⟨[], bytes⟩
  else sequencesFrom data data.size (Table.empty.setIfInBounds (hashAt data 0) 0) 0 1

/-- The block of a byte string behind its length. -/
def compress (bytes : Bytes) : Bytes :=
  Bytes.ofNat 4 bytes.length ++ (Block.ofBytes bytes).serialize

end Columnar.Lz4
