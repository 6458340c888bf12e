import Columnar.Chunk.Corruption

namespace Columnar

/-!
String arrays.

The strings of a list are written back to back, behind the offsets where they begin and, last, the
offset where the data ends.  The first offset is zero and none is smaller than the one before it.
-/

namespace StringArray

/-- The totals reached after each of the lengths, beginning with a total. -/
def runningTotals (total : Nat) : List Nat → List Nat
  | [] => []
  | length :: rest => (total + length) :: runningTotals (total + length) rest

def encode (texts : List Bytes) : Bytes :=
  let ends := runningTotals 0 (texts.map (·.length))
  (0 :: ends).flatMap (Bytes.ofNat 4) ++ texts.flatten

/-- The first `count` words of a byte string. -/
def words : Nat → Bytes → List Nat
  | 0, _ => []
  | count + 1, bytes => Bytes.toNat (bytes.take 4) :: words count (bytes.drop 4)

/-- Whether no number is smaller than the one before it. -/
def ascends : List Nat → Bool
  | [] => true
  | [_] => true
  | first :: second :: rest => first ≤ second && ascends (second :: rest)

/-- Checks a string array of so many strings and returns its offsets and its data. -/
def decode (count : Nat) (bytes : Bytes) : Except Corruption (List Nat × Bytes) :=
  let header := (count + 1) * 4
  let available := bytes.length
  if available < header then .error (.offsetsMissing count)
  else
    let offsets := words (count + 1) bytes
    let last := offsets.getLastD 0
    if offsets.headD 0 ≠ 0 then .error .firstOffset
    else if !ascends offsets then .error .offsetsDecrease
    else if last ≠ available - header then .error (.lastOffset last (available - header))
    else .ok (offsets, bytes.drop header)

end StringArray

end Columnar
