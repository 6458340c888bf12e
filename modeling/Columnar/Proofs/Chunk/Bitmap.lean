import Columnar.Chunk.Bitmap
import Columnar.Options
import Columnar.Proofs.Column.Validity

namespace Columnar.Bitmap

/-!
Stored bitmaps say what the validity bits said.
-/

variable {bits : Validity} {list : List Bool} {row : Nat}

theorem isNull_ofValidity (represents : bits.Represents list) (inside : row < list.length) :
    (ofValidity bits).isNull row = !list[row] := by
  have length := represents.length
  have ones := represents.ones
  unfold ofValidity
  split
  · rename_i none
    have absent : true ∉ list := List.count_eq_zero.mp (by omega)
    have bit : list[row] = false := by
      cases value : list[row] with
      | false => rfl
      | true => exact absurd (value ▸ List.getElem_mem inside) absent
    rw [bit]
    rfl
  split
  · rename_i all
    have full : ∀ present ∈ list, true = present := List.count_eq_length.mp (by omega)
    rw [← full list[row] (List.getElem_mem inside)]
    rfl
  · have bit := represents.bit row
    have size := represents.size
    have reach : row / 8 < bits.packed.size := by omega
    rw [Validity.bitAt, Array.getElem?_eq_getElem reach, Option.getD_some,
      List.getD_eq_getElem?_getD, List.getElem?_eq_getElem inside, Option.getD_some] at bit
    have found : bits.toBytes.toArray[row / 8]? = some bits.packed[row / 8] := by
      rw [represents.toBytes, Array.toArray_toList, Array.getElem?_eq_getElem reach]
    simp only [isNull, found, bit]

theorem checkRows_ofValidity (represents : bits.Represents list) (short : list.length ≤ maxWord) :
    (ofValidity bits).checkRows (UInt32.ofNat list.length) = .ok () := by
  have small : (UInt32.ofNat list.length).toNat = list.length := by
    rw [UInt32.toNat_ofNat']
    simp only [maxWord] at short
    omega
  unfold ofValidity
  split
  · rfl
  split
  · rfl
  · have size := represents.size
    have enough : ¬ bits.toBytes.toArray.size < (list.length + 7) / 8 := by
      rw [represents.toBytes, Array.toArray_toList]
      omega
    simp only [checkRows, represents.length, small, ne_eq, not_true_eq_false, enough, or_self,
      if_false]

end Columnar.Bitmap
