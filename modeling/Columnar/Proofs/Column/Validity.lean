import Columnar.Column.Validity

namespace Columnar.Validity

/-!
Validity bits stand for lists.

`Represents` says which list a vector stands for: its length, how many of its bits are set, and
every bit, those past the end being zero.  Pushing and slicing keep to it.
-/

structure Represents (bits : Validity) (list : List Bool) : Prop where
  length : bits.length = list.length
  ones : bits.ones = list.count true
  size : bits.packed.size = (list.length + 7) / 8
  bit : ∀ index, bits.bitAt index = list.getD index false

theorem represents_empty : Represents empty [] := by
  refine ⟨rfl, rfl, rfl, ?_⟩
  intro index
  simp [bitAt, empty]

theorem testBit_mask {place : Nat} (inside : place < 8) (present : Bool) (other : Nat) :
    (if present then UInt8.ofNat (1 <<< place) else 0 : UInt8).toNat.testBit other =
      (present && decide (place = other)) := by
  cases present with
  | false => simp
  | true =>
      have small : 1 <<< place < 256 := by
        rw [Nat.one_shiftLeft]
        exact Nat.pow_lt_pow_right (by decide) inside
      have value : (UInt8.ofNat (1 <<< place)).toNat = 2 ^ place := by
        rw [UInt8.toNat_ofNat', Nat.mod_eq_of_lt small, Nat.one_shiftLeft]
      simp only [if_true, value, Nat.testBit_two_pow, Bool.true_and]

theorem getD_append_singleton (list : List Bool) (present : Bool) (index : Nat) :
    (list ++ [present]).getD index false =
      (list.getD index false || (present && decide (list.length = index))) := by
  simp only [List.getD_eq_getElem?_getD, List.getElem?_append]
  by_cases inside : index < list.length
  · have other : list.length ≠ index := by omega
    simp [inside, other]
  · rw [if_neg inside, List.getElem?_eq_none (by omega : list.length ≤ index)]
    by_cases last : index = list.length
    · simp [last]
    · have far : index - list.length ≠ 0 := by omega
      have other : list.length ≠ index := fun same => last same.symm
      cases step : index - list.length with
      | zero => exact absurd step far
      | succ more => simp [other]

theorem bitAt_push {bits : Validity} (size : bits.packed.size = (bits.length + 7) / 8)
    (present : Bool) (index : Nat) :
    (bits.push present).bitAt index =
      (bits.bitAt index || (present && decide (bits.length = index))) := by
  have place : bits.length % 8 < 8 := Nat.mod_lt _ (by decide)
  unfold bitAt
  -- A new byte is begun where the bits so far fill theirs; otherwise the last byte takes the bit.
  by_cases full : bits.length % 8 = 0
  · simp only [Validity.push, full, if_true]
    by_cases here : index / 8 = bits.packed.size
    · have beyond : bits.packed[index / 8]? = none := by
        rw [Array.getElem?_eq_none_iff]
        omega
      have aligned : decide (0 = index % 8) = decide (bits.length = index) := by
        apply decide_eq_decide.mpr
        omega
      rw [beyond, here, Array.getElem?_push_size, Option.getD_some, testBit_mask (by decide),
        aligned]
      simp
    · have other : ¬ bits.length = index := by omega
      rw [Array.getElem?_push, if_neg here]
      simp [other]
  · simp only [Validity.push, full, if_false, Array.getElem?_modify]
    by_cases here : bits.length / 8 = index / 8
    · have inside : index / 8 < bits.packed.size := by omega
      have aligned : decide (bits.length % 8 = index % 8) = decide (bits.length = index) := by
        apply decide_eq_decide.mpr
        omega
      rw [if_pos here, Array.getElem?_eq_getElem inside, Option.map_some, Option.getD_some,
        Option.getD_some, UInt8.toNat_or, Nat.testBit_or, testBit_mask place, aligned]
    · have other : ¬ bits.length = index := by omega
      simp [here, other]

theorem Represents.push {bits : Validity} {list : List Bool} (represents : Represents bits list)
    (present : Bool) : Represents (bits.push present) (list ++ [present]) := by
  obtain ⟨length, ones, size, bit⟩ := represents
  refine ⟨by simp [Validity.push, length], ?_, ?_, ?_⟩
  · cases present <;> simp [Validity.push, ones]
  · by_cases full : bits.length % 8 = 0
    · simp only [Validity.push, full, if_true, Array.size_push, size, List.length_append,
        List.length_singleton]
      omega
    · simp only [Validity.push, full, if_false, Array.size_modify, size, List.length_append,
        List.length_singleton]
      omega
  · intro index
    rw [bitAt_push (by rw [size, length]), getD_append_singleton, bit, length]

theorem represents_foldl {bits : Validity} {list : List Bool} (represents : Represents bits list)
    (more : List Bool) : Represents (more.foldl Validity.push bits) (list ++ more) := by
  induction more generalizing bits list with
  | nil => simpa using represents
  | cons present rest ih => simpa using ih (represents.push present)

theorem represents_ofList (list : List Bool) : Represents (ofList list) list := by
  simpa [ofList] using represents_foldl represents_empty list

section Reading

variable {bits : Validity} {list : List Bool}

theorem Represents.toList (represents : Represents bits list) : bits.toList = list := by
  apply List.ext_getElem
  · simp [Validity.toList, represents.length]
  · intro index _ inside
    simp [Validity.toList, represents.bit, inside]

theorem Represents.get? (represents : Represents bits list) (row : Nat) :
    bits.get? row = list[row]? := by
  rw [Validity.get?, represents.bit, represents.length]
  by_cases inside : row < list.length
  · simp [inside]
  · simp [inside]

theorem Represents.zeros (represents : Represents bits list) :
    bits.zeros = list.length - list.count true := by
  rw [Validity.zeros, represents.length, represents.ones]

/-- A slice stands for the bits between its bounds, as far as there are any. -/
theorem Represents.slice (represents : Represents bits list) (start stop : Nat) :
    bits.slice start stop = ofList ((list.take stop).drop start) := by
  unfold Validity.slice
  dsimp only
  congr 1
  have length := represents.length
  apply List.ext_getElem
  · simp only [List.length_map, List.length_range', List.length_drop, List.length_take]
    omega
  · intro index first inside
    have place : min start (min stop bits.length) = start := by
      simp only [List.length_drop, List.length_take] at inside
      omega
    have bound : start + index < list.length := by
      simp only [List.length_drop, List.length_take] at inside
      omega
    simp [represents.bit, place, bound]

theorem Represents.toBytes (represents : Represents bits list) :
    bits.toBytes = bits.packed.toList := by
  rw [Validity.toBytes, represents.length, ← represents.size]
  exact List.take_of_length_le (by simp)

end Reading

end Columnar.Validity
