import Columnar.Bytes

namespace Columnar

/-!
Reading numbers out of byte strings.

A buffer is read by position, what is written is a concatenation.  The lemmas here pass from one to
the other: a read depends on the slice that it covers alone, and slices of concatenations of
equally wide pieces are the pieces.
-/

section Slices

variable {α : Type}

def slice (start stop : Nat) (list : List α) : List α := (list.drop start).take (stop - start)

theorem length_slice (start stop : Nat) (list : List α) (inside : stop ≤ list.length) :
    (slice start stop list).length = stop - start := by
  simp only [slice, List.length_take, List.length_drop]
  omega

theorem toList_extract (list : List α) (start stop : Nat) :
    (list.toArray.extract start stop).toList = slice start stop list := by
  simp [slice]

theorem slice_append_right (front back : List α) (start stop : Nat) :
    slice (front.length + start) (front.length + stop) (front ++ back) = slice start stop back := by
  have width : front.length + stop - (front.length + start) = stop - start := by omega
  rw [slice, slice, width, ← List.drop_drop, List.drop_left]

theorem slice_append_left (front back : List α) (start stop : Nat) (inside : stop ≤ front.length) :
    slice start stop (front ++ back) = slice start stop front := by
  by_cases backwards : stop ≤ start
  · simp [slice, Nat.sub_eq_zero_of_le backwards]
  · rw [slice, slice, List.drop_append_of_le_length (by omega),
      List.take_append_of_le_length (by simp only [List.length_drop]; omega)]

/-- A piece in the middle of a concatenation is a slice of it. -/
theorem slice_middle (front piece back : List α) :
    slice front.length (front.length + piece.length) (front ++ piece ++ back) = piece := by
  have inside : slice 0 piece.length (piece ++ back) = piece := by simp [slice]
  have moved := slice_append_right front (piece ++ back) 0 piece.length
  rw [inside, Nat.add_zero, ← List.append_assoc] at moved
  exact moved

theorem slice_zero_length (list : List α) : slice 0 list.length list = list := by
  simp [slice]

theorem slice_append_slice {start middle stop : Nat} (list : List α)
    (first : start ≤ middle) (second : middle ≤ stop) :
    slice start middle list ++ slice middle stop list = slice start stop list := by
  have width : stop - start = (middle - start) + (stop - middle) := by omega
  have place : start + (middle - start) = middle := by omega
  rw [slice, slice, slice, width, List.take_add, List.drop_drop, place]

theorem drop_flatten_of_widths {parts : List (List α)} {width : Nat}
    (widths : ∀ part ∈ parts, part.length = width) (index : Nat) :
    parts.flatten.drop (index * width) = (parts.drop index).flatten := by
  induction parts generalizing index with
  | nil => simp
  | cons part rest ih =>
      have first := widths part (by simp)
      have others : ∀ part ∈ rest, part.length = width := fun part member =>
        widths part (by simp [member])
      cases index with
      | zero => simp
      | succ index =>
          have place : (index + 1) * width = part.length + index * width := by
            rw [first, Nat.add_mul, Nat.one_mul, Nat.add_comm]
          rw [List.flatten_cons, List.drop_succ_cons, place, ← List.drop_drop, List.drop_left]
          exact ih others index

theorem length_flatten_of_widths {parts : List (List α)} {width : Nat}
    (widths : ∀ part ∈ parts, part.length = width) :
    parts.flatten.length = parts.length * width := by
  induction parts with
  | nil => simp
  | cons part rest ih =>
      have others := ih fun part member => widths part (by simp [member])
      rw [List.flatten_cons, List.length_append, others, widths part (by simp), List.length_cons,
        Nat.add_mul, Nat.one_mul, Nat.add_comm]

/-- A concatenation of equally wide pieces is cut at multiples of the width. -/
theorem slice_flatten_of_widths {parts : List (List α)} {width index : Nat} (rest : List α)
    (widths : ∀ part ∈ parts, part.length = width) (inside : index < parts.length) :
    slice (index * width) (index * width + width) (parts.flatten ++ rest) = parts[index] := by
  have total := length_flatten_of_widths widths
  have reach : (index + 1) * width ≤ parts.length * width := Nat.mul_le_mul_right width inside
  rw [Nat.add_mul, Nat.one_mul] at reach
  have size : parts[index].length = width := widths _ (List.getElem_mem inside)
  rw [slice_append_left _ _ _ _ (by omega), slice, drop_flatten_of_widths widths,
    List.drop_eq_getElem_cons inside, List.flatten_cons, Nat.add_sub_cancel_left, ← size,
    List.take_left]

end Slices

namespace Bytes

theorem readNat?_toArray (bytes : Bytes) (width start : Nat) :
    readNat? bytes.toArray width start =
      if start + width ≤ bytes.length then some (toNat (slice start (start + width) bytes))
      else none := by
  simp only [readNat?, List.size_toArray, toList_extract]

theorem readNat?_lt {buffer : Array UInt8} {width start value : Nat}
    (read : readNat? buffer width start = some value) : value < capacity width := by
  unfold readNat? at read
  split at read
  · rename_i inside
    cases read
    have length : (buffer.extract start (start + width)).toList.length = width := by
      simp only [Array.length_toList, Array.size_extract]
      omega
    have bound := toNat_lt (buffer.extract start (start + width)).toList
    rwa [length] at bound
  · contradiction

theorem capacity_four : capacity 4 = 4294967296 := rfl

theorem toNat_ofNat_of_lt {width value : Nat} (fits : value < capacity width) :
    toNat (ofNat width value) = value := by
  rw [toNat_ofNat, Nat.mod_eq_of_lt fits]

theorem ofNat_mod (width value : Nat) :
    ofNat width (value % capacity width) = ofNat width value := by
  have whole := ofNat_toNat (ofNat width value)
  rwa [length_ofNat, toNat_ofNat] at whole

/-- A number written in the middle of a byte string is read back at its place. -/
theorem readNat?_middle {width value : Nat} (front back : Bytes) (fits : value < capacity width) :
    readNat? (front ++ ofNat width value ++ back).toArray width front.length = some value := by
  have piece := slice_middle front (ofNat width value) back
  rw [length_ofNat] at piece
  have inside : front.length + width ≤ (front ++ ofNat width value ++ back).length := by
    simp only [List.length_append, length_ofNat]
    omega
  rw [readNat?_toArray, if_pos inside, piece, toNat_ofNat_of_lt fits]

end Bytes

end Columnar
