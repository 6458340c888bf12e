import Columnar.Chunk.StringArray
import Columnar.Proofs.Bytes.Reading

namespace Columnar.StringArray

/-!
Which byte strings are string arrays.

`Layout` says how a string array is laid out and `cut` which strings it holds.  Decoding accepts a
byte string exactly when it has such a layout, and then returns the layout's offsets and data.
-/

@[simp] theorem length_words (count : Nat) (bytes : Bytes) :
    (words count bytes).length = count := by
  induction count generalizing bytes with
  | zero => rfl
  | succ count ih => simp [words, ih]

theorem words_lt {count number : Nat} {bytes : Bytes} (member : number ∈ words count bytes) :
    number < Bytes.capacity 4 := by
  induction count generalizing bytes with
  | zero => simp [words] at member
  | succ count ih =>
      rcases List.mem_cons.mp member with rfl | later
      · have bound := Bytes.toNat_lt (bytes.take 4)
        have width : (bytes.take 4).length ≤ 4 := by simp only [List.length_take]; omega
        refine Nat.lt_of_lt_of_le bound ?_
        generalize (bytes.take 4).length = length at width
        have lengths : length = 0 ∨ length = 1 ∨ length = 2 ∨ length = 3 ∨ length = 4 := by omega
        rcases lengths with rfl | rfl | rfl | rfl | rfl <;> decide
      · exact ih later

theorem words_take {count limit : Nat} {bytes : Bytes} (enough : count * 4 ≤ limit) :
    words count (bytes.take limit) = words count bytes := by
  induction count generalizing bytes limit with
  | zero => rfl
  | succ count ih =>
      have first : (bytes.take limit).take 4 = bytes.take 4 := by
        rw [List.take_take, Nat.min_eq_left (by omega)]
      rw [words, words, first, List.drop_take, ih (by omega)]

/-- Reading words back from the bytes that were written for them. -/
theorem words_flatMap {numbers : List Nat} (rest : Bytes)
    (fits : ∀ number ∈ numbers, number < Bytes.capacity 4) :
    words numbers.length (numbers.flatMap (Bytes.ofNat 4) ++ rest) = numbers := by
  induction numbers with
  | nil => rfl
  | cons number others ih =>
      have first : (Bytes.ofNat 4 number).length = 4 := by simp
      have tail := ih fun other member => fits other (by simp [member])
      rw [List.length_cons, words, List.flatMap_cons, List.append_assoc,
        List.take_append_of_le_length (by simp), List.take_of_length_le (by simp),
        List.drop_append_of_le_length (by simp), List.drop_of_length_le (by simp),
        List.nil_append, tail, Bytes.toNat_ofNat_of_lt (fits number (by simp))]

/-- Writing words that were read gives the bytes that they were read from. -/
theorem flatMap_words {count : Nat} {bytes : Bytes} (enough : count * 4 ≤ bytes.length) :
    (words count bytes).flatMap (Bytes.ofNat 4) = bytes.take (count * 4) := by
  induction count generalizing bytes with
  | zero => simp [words]
  | succ count ih =>
      have width : (bytes.take 4).length = 4 := by simp only [List.length_take]; omega
      have first : Bytes.ofNat 4 (Bytes.toNat (bytes.take 4)) = bytes.take 4 := by
        have whole := Bytes.ofNat_toNat (bytes.take 4)
        rwa [width] at whole
      have rest := @ih (bytes.drop 4) (by simp only [List.length_drop]; omega)
      have total : (count + 1) * 4 = 4 + count * 4 := by omega
      rw [words, List.flatMap_cons, first, rest, total, List.take_add]

theorem length_flatMap_words (numbers : List Nat) :
    (numbers.flatMap (Bytes.ofNat 4)).length = numbers.length * 4 := by
  induction numbers with
  | nil => rfl
  | cons number others ih =>
      simp only [List.flatMap_cons, List.length_append, Bytes.length_ofNat, ih, List.length_cons]
      omega

theorem readNat?_flatMap {numbers : List Nat} {index : Nat} (rest : Bytes)
    (fits : ∀ number ∈ numbers, number < Bytes.capacity 4) (inside : index < numbers.length) :
    Bytes.readNat? (numbers.flatMap (Bytes.ofNat 4) ++ rest).toArray 4 (index * 4) =
      some numbers[index] := by
  have length := length_flatMap_words numbers
  have widths : ∀ part ∈ numbers.map (Bytes.ofNat 4), part.length = 4 := by
    intro part member
    obtain ⟨number, _, rfl⟩ := List.mem_map.mp member
    simp
  have place := slice_flatten_of_widths rest widths
    (show index < (numbers.map (Bytes.ofNat 4)).length by simpa using inside)
  rw [← List.flatMap_def, List.getElem_map] at place
  rw [Bytes.readNat?_toArray, if_pos (by rw [List.length_append]; omega), place,
    Bytes.toNat_ofNat_of_lt (fits _ (List.getElem_mem inside))]

theorem ascends_iff (numbers : List Nat) :
    ascends numbers = true ↔ numbers.Pairwise (· ≤ ·) := by
  induction numbers with
  | nil => simp [ascends]
  | cons first rest ih =>
      cases rest with
      | nil => simp [ascends]
      | cons second others =>
          rw [ascends, Bool.and_eq_true, decide_eq_true_eq, ih, List.pairwise_cons (a := first)]
          constructor
          · rintro ⟨step, later⟩
            refine ⟨?_, later⟩
            intro number member
            rcases List.mem_cons.mp member with rfl | behind
            · exact step
            · exact Nat.le_trans step (List.rel_of_pairwise_cons later behind)
          · rintro ⟨least, later⟩
            exact ⟨least second (by simp), later⟩

/-- The strings that offsets cut out of data. -/
def cut (data : Bytes) : List Nat → List Bytes
  | start :: stop :: rest => slice start stop data :: cut data (stop :: rest)
  | _ => []

theorem length_cut (data : Bytes) (offsets : List Nat) :
    (cut data offsets).length = offsets.length - 1 := by
  induction offsets with
  | nil => rfl
  | cons start rest ih =>
      cases rest with
      | nil => rfl
      | cons stop others => simp [cut, ih]

theorem getElem_cut {data : Bytes} {offsets : List Nat} {index : Nat}
    (inside : index + 1 < offsets.length) (within : index < (cut data offsets).length) :
    (cut data offsets)[index] =
      slice offsets[index] offsets[index + 1] data := by
  induction offsets generalizing index with
  | nil => simp at inside
  | cons start rest ih =>
      cases rest with
      | nil => simp at inside
      | cons stop others =>
          cases index with
          | zero => rfl
          | succ index =>
              simp only [cut, List.getElem_cons_succ]
              exact ih (by simpa using inside) _

/-- Offsets from zero up to the end of the data, none below the one before it, each in a word, and
then the data. -/
structure Layout (offsets : List Nat) (data bytes : Bytes) : Prop where
  written : bytes = offsets.flatMap (Bytes.ofNat 4) ++ data
  fits : ∀ offset ∈ offsets, offset < Bytes.capacity 4
  first : offsets.head? = some 0
  ascending : offsets.Pairwise (· ≤ ·)
  last : offsets.getLast? = some data.length

section Layouts

variable {offsets : List Nat} {data bytes : Bytes} {count : Nat}

theorem Layout.length_eq (layout : Layout offsets data bytes) :
    bytes.length = offsets.length * 4 + data.length := by
  rw [layout.written, List.length_append, length_flatMap_words]

theorem Layout.le_data (layout : Layout offsets data bytes) {index : Nat}
    (inside : index < offsets.length) : offsets[index] ≤ data.length := by
  have last := layout.last
  rw [List.getLast?_eq_getElem?, List.getElem?_eq_some_iff] at last
  obtain ⟨bound, final⟩ := last
  by_cases end_ : index = offsets.length - 1
  · subst end_
    exact Nat.le_of_eq final
  · rw [← final]
    exact List.pairwise_iff_getElem.mp layout.ascending _ _ inside bound (by omega)

theorem Layout.step (layout : Layout offsets data bytes) {index : Nat}
    (inside : index + 1 < offsets.length) : offsets[index] ≤ offsets[index + 1] :=
  List.pairwise_iff_getElem.mp layout.ascending _ _ (by omega) inside (by omega)

theorem Layout.decode (layout : Layout offsets data bytes) (size : offsets.length = count + 1) :
    decode count bytes = .ok (offsets, data) := by
  have length := layout.length_eq
  have read : words (count + 1) bytes = offsets := by
    rw [layout.written, ← size, words_flatMap data layout.fits]
  have dropped : bytes.drop ((count + 1) * 4) = data := by
    rw [layout.written, ← size, ← length_flatMap_words, List.drop_left]
  have head : offsets.headD 0 = 0 := by rw [List.headD_eq_head?_getD, layout.first]; rfl
  have last : offsets.getLastD 0 = data.length := by
    rw [List.getLastD_eq_getLast?, layout.last]; rfl
  have ascending := (ascends_iff offsets).mpr layout.ascending
  rw [size] at length
  have enough : ¬ bytes.length < (count + 1) * 4 := by omega
  have rest : data.length = bytes.length - (count + 1) * 4 := by omega
  simp only [StringArray.decode, if_neg enough, read, head, ascending, last, rest, dropped, ne_eq,
    not_true_eq_false, if_false, Bool.not_true, Bool.false_eq_true]

theorem layout_of_decode (decoded : decode count bytes = .ok (offsets, data)) :
    Layout offsets data bytes ∧ offsets.length = count + 1 := by
  unfold StringArray.decode at decoded
  dsimp only at decoded
  split at decoded
  · contradiction
  rename_i enough
  split at decoded
  · contradiction
  rename_i first
  split at decoded
  · contradiction
  rename_i ascending
  split at decoded
  · contradiction
  rename_i last
  simp only [Except.ok.injEq, Prod.mk.injEq] at decoded
  obtain ⟨rfl, rfl⟩ := decoded
  have size : (words (count + 1) bytes).length = count + 1 := length_words _ _
  have nonempty : words (count + 1) bytes ≠ [] := by
    intro empty
    simp [empty] at size
  refine ⟨⟨?_, fun _ member => words_lt member, ?_, ?_, ?_⟩, size⟩
  · rw [flatMap_words (by omega), List.take_append_drop]
  · rw [List.headD_eq_head?_getD, List.head?_eq_some_head nonempty] at first
    rw [List.head?_eq_some_head nonempty]
    simpa using first
  · exact (ascends_iff _).mp (by simpa using ascending)
  · rw [List.getLastD_eq_getLast?, List.getLast?_eq_some_getLast nonempty] at last
    rw [List.getLast?_eq_some_getLast nonempty, List.length_drop]
    simpa using last

end Layouts

/-- A string array of the given strings. -/
def Holds (texts : List Bytes) (bytes : Bytes) : Prop :=
  ∃ offsets data, Layout offsets data bytes ∧ texts = cut data offsets

theorem Layout.length_offsets {offsets : List Nat} {data bytes : Bytes}
    (layout : Layout offsets data bytes) : offsets.length = (cut data offsets).length + 1 := by
  have nonempty : offsets ≠ [] := by
    rintro rfl
    exact absurd layout.first (by simp)
  have positive := List.length_pos_iff.mpr nonempty
  rw [length_cut]
  omega

end Columnar.StringArray
