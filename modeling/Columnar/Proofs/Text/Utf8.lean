import Columnar.Text.Utf8

namespace Columnar.Text

/-!
UTF-8 can be cut at ASCII bytes.

A byte below 128 is a character of its own wherever it stands in a text, so what is in front of it
and what is behind it are texts again.
-/

def IsUtf8 (bytes : Bytes) : Prop := ∃ text, encode text = bytes

theorem encode_eq_flatMap (text : String) :
    encode text = text.toList.flatMap String.utf8EncodeChar := by
  have chars : text.toByteArray = text.toList.utf8Encode := by
    rw [← String.toByteArray_ofList, String.ofList_toList]
  rw [encode, chars, List.utf8Encode, List.data_toByteArray, List.toList_toArray]

/-- The size of a text of one letter. -/
theorem utf8ByteSize_replicate (letters : Nat) (letter : Char) :
    (String.ofList (List.replicate letters letter)).utf8ByteSize = letters * letter.utf8Size := by
  have size (text : String) : text.utf8ByteSize = (encode text).length := rfl
  rw [size, encode_eq_flatMap, String.toList_ofList, List.length_flatMap, List.map_replicate,
    List.sum_replicate_nat, String.length_utf8EncodeChar]

theorem isUtf8_iff {bytes : Bytes} :
    IsUtf8 bytes ↔ ∃ chars : List Char, chars.flatMap String.utf8EncodeChar = bytes := by
  constructor
  · rintro ⟨text, rfl⟩
    exact ⟨text.toList, (encode_eq_flatMap text).symm⟩
  · rintro ⟨chars, rfl⟩
    exact ⟨String.ofList chars, by rw [encode_eq_flatMap, String.toList_ofList]⟩

theorem isUtf8_iff_decode {bytes : Bytes} : IsUtf8 bytes ↔ ∃ text, decode bytes = .ok text := by
  constructor
  · rintro ⟨text, rfl⟩
    exact ⟨text, decode_encode text⟩
  · rintro ⟨text, decoded⟩
    exact ⟨text, encode_of_decode decoded⟩

theorem isUtf8_append {front back : Bytes} (left : IsUtf8 front) (right : IsUtf8 back) :
    IsUtf8 (front ++ back) := by
  obtain ⟨first, rfl⟩ := isUtf8_iff.mp left
  obtain ⟨second, rfl⟩ := isUtf8_iff.mp right
  exact isUtf8_iff.mpr ⟨first ++ second, List.flatMap_append⟩

theorem high_or {value high : UInt8} (bound : 0x80 ≤ high) : 0x80 ≤ value ||| high := by
  rw [UInt8.le_iff_toNat_le] at bound ⊢
  rw [UInt8.toNat_or]
  exact Nat.le_trans bound Nat.right_le_or

/-- An ASCII byte among the bytes of a character is the whole character. -/
theorem utf8EncodeChar_of_ascii {char : Char} {byte : UInt8}
    (member : byte ∈ String.utf8EncodeChar char) (ascii : byte < 0x80) :
    String.utf8EncodeChar char = [byte] := by
  have low (high : 0x80 ≤ byte) : False := UInt8.not_le.mpr ascii high
  rcases Char.utf8Size_eq char with one | two | three | four
  · rw [String.utf8EncodeChar_eq_singleton one, List.mem_singleton] at member
    rw [String.utf8EncodeChar_eq_singleton one, member]
  · rw [String.utf8EncodeChar_eq_cons_cons two] at member
    simp only [List.mem_cons, List.not_mem_nil, or_false] at member
    rcases member with rfl | rfl <;> exact (low (high_or (by decide))).elim
  · rw [String.utf8EncodeChar_eq_cons_cons_cons three] at member
    simp only [List.mem_cons, List.not_mem_nil, or_false] at member
    rcases member with rfl | rfl | rfl <;> exact (low (high_or (by decide))).elim
  · rw [String.utf8EncodeChar_eq_cons_cons_cons_cons four] at member
    simp only [List.mem_cons, List.not_mem_nil, or_false] at member
    rcases member with rfl | rfl | rfl | rfl <;> exact (low (high_or (by decide))).elim

theorem isUtf8_split {front back : Bytes} {byte : UInt8} (ascii : byte < 0x80)
    (whole : IsUtf8 (front ++ byte :: back)) : IsUtf8 front ∧ IsUtf8 back := by
  obtain ⟨chars, spelled⟩ := isUtf8_iff.mp whole
  clear whole
  induction chars generalizing front with
  | nil => simp at spelled
  | cons char rest ih =>
      rw [List.flatMap_cons, List.append_eq_append_iff] at spelled
      rcases spelled with ⟨middle, split, later⟩ | ⟨middle, split, later⟩
      · obtain ⟨left, right⟩ := ih later
        rw [split]
        exact ⟨isUtf8_append (isUtf8_iff.mpr ⟨[char], by simp⟩) left, right⟩
      · cases middle with
        | nil =>
            rw [List.append_nil] at split
            obtain ⟨-, right⟩ := @ih [] later.symm
            exact ⟨isUtf8_iff.mpr ⟨[char], by simp [split]⟩, right⟩
        | cons first others =>
            rw [List.cons_append, List.cons.injEq] at later
            obtain ⟨rfl, behind⟩ := later
            have single := @utf8EncodeChar_of_ascii char byte (by simp [split]) ascii
            rw [single] at split
            -- The character is the byte alone, so it is the first one and nothing else is cut.
            cases front with
            | nil =>
                rw [List.nil_append, List.cons.injEq] at split
                rw [← split.2, List.nil_append] at behind
                exact ⟨⟨"", rfl⟩, isUtf8_iff.mpr ⟨rest, behind.symm⟩⟩
            | cons other more =>
                have length := congrArg List.length split
                simp at length

theorem isUtf8_of_cons {byte : UInt8} {rest : Bytes} (ascii : byte < 0x80)
    (whole : IsUtf8 (byte :: rest)) : IsUtf8 rest :=
  (@isUtf8_split [] rest byte ascii whole).2

end Columnar.Text
