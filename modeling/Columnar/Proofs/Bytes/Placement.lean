import Columnar.Proofs.Bytes.Reading

namespace Columnar.Bytes

/-!
Pieces at their positions in a file.

What a file is made of stands at known positions.  A piece that is a concatenation is taken apart
with `left` and `right`; a piece that is a number or a byte is then read back.
-/

/-- A piece stands in a file behind so many bytes. -/
def Placed (piece : Bytes) (position : Nat) (file : Bytes) : Prop :=
  ∃ front back, file = front ++ piece ++ back ∧ front.length = position

variable {piece first second file rest : Bytes} {position : Nat} {byte : UInt8}

theorem Placed.whole (file : Bytes) : Placed file 0 file := ⟨[], [], by simp, rfl⟩

theorem Placed.left (placed : Placed (first ++ second) position file) :
    Placed first position file := by
  obtain ⟨front, back, rfl, length⟩ := placed
  exact ⟨front, second ++ back, by simp only [List.append_assoc], length⟩

theorem Placed.right (placed : Placed (first ++ second) position file) :
    Placed second (position + first.length) file := by
  obtain ⟨front, back, rfl, length⟩ := placed
  exact ⟨front ++ first, back, by simp only [List.append_assoc],
    by rw [List.length_append, length]⟩

theorem Placed.tail (placed : Placed (byte :: rest) position file) :
    Placed rest (position + 1) file :=
  @Placed.right [byte] rest file position placed

theorem Placed.slice_eq (placed : Placed piece position file) :
    slice position (position + piece.length) file = piece := by
  obtain ⟨front, back, rfl, rfl⟩ := placed
  exact slice_middle front piece back

theorem Placed.getElem? (placed : Placed (byte :: rest) position file) :
    file.toArray[position]? = some byte := by
  obtain ⟨front, back, rfl, rfl⟩ := placed
  rw [List.getElem?_toArray, List.append_assoc, List.getElem?_append_right (Nat.le_refl _),
    Nat.sub_self]
  rfl

theorem Placed.readNat? {width value : Nat} (placed : Placed (ofNat width value) position file)
    (fits : value < capacity width) : Bytes.readNat? file.toArray width position = some value := by
  obtain ⟨front, back, rfl, rfl⟩ := placed
  exact readNat?_middle front back fits

theorem Placed.readUInt32 {word : UInt32} (placed : Placed (ofUInt32 word) position file) :
    Bytes.readNat? file.toArray 4 position = some word.toNat :=
  placed.readNat? word.toNat_lt

end Columnar.Bytes
