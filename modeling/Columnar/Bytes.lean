namespace Columnar

/-!
Byte strings and little-endian words.

A byte string is a list of bytes.  `Bytes.ofNat` writes a number in a fixed number of bytes, least
significant first, and `Bytes.toNat` reads one back: `toNat_ofNat` and `ofNat_toNat` say that the
two undo each other within the width.
-/

abbrev Bytes := List UInt8

namespace Bytes

/-- The lowest `width` base-256 digits of a number, least significant first. -/
def ofNat : Nat → Nat → Bytes
  | 0, _ => []
  | width + 1, value => UInt8.ofNat value :: ofNat width (value / 256)

/-- The number whose base-256 digits, least significant first, are the given bytes. -/
def toNat : Bytes → Nat
  | [] => 0
  | byte :: rest => byte.toNat + 256 * toNat rest

@[simp] theorem length_ofNat (width value : Nat) : (ofNat width value).length = width := by
  induction width generalizing value with
  | zero => rfl
  | succ width ih => simp [ofNat, ih]

/-- How many numbers so many bytes can hold. -/
def capacity : Nat → Nat
  | 0 => 1
  | width + 1 => 256 * capacity width

theorem toNat_lt (bytes : Bytes) : toNat bytes < capacity bytes.length := by
  induction bytes with
  | nil => simp [toNat, capacity]
  | cons byte rest ih =>
      have bound := byte.toNat_lt
      simp only [toNat, List.length_cons, capacity]
      omega

theorem toNat_ofNat (width value : Nat) : toNat (ofNat width value) = value % capacity width := by
  induction width generalizing value with
  | zero => simp [ofNat, toNat, capacity, Nat.mod_one]
  | succ width ih =>
      have digit : (UInt8.ofNat value).toNat = value % 256 := UInt8.toNat_ofNat'
      rw [ofNat, toNat, ih, digit, capacity, Nat.mod_mul]

theorem ofNat_toNat (bytes : Bytes) : ofNat bytes.length (toNat bytes) = bytes := by
  induction bytes with
  | nil => rfl
  | cons byte rest ih =>
      have bound := byte.toNat_lt
      have quotient : (byte.toNat + 256 * toNat rest) / 256 = toNat rest := by omega
      have digit : UInt8.ofNat (byte.toNat + 256 * toNat rest) = byte := by
        apply UInt8.toNat_inj.mp
        rw [UInt8.toNat_ofNat']
        omega
      simp only [List.length_cons, ofNat, toNat, quotient, digit, ih]

/-- A 32-bit word in four bytes. -/
def ofUInt32 (word : UInt32) : Bytes := ofNat 4 word.toNat

/-- Splits the number held by the first `width` bytes off a byte string that has so many. -/
def takeNat? (width : Nat) (bytes : Bytes) : Option (Nat × Bytes) :=
  let word := bytes.take width
  if word.length = width then some (toNat word, bytes.drop width) else none

theorem takeNat?_ofNat_append {width value : Nat} (fits : value < capacity width) (rest : Bytes) :
    takeNat? width (ofNat width value ++ rest) = some (value, rest) := by
  have taken : (ofNat width value ++ rest).take width = ofNat width value := by
    rw [List.take_append_of_le_length (by simp)]
    exact List.take_of_length_le (by simp)
  have dropped : (ofNat width value ++ rest).drop width = rest := by
    rw [List.drop_append_of_le_length (by simp), List.drop_of_length_le (by simp), List.nil_append]
  simp only [takeNat?, taken, length_ofNat, dropped, if_true, toNat_ofNat, Nat.mod_eq_of_lt fits]

/-- The number held by the `width` bytes from `start` on, if they all lie inside the buffer. -/
def readNat? (buffer : Array UInt8) (width start : Nat) : Option Nat :=
  if start + width ≤ buffer.size then some (toNat (buffer.extract start (start + width)).toList)
  else none

/-- How many zero bytes bring a length to the next multiple of four. -/
def paddingFor (length : Nat) : Nat := (4 - length % 4) % 4

theorem paddingFor_aligned (length : Nat) : (length + paddingFor length) % 4 = 0 := by
  unfold paddingFor
  omega

end Bytes

end Columnar
