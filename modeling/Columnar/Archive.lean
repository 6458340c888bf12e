import Columnar.Bytes

namespace Columnar

/-!
Archives: records that refer to byte strings by relative position.

A record stands at the end of its file, at a multiple of four, and the byte strings that it
refers to stand in front of it.  A reference is the distance from its own address to the first
byte, as a signed word, and the length.  `Reference.resolve?` follows one and checks that the
bytes lie inside the window where they may be.
-/

namespace Archive

/-- A reference stored at an address, to `length` bytes from `target` on. -/
structure Reference where
  address : Nat
  target : Nat
  length : Nat

/-- Distances count modulo the number of 32-bit words, so those in its upper half point back. -/
def distanceModulus : Nat := 0x100000000

/-- The bytes of a reference. -/
def Reference.encode (reference : Reference) : Bytes :=
  let distance := reference.target + distanceModulus - reference.address
  Bytes.ofNat 4 distance ++ Bytes.ofNat 4 reference.length

/-- The place that a stored distance leads to. -/
def resolveTarget? (address distance : Nat) : Option Nat :=
  if distance < 0x80000000 then some (address + distance)
  else if distanceModulus ≤ address + distance then some (address + distance - distanceModulus)
  else none

/-- A stretch of a file. -/
structure Window where
  start : Nat
  stop : Nat

/-- Follows the reference at an address.  The items that it refers to, of the given width, must lie
inside the window, even when there are none. -/
def Reference.resolve? (file : Array UInt8) (window : Window) (width address : Nat) :
    Option Reference :=
  match Bytes.readNat? file 4 address, Bytes.readNat? file 4 (address + 4) with
  | some distance, some length =>
      match resolveTarget? address distance with
      | some target =>
          if window.start ≤ target ∧ target + length * width ≤ window.stop then
            some ⟨address, target, length⟩
          else none
      | none => none
  | _, _ => none

/-- The bytes that a reference stands for. -/
def Reference.bytes (file : Array UInt8) (reference : Reference) : Bytes :=
  (file.extract reference.target (reference.target + reference.length)).toList

/-- Where the record of the given size at the end of a file begins, if it is aligned. -/
def rootAddress? (file : Array UInt8) (size : Nat) : Option Nat :=
  if size ≤ file.size ∧ (file.size - size) % 4 = 0 then some (file.size - size) else none

/-- Brings data up to a multiple of four. -/
def align (data : Bytes) : Bytes := data ++ List.replicate (Bytes.paddingFor data.length) 0

end Archive

end Columnar
